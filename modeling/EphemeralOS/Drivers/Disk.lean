import EphemeralOS.Lib.Layout
import Mathlib.Logic.Function.Basic

/-!
# The disk

An array of 512-byte sectors (`drivers/disk.c`). `disk_read_sectors` has no
result: on an ATA timeout or error it fills the buffer with zeros and returns
as if it had read. Which reads do so is the disk's `faults` schedule, one entry
for each read to come; a disk with nothing scheduled is a perfect sector store.
-/

namespace EphemeralOS

/-- 512 bytes. -/
abbrev Sector := { l : List UInt8 // l.length = 512 }

namespace Sector

def zero : Sector := ⟨List.replicate 512 0, List.length_replicate⟩

/-- The `i`-th sector of an object's bytes, zero-filled past the object's end. -/
def ofBytes (l : List UInt8) (i : Nat) : Sector := ⟨Binary.chunk 512 l i, Binary.length_chunk 512 l i⟩

end Sector

structure Disk where
  sectors : Nat → Sector
  /-- The outcomes of the reads to come, `true` for a timeout; reads past the end succeed. -/
  faults : List Bool

namespace Disk

/-- A disk on which every transfer succeeds. -/
def Perfect (d : Disk) : Prop := d.faults = []

/-- `disk_read_sectors(lba, 1, buffer)`: what the buffer holds afterwards. -/
def read (lba : Nat) (d : Disk) : Sector × Disk :=
  match d.faults with
  | [] => (d.sectors lba, d)
  | true :: fs => (Sector.zero, { d with faults := fs })
  | false :: fs => (d.sectors lba, { d with faults := fs })

/-- `disk_write_sectors(lba, 1, buffer)`. -/
def write (lba : Nat) (sec : Sector) (d : Disk) : Disk :=
  { d with sectors := Function.update d.sectors lba sec }

theorem read_perfect {d : Disk} (h : d.Perfect) (lba : Nat) : d.read lba = (d.sectors lba, d) := by
  unfold read; rw [show d.faults = [] from h]

@[simp] theorem faults_write (lba : Nat) (sec : Sector) (d : Disk) :
    (d.write lba sec).faults = d.faults := rfl

theorem sectors_write (lba : Nat) (sec : Sector) (d : Disk) (x : Nat) :
    (d.write lba sec).sectors x = if x = lba then sec else d.sectors x :=
  Function.update_apply d.sectors lba sec x

/-- Sectors `lba ..` receive the first `n` sectors of an object's bytes. -/
def writeObject (lba : Nat) (l : List UInt8) : Nat → Disk → Disk
  | 0, d => d
  | n + 1, d => (writeObject lba l n d).write (lba + n) (Sector.ofBytes l n)

/-- `n` sectors read from `lba` on, one transfer each. -/
def readObject (lba : Nat) : Nat → Disk → List UInt8 × Disk
  | 0, d => ([], d)
  | n + 1, d =>
    let (l, d) := readObject lba n d
    let (sec, d) := d.read (lba + n)
    (l ++ sec.val, d)

@[simp] theorem faults_writeObject (lba : Nat) (l : List UInt8) (n : Nat) (d : Disk) :
    (d.writeObject lba l n).faults = d.faults := by
  induction n with
  | zero => rfl
  | succ n ih => simp [writeObject, ih]

theorem sectors_writeObject (lba : Nat) (l : List UInt8) (n : Nat) (d : Disk) (x : Nat) :
    (d.writeObject lba l n).sectors x =
      if lba ≤ x ∧ x < lba + n then Sector.ofBytes l (x - lba) else d.sectors x := by
  induction n with
  | zero =>
    have h : ¬ (lba ≤ x ∧ x < lba + 0) := by omega
    simp only [writeObject, h, if_false]
  | succ n ih =>
    rw [writeObject, sectors_write, ih]
    by_cases hx : x = lba + n
    · have h : lba ≤ x ∧ x < lba + (n + 1) := by omega
      rw [if_pos hx, if_pos h, hx, Nat.add_sub_cancel_left]
    · have h : (lba ≤ x ∧ x < lba + (n + 1)) ↔ (lba ≤ x ∧ x < lba + n) := by omega
      simp only [if_neg hx, h]

/-- The bytes of `n` sectors from `lba` on. -/
def object (d : Disk) (lba n : Nat) : List UInt8 :=
  (List.range n).flatMap fun i => (d.sectors (lba + i)).val

theorem object_congr {d d' : Disk} {lba n : Nat}
    (h : ∀ x, lba ≤ x → x < lba + n → d.sectors x = d'.sectors x) :
    d.object lba n = d'.object lba n :=
  List.flatMap_congr fun i hi => by
    rw [h (lba + i) (Nat.le_add_right ..) (Nat.add_lt_add_left (List.mem_range.mp hi) _)]

theorem readObject_perfect {d : Disk} (h : d.Perfect) (lba n : Nat) :
    d.readObject lba n = (d.object lba n, d) := by
  induction n with
  | zero => rfl
  | succ n ih =>
    rw [readObject, ih]
    simp only [read_perfect h, object, List.range_succ, List.flatMap_append, List.flatMap_cons,
      List.flatMap_nil, List.append_nil]

/-- **An object's sectors, once written, start with the object's bytes.** -/
theorem prefix_object_write (d : Disk) {lba n : Nat} {l : List UInt8} (hl : l.length ≤ n * 512) :
    l <+: (d.writeObject lba l n).object lba n := by
  have hmap : (d.writeObject lba l n).object lba n =
      (List.range n).flatMap (Binary.chunk 512 l) := by
    refine List.flatMap_congr fun i hi => ?_
    have hi' := List.mem_range.mp hi
    rw [sectors_writeObject, if_pos (by omega), Nat.add_sub_cancel_left]
    rfl
  rw [hmap]
  exact Binary.prefix_chunks hl

end Disk

end EphemeralOS
