import EphemeralOS.Kernel.String
import Mathlib.Data.List.GetD

/-!
# Bytes in memory

A buffer passed around as a pointer is the memory from there on. `Stands` says
which bytes stand at an offset, and what a `memcpy` leaves of them.
-/

namespace EphemeralOS

/-- The memory from offset `off` on. -/
def Memory.shift (m : Memory) (off : Nat) : Memory := fun a => m (off + a)

/-- A memory that starts with the bytes `l`. -/
def Memory.ofList (l : List UInt8) : Memory := fun a => l.getD a 0

theorem store_apply (m : Memory) (off : Nat) (l : List UInt8) (a : Nat) :
    m.store off l a = if off ≤ a ∧ a < off + l.length then l.getD (a - off) 0 else m a := rfl

theorem store_append (m : Memory) (off : Nat) (l r : List UInt8) :
    m.store off (l ++ r) = (m.store off l).store (off + l.length) r := by
  funext a
  simp only [store_apply, List.length_append]
  by_cases hr : off + l.length ≤ a ∧ a < off + l.length + r.length
  · rw [if_pos (by omega), if_pos hr, List.getD_append_right _ _ _ _ (by omega)]
    congr 1
    omega
  · rw [if_neg hr]
    by_cases hl : off ≤ a ∧ a < off + l.length
    · rw [if_pos (by omega), if_pos hl, List.getD_append _ _ _ _ (by omega)]
    · rw [if_neg (by omega), if_neg hl]

/-- The bytes `l` stand at offset `off`. -/
def Memory.Stands (m : Memory) (off : Nat) (l : List UInt8) : Prop := m.bytes off l.length = l

@[simp] theorem Memory.length_bytes (m : Memory) (off n : Nat) : (m.bytes off n).length = n := by
  rw [Memory.bytes, List.length_map, List.length_range]

theorem Memory.bytes_add (m : Memory) (off a b : Nat) :
    m.bytes off (a + b) = m.bytes off a ++ m.bytes (off + a) b := by
  simp only [Memory.bytes, List.range_add, List.map_append, List.map_map, Function.comp_def,
    Nat.add_assoc]

theorem Memory.stands_append {m : Memory} {off : Nat} {l r : List UInt8} :
    m.Stands off (l ++ r) ↔ m.Stands off l ∧ m.Stands (off + l.length) r := by
  rw [Memory.Stands, List.length_append, Memory.bytes_add]
  constructor
  · exact fun h => List.append_inj h (Memory.length_bytes _ _ _)
  · exact fun h => congrArg₂ (· ++ ·) h.1 h.2

theorem Memory.stands_cons {m : Memory} {off : Nat} {b : UInt8} {l : List UInt8} :
    m.Stands off (b :: l) ↔ m off = b ∧ m.Stands (off + 1) l := by
  have hone : m.Stands off [b] ↔ m off = b := by simp [Memory.Stands, Memory.bytes]
  rw [← hone]
  exact Memory.stands_append (l := [b])

theorem Memory.stands_ofList (l : List UInt8) : (Memory.ofList l).Stands 0 l := by
  apply List.ext_getElem
  · exact Memory.length_bytes _ _ _
  · intro i h1 h2
    simp [Memory.bytes, Memory.ofList, h2]

theorem Memory.stands_store (m : Memory) (off : Nat) (l : List UInt8) :
    (m.store off l).Stands off l := by
  apply List.ext_getElem
  · exact Memory.length_bytes _ _ _
  · intro i h1 h2
    simp [Memory.bytes, Memory.store, h2]

theorem Memory.Stands.store {m : Memory} {off : Nat} {l : List UInt8} (h : m.Stands off l)
    {w : Nat} {l' : List UInt8} (hw : w + l'.length ≤ off ∨ off + l.length ≤ w) :
    (m.store w l').Stands off l := by
  have hkept : (m.store w l').bytes off l.length = m.bytes off l.length := by
    refine List.map_congr_left fun i hi => ?_
    rw [List.mem_range] at hi
    exact if_neg (by omega)
  exact hkept.trans h

theorem Memory.Stands.congr {m m' : Memory} {off : Nat} {l : List UInt8} (h : m.Stands off l)
    (heq : ∀ a, off ≤ a → a < off + l.length → m' a = m a) : m'.Stands off l := by
  have hsame : m'.bytes off l.length = m.bytes off l.length := by
    refine List.map_congr_left fun i hi => ?_
    rw [List.mem_range] at hi
    exact heq _ (Nat.le_add_right off i) (by omega)
  exact hsame.trans h

/-- The bytes at an offset are those of the memory from a pointer on. -/
theorem Memory.bytes_shift (m : Memory) (off a n : Nat) :
    (m.shift off).bytes a n = m.bytes (off + a) n := by
  simp only [Memory.bytes, Memory.shift, Nat.add_assoc]

theorem Memory.stands_shift {m : Memory} {off a : Nat} {l : List UInt8} :
    (m.shift off).Stands a l ↔ m.Stands (off + a) l := by
  rw [Memory.Stands, Memory.bytes_shift]
  rfl

end EphemeralOS
