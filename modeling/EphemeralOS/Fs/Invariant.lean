import EphemeralOS.Fs.Create

/-!
# The invariant

`Inv` is what every operation keeps, on any path and with any outcome. It has
four parts: `Blocks` (who owns which block), `Shape` (which inodes are
directories, and that parents lead to the root), `Entries` (what directories
hold) and `Files` (which blocks a file has).

Two oddities of the source are part of it. Inode 1 is the directory `/bin`,
which was given block 0 at installation; the transfers take block number 0 for
"no block", so nothing can be entered there (`Shape.bin`). And a directory may
hold one name twice; when two files do, a directory of that name comes before
the second (`Entries.order`).
-/

namespace EphemeralOS

open Path Directory Ownership

namespace FsState

variable (s : FsState)

def Live (i : UInt32) : Prop := i < fsMaxInodes ∧ (s.inodeTable i).type ≠ inodeTypeFree

def IsFile (i : UInt32) : Prop := i < fsMaxInodes ∧ (s.inodeTable i).type = inodeTypeFile

def IsDir (i : UInt32) : Prop := i < fsMaxInodes ∧ (s.inodeTable i).type = inodeTypeDir

instance (i : UInt32) : Decidable (s.Live i) := inferInstanceAs (Decidable (_ ∧ _))
instance (i : UInt32) : Decidable (s.IsFile i) := inferInstanceAs (Decidable (_ ∧ _))
instance (i : UInt32) : Decidable (s.IsDir i) := inferInstanceAs (Decidable (_ ∧ _))

/-- The block that pointer `k` of a live inode names. -/
def blockRef (x : UInt32 × Fin 12) : Option UInt32 :=
  if s.Live x.1 ∧ (s.inodeTable x.1).blocks x.2 ≠ 0 then some ((s.inodeTable x.1).blocks x.2)
  else none

def BlockUsed (b : UInt32) : Prop := ValidBlock b ∧ s.bit b = true

/-- The parents of an inode, directories all, lead to the root. -/
inductive Rooted : UInt32 → Prop
  | root : Rooted 0
  | child {i : UInt32} : s.IsDir (s.inodeTable i).parentInode → Rooted (s.inodeTable i).parentInode →
      Rooted i

end FsState

section Kinds

variable {s : FsState} {i : UInt32}

theorem FsState.IsFile.live (h : s.IsFile i) : s.Live i := ⟨h.1, by rw [h.2]; decide⟩

theorem FsState.IsDir.live (h : s.IsDir i) : s.Live i := ⟨h.1, by rw [h.2]; decide⟩

theorem FsState.IsFile.not_isDir (h : s.IsFile i) : ¬ s.IsDir i := fun hd => by
  have := h.2.symm.trans hd.2
  exact absurd this (by decide)

theorem FsState.UsableDir.isDir (h : s.UsableDir i) : s.IsDir i := ⟨h.1, h.2.1⟩

theorem FsState.UsableDir.slots_eq (h : s.UsableDir i) :
    s.slots i = slotsOf (dirOfSector (s.data ((s.inodeTable i).blocks 0))) := by
  unfold FsState.slots FsState.dirBlock
  simp only [if_pos h.2.2]

theorem FsState.Live.visible_eq {s' : FsState} (h : s.Live i)
    (hv : (s'.inodeTable i).visible = (s.inodeTable i).visible) : s'.inodeTable i = s.inodeTable i :=
  (Inode.eq_of_visible hv.symm h.2).symm

theorem FsState.blockRef_eq_some {x : UInt32 × Fin 12} {b : UInt32} : s.blockRef x = some b ↔
    s.Live x.1 ∧ (s.inodeTable x.1).blocks x.2 = b ∧ b ≠ 0 := by
  unfold FsState.blockRef
  split
  · next h =>
    rw [Option.some_inj]
    exact ⟨fun e => ⟨h.1, e, e ▸ h.2⟩, fun e => e.2.1⟩
  · next h =>
    refine ⟨(nomatch ·), ?_⟩
    rintro ⟨h1, h2, h3⟩
    exact absurd ⟨h1, h2 ▸ h3⟩ h

theorem FsState.blockRef_congr {s' : FsState} {x : UInt32 × Fin 12}
    (h : s'.inodeTable x.1 = s.inodeTable x.1) : s'.blockRef x = s.blockRef x := by
  apply Option.ext
  intro b
  rw [FsState.blockRef_eq_some, FsState.blockRef_eq_some]
  unfold FsState.Live
  rw [h]

end Kinds

def dotSlots (self parent : UInt32) : Slots 15 (List UInt8) UInt32 := fun i =>
  if i = 0 then some (ascii ".", self) else if i = 1 then some (ascii "..", parent) else none

theorem dotSlots_of_two_le {self parent : UInt32} {j : Fin 15} (hj : 2 ≤ j) :
    dotSlots self parent j = none := by
  unfold dotSlots
  rw [if_neg (by rintro rfl; exact absurd hj (by decide)),
    if_neg (by rintro rfl; exact absurd hj (by decide))]

theorem dotSlots_leads {self parent : UInt32} {j : Fin 15} {c : List UInt8} {e : UInt32}
    (h : dotSlots self parent j = some (c, e)) : e = self ∨ e = parent := by
  unfold dotSlots at h
  split at h
  · cases h
    exact .inl rfl
  split at h
  · cases h
    exact .inr rfl
  · cases h

structure NameOk (c : List UInt8) : Prop where
  segment : Segment slash c
  noNul : 0 ∉ c
  short : c.length < fsMaxFilename

/-! ## The invariant -/

structure Blocks (s : FsState) : Prop where
  clean : CleanFree s
  block0 : s.bit 0 = true
  owned : Exclusive s.BlockUsed s.blockRef

structure Shape (s : FsState) : Prop where
  root : s.superblock.rootInode = 0
  types : ∀ i, s.Live i → s.IsFile i ∨ s.IsDir i
  rootDir : s.IsDir 0 ∧ (s.inodeTable 0).parentInode = 0
  bin : s.IsDir 1 ∧ (s.inodeTable 1).blocks 0 = 0
  dirs : ∀ d, s.IsDir d → d ≠ 1 → ValidBlock ((s.inodeTable d).blocks 0)
  parents : ∀ i, s.Live i → s.IsDir (s.inodeTable i).parentInode
  rooted : ∀ i, s.Live i → s.Rooted i

/-- The entries of directory `d`. -/
structure EntriesOf (s : FsState) (d : UInt32) : Prop where
  dot : s.slots d 0 = some (ascii ".", d)
  dotdot : s.slots d 1 = some (ascii "..", (s.inodeTable d).parentInode)
  entry : ∀ j c e, 2 ≤ j → s.slots d j = some (c, e) →
    NameOk c ∧ s.Live e ∧ e ≠ 0 ∧ (s.inodeTable e).parentInode = d
  distinct : ∀ j k c c' e, 2 ≤ j → 2 ≤ k → s.slots d j = some (c, e) → s.slots d k = some (c', e) →
    j = k
  order : ∀ j k c e e', j < k → s.IsFile e → s.IsFile e' → s.slots d j = some (c, e) →
    s.slots d k = some (c, e') → ∃ l, l < k ∧ ∃ x, s.slots d l = some (c, x) ∧ s.IsDir x

def FileBlocks (v : Inode) : Prop :=
  v.size ≤ fsMaxFileSize ∧ ∀ k : Fin 12, v.blocks k ≠ 0 ↔ (k : Nat) < (v.size.toNat + 511) / 512

structure Inv (s : FsState) : Prop where
  perfect : s.disk.Perfect
  blocks : Blocks s
  shape : Shape s
  entries : ∀ d, s.UsableDir d → EntriesOf s d
  files : ∀ i, s.IsFile i → FileBlocks (s.inodeTable i)

/-! ## What it gives -/

namespace Blocks

variable {s : FsState} (hB : Blocks s)
include hB

theorem blockUsed {i : UInt32} (hi : s.Live i) {k : Fin 12} (hk : (s.inodeTable i).blocks k ≠ 0) :
    s.BlockUsed ((s.inodeTable i).blocks k) :=
  (hB.owned.used_iff _).mpr ⟨(i, k), FsState.blockRef_eq_some.mpr ⟨hi, rfl, hk⟩⟩

theorem block_inj {i j : UInt32} (hi : s.Live i) (hj : s.Live j) {k l : Fin 12}
    (hk : (s.inodeTable i).blocks k ≠ 0)
    (h : (s.inodeTable i).blocks k = (s.inodeTable j).blocks l) : i = j ∧ k = l := by
  have := hB.owned.inj (i, k) (j, l) _ (FsState.blockRef_eq_some.mpr ⟨hi, rfl, hk⟩)
    (FsState.blockRef_eq_some.mpr ⟨hj, h.symm, hk⟩)
  exact Prod.ext_iff.mp this

/-- Who owns what is in the inode table and the bitmap. -/
theorem congr {s' : FsState} (htable : s'.inodeTable = s.inodeTable)
    (hbitmap : s'.blockBitmap = s.blockBitmap) : Blocks s' := by
  obtain ⟨sb, table, bm, buf, disk⟩ := s'
  cases htable
  cases hbitmap
  exact ⟨hB.clean, hB.block0, hB.owned⟩

theorem blocks_lt {i : UInt32} (hi : s.Live i) (k : Fin 12) :
    (s.inodeTable i).blocks k < fsMaxBlocks := by
  by_cases h0 : (s.inodeTable i).blocks k = 0
  · rw [h0]; decide
  · exact (hB.blockUsed hi h0).1.2

end Blocks

namespace Inv

variable {s : FsState} (hI : Inv s)
include hI

theorem usable {d : UInt32} (hd : s.IsDir d) (h1 : d ≠ 1) : s.UsableDir d :=
  ⟨hd.1, hd.2, hI.shape.dirs d hd h1⟩

theorem not_usable_bin : ¬ s.UsableDir 1 := fun h => h.2.2.1 hI.shape.bin.2

theorem usable_root : s.UsableDir 0 := hI.usable hI.shape.rootDir.1 (by decide)

theorem ready {p : UInt32} (hp : s.Live p) : Ready s p where
  perfect := hI.perfect
  clean := hI.blocks.clean
  block0 := hI.blocks.block0
  parent := fun hv => ((hI.blocks.owned.used_iff _).mpr
    ⟨(p, 0), FsState.blockRef_eq_some.mpr ⟨hp, rfl, hv.1⟩⟩).2

theorem blockUsed {i : UInt32} (hi : s.Live i) {k : Fin 12} (hk : (s.inodeTable i).blocks k ≠ 0) :
    s.BlockUsed ((s.inodeTable i).blocks k) := hI.blocks.blockUsed hi hk

theorem block_inj {i j : UInt32} (hi : s.Live i) (hj : s.Live j) {k l : Fin 12}
    (hk : (s.inodeTable i).blocks k ≠ 0)
    (h : (s.inodeTable i).blocks k = (s.inodeTable j).blocks l) : i = j ∧ k = l :=
  hI.blocks.block_inj hi hj hk h

theorem slot_live {d : UInt32} (hd : s.UsableDir d) {j : Fin 15} {c : List UInt8} {e : UInt32}
    (h : s.slots d j = some (c, e)) : s.Live e := by
  have hE := hI.entries d hd
  rcases lt_or_ge j 2 with hj | hj
  · have : j = 0 ∨ j = 1 := by omega
    rcases this with rfl | rfl
    · rw [hE.dot] at h; cases h; exact hd.isDir.live
    · rw [hE.dotdot] at h; cases h; exact (hI.shape.parents d hd.isDir.live).live
  · exact (hE.entry j c e hj h).2.1

/-- **A lookup is the first slot of that name.** -/
theorem lookup_eq {d : UInt32} (hd : s.UsableDir d) {c : List UInt8}
    (hc : c.length < fsMaxFilename) : s.lookup d c = find (s.slots d) c := by
  unfold FsState.lookup
  rw [if_pos ⟨hc, hd⟩]
  cases hf : find (s.slots d) c with
  | none => rfl
  | some e =>
    obtain ⟨j, hj⟩ := exists_slot_of_find hf
    have := ne_noNumber_of_lt (hI.slot_live hd hj).1
    simp [Option.filter, this]

omit hI in
theorem lookup_some {d : UInt32} {c : List UInt8} {e : UInt32} (h : s.lookup d c = some e) :
    c.length < fsMaxFilename ∧ s.UsableDir d ∧ find (s.slots d) c = some e := by
  unfold FsState.lookup at h
  split at h
  · next hc =>
    exact ⟨hc.1, hc.2, (Option.filter_eq_some_iff.mp h).1⟩
  · cases h

theorem lookup_live {d : UInt32} {c : List UInt8} {e : UInt32} (h : s.lookup d c = some e) :
    s.Live e := by
  obtain ⟨_, hd, hf⟩ := lookup_some h
  obtain ⟨j, hj⟩ := exists_slot_of_find hf
  exact hI.slot_live hd hj

theorem resolve_live {cs : List (List UInt8)} {e : UInt32} (h : s.resolve cs = some e) :
    s.Live e := by
  have hroot : s.Live s.superblock.rootInode := by
    rw [hI.shape.root]; exact hI.shape.rootDir.1.live
  exact walk_invariant (P := s.Live) (fun _ _ _ _ h => hI.lookup_live h) hroot h

/-- An entry that is a file is not one of the two first. -/
theorem two_le_slot {d : UInt32} (hd : s.UsableDir d) {j : Fin 15} {c : List UInt8} {f : UInt32}
    (h : s.slots d j = some (c, f)) (hf : s.IsFile f) : 2 ≤ j := by
  have hE := hI.entries d hd
  by_contra hlt
  have : j = 0 ∨ j = 1 := by omega
  rcases this with rfl | rfl
  · rw [hE.dot] at h; cases h; exact hf.not_isDir hd.isDir
  · rw [hE.dotdot] at h; cases h
    exact hf.not_isDir (hI.shape.parents d hd.isDir.live)

/-- A file is in one slot at most, in the directory that is its parent. -/
theorem slot_file_unique {d d' : UInt32} (hd : s.UsableDir d) (hd' : s.UsableDir d') {j k : Fin 15}
    {c c' : List UInt8} {f : UInt32} (hf : s.IsFile f) (h : s.slots d j = some (c, f))
    (h' : s.slots d' k = some (c', f)) : d = d' ∧ j = k := by
  have hj := hI.two_le_slot hd h hf
  have hk := hI.two_le_slot hd' h' hf
  obtain rfl : d = d' := ((hI.entries d hd).entry j c f hj h).2.2.2.symm.trans
    ((hI.entries d' hd').entry k c' f hk h').2.2.2
  exact ⟨rfl, (hI.entries d hd).distinct j k c c' f hj hk h h'⟩

end Inv

end EphemeralOS
