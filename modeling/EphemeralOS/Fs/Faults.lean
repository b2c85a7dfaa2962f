import EphemeralOS.Fs.Remove

/-!
# Reads that fail

The operations on a disk that is not perfect. A lookup whose reads may fail
gives up or finds what it finds on a perfect disk, and changes nothing
(`findInodeByPath_lossy`). The two loops that change a directory write back
what they read but for one entry (`Rewritten`); when the read has failed, they
write back an empty directory.
-/

namespace EphemeralOS

open Path Directory

namespace FsState

/-- The state whose reads to come go as `fs` says. -/
def withFaults (s : FsState) (fs : List Bool) : FsState :=
  { s with disk := { s.disk with faults := fs } }

def ReadFails (s : FsState) : Prop := s.disk.faults.head? = some true

instance (s : FsState) : Decidable s.ReadFails := inferInstanceAs (Decidable (_ = _))

/-- The directory that a read of `block` delivers. -/
def dirRead (s : FsState) (block : UInt32) : DirBlock :=
  dirOfSector (if ValidBlock block ∧ ¬ s.ReadFails then s.data block else Sector.zero)

section WithFaults

variable (s : FsState) (fs fs' : List Bool)

@[simp] theorem withFaults_withFaults : (s.withFaults fs).withFaults fs' = s.withFaults fs' := rfl
@[simp] theorem withFaults_superblock : (s.withFaults fs).superblock = s.superblock := rfl
@[simp] theorem withFaults_inodeTable : (s.withFaults fs).inodeTable = s.inodeTable := rfl
@[simp] theorem withFaults_blockBitmap : (s.withFaults fs).blockBitmap = s.blockBitmap := rfl
@[simp] theorem withFaults_data : (s.withFaults fs).data = s.data := rfl
@[simp] theorem withFaults_dirBlock : (s.withFaults fs).dirBlock = s.dirBlock := rfl
@[simp] theorem withFaults_slots : (s.withFaults fs).slots = s.slots := rfl
@[simp] theorem withFaults_resolve : (s.withFaults fs).resolve = s.resolve := rfl
theorem withFaults_perfect : (s.withFaults []).disk.Perfect := rfl

theorem withFaults_self (h : s.disk.Perfect) : s.withFaults [] = s := by
  obtain ⟨sb, table, bm, buf, sectors, faults⟩ := s
  cases h
  rfl

end WithFaults

end FsState

/-! ## Lookups -/

/-- What does not succeed for want of a read gives up, and else does what it does on a perfect
disk. -/
def Lossy (x : FsM UInt32) : Prop :=
  ∀ s fs, ∃ r fs', x (FsState.withFaults s fs) = (r, s.withFaults fs') ∧
    (r = noNumber ∨ x (s.withFaults []) = (r, s.withFaults []))

namespace Lossy

theorem pure (a : UInt32) : Lossy (Pure.pure a) := fun _ fs => ⟨a, fs, rfl, .inr rfl⟩

theorem gets {α : Type} {g : FsState → α} {f : α → FsM UInt32}
    (hg : ∀ s fs, g (FsState.withFaults s fs) = g s) (hf : ∀ a, Lossy (f a)) :
    Lossy (FsM.gets g >>= f) := fun s fs => by
  simp only [FsM.bind_gets, hg]
  exact hf (g s) s fs

theorem bind {x : FsM UInt32} {f : UInt32 → FsM UInt32} (hx : Lossy x) (hf : ∀ a, Lossy (f a))
    (hgiveUp : f noNumber = Pure.pure noNumber) : Lossy (x >>= f) := fun s fs => by
  obtain ⟨r, fs1, h1, hr⟩ := hx s fs
  rw [FsM.bind_eq h1]
  rcases hr with rfl | hr
  · rw [hgiveUp]
    exact ⟨noNumber, fs1, rfl, .inl rfl⟩
  · rw [FsM.bind_eq hr]
    exact hf r s fs1

theorem ite {c : Prop} [Decidable c] {x y : FsM UInt32} (hx : c → Lossy x) (hy : ¬ c → Lossy y) :
    Lossy (if c then x else y) := by
  split
  · next h => exact hx h
  · next h => exact hy h

end Lossy

/-- A read fails, or delivers what it delivers on a perfect disk. -/
theorem readDirBlock_faults (block : UInt32) (s : FsState) :
    ∃ fs, readDirBlock block s = (s.dirRead block, s.withFaults fs) := by
  unfold readDirBlock readInodeBlock FsState.dirRead
  by_cases hv : ValidBlock block
  · simp only [if_neg (validBlock_iff_not.mp hv), hv, true_and]
    obtain ⟨sb, table, bm, buf, sectors, faults⟩ := s
    rcases faults with _ | ⟨_ | _, fs⟩
    · exact ⟨[], rfl⟩
    · exact ⟨fs, rfl⟩
    · exact ⟨fs, rfl⟩
  · simp only [if_pos (not_not.mp (mt validBlock_iff_not.mpr hv)), hv, false_and, if_false]
    exact ⟨s.disk.faults, rfl⟩

theorem readDirBlock_perfect (block : UInt32) (s : FsState) :
    readDirBlock block (s.withFaults []) = ((s.withFaults []).dirRead block, s.withFaults []) := by
  have hnot : ¬ (s.withFaults []).ReadFails := nofun
  unfold readDirBlock FsState.dirRead
  rw [FsM.bind_eq (readInodeBlock_eq s.withFaults_perfect block)]
  simp only [hnot, not_false_eq_true, and_true]
  rfl

/-- A read delivers the block or, when it fails, zeros. -/
theorem FsState.dirRead_cases (s : FsState) (fs : List Bool) (block : UInt32) :
    (s.withFaults fs).dirRead block = (s.withFaults []).dirRead block ∨
      (s.withFaults fs).dirRead block = dirOfSector Sector.zero := by
  have hnot : ¬ (s.withFaults []).ReadFails := nofun
  unfold FsState.dirRead
  by_cases hf : (s.withFaults fs).ReadFails
  · exact .inr (by rw [if_neg fun h => h.2 hf])
  · exact .inl (by simp only [hf, hnot, FsState.withFaults_data])

theorem FsState.dirRead_fails (s : FsState) (h : s.ReadFails) (block : UInt32) :
    s.dirRead block = dirOfSector Sector.zero := by
  unfold FsState.dirRead
  rw [if_neg fun hr => hr.2 h]

theorem FsState.dirRead_eq (s : FsState) {d block : UInt32} (hd : s.UsableDir d)
    (hb : (s.inodeTable d).blocks 0 = block) (h : ¬ s.ReadFails) :
    s.dirRead block = s.dirBlock d := by
  subst hb
  unfold FsState.dirRead FsState.dirBlock
  simp only [hd.2.2, h, not_false_eq_true, and_self, if_true]

theorem firstSlot_zero {p : DirEntry → Bool} (hp : ∀ e : DirEntry, p e = true → e.inUse = 1) :
    firstSlot (dirOfSector Sector.zero) p = none := by
  refine first_eq_none_iff.mpr fun i => ?_
  have hi := slotsOf_eq_none.mp (congrFun slots_zero i)
  exact Bool.eq_false_iff.mpr fun h => hi (hp _ h)

theorem findComponent_lossy (current : UInt32) (component : List UInt8) :
    Lossy (findComponent current component) := by
  unfold findComponent
  refine .ite (fun _ => .pure _) fun _ => .ite (fun _ => .pure _) fun _ => ?_
  refine .gets (fun _ _ => rfl) fun v => .ite (fun _ => .pure _) fun _ =>
    .ite (fun _ => .pure _) fun hv s fs => ?_
  obtain ⟨fs1, h1⟩ := readDirBlock_faults (v.blocks 0) (s.withFaults fs)
  rw [FsM.bind_eq h1, FsM.bind_eq (readDirBlock_perfect (v.blocks 0) s)]
  rcases FsState.dirRead_cases s fs (v.blocks 0) with hd | hd
  · rw [hd]
    cases firstSlot _ fun e => e.inUse = 1 ∧ e.name.cstr = component with
    | none => exact ⟨noNumber, fs1, rfl, .inl rfl⟩
    | some i => exact ⟨_, fs1, rfl, .inr rfl⟩
  · rw [hd, firstSlot_zero fun e he => (of_decide_eq_true he).1]
    exact ⟨noNumber, fs1, rfl, .inl rfl⟩

theorem findLoop_lossy : ∀ (rounds : Nat) (p : List UInt8) (current : UInt32),
    Lossy (findLoop rounds p current)
  | 0, _, _ => .pure _
  | rounds + 1, p, current => by
    unfold findLoop
    refine .ite (fun _ => .pure _) fun _ => .bind (findComponent_lossy _ _) (fun found => ?_) rfl
    exact .ite (fun _ => .pure _) fun _ => .ite
      (fun _ => .ite (fun _ => .pure _) fun _ => findLoop_lossy rounds _ found) fun _ => .pure _

/-- **A lookup whose reads may fail** gives up or finds what is there. -/
theorem findInodeByPath_lossy (path : List UInt8) (s : FsState) :
    ∃ r fs, findInodeByPath path s = (r, s.withFaults fs) ∧
      (r = noNumber ∨ s.resolve (comps path) = some r) := by
  have hlossy : Lossy (findInodeByPath path) := by
    unfold findInodeByPath
    exact .gets (fun _ _ => rfl) fun root => .ite (fun _ => .pure _) fun _ => findLoop_lossy _ _ _
  obtain ⟨r, fs, h, hr⟩ := hlossy s s.disk.faults
  refine ⟨r, fs, h, ?_⟩
  rcases hr with hr | hr
  · exact .inl hr
  have hr := congrArg Prod.fst (hr.symm.trans (findInodeByPath_eq s.withFaults_perfect path))
  simp only [FsState.withFaults_resolve] at hr
  cases hres : s.resolve (comps path) with
  | none => exact .inl (by rw [hr, hres]; rfl)
  | some e => exact .inr (by rw [hr, hres]; rfl)

/-! ## Changing a directory -/

/-- The block `b` has been read and written back with `x` in slot `i`. -/
structure Rewritten (s s' : FsState) (b : UInt32) (i : Fin 15) (x : DirEntry) : Prop where
  root : s'.superblock.rootInode = s.superblock.rootInode
  table : s'.inodeTable = s.inodeTable
  bitmap : s'.blockBitmap = s.blockBitmap
  kept : ∀ c, c ≠ b → s'.data c = s.data c
  written : ValidBlock b → s'.data b = sectorOfDir (Function.update (s.dirRead b) i x)

namespace Rewritten

variable {s s' : FsState} {b : UInt32} {i : Fin 15} {x : DirEntry} (W : Rewritten s s' b i x)
include W

theorem usable_iff {d : UInt32} : s'.UsableDir d ↔ s.UsableDir d := by
  unfold FsState.UsableDir
  rw [W.table]

theorem dirBlock_ne {d : UInt32} (hd : (s.inodeTable d).blocks 0 ≠ b) :
    s'.dirBlock d = s.dirBlock d := by
  unfold FsState.dirBlock
  simp only [W.table, W.kept _ hd]

theorem dirBlock_eq {d : UInt32} (hd : s.UsableDir d) (hb : (s.inodeTable d).blocks 0 = b)
    {k : Fin 15} (hk : k ≠ 14) : s'.dirBlock d k = Function.update (s.dirRead b) i x k := by
  have hv : ValidBlock b := hb ▸ hd.2.2
  unfold FsState.dirBlock
  simp only [W.table, hb, if_pos hv]
  rw [W.written hv, dirOfSector_sectorOfDir _ hk]

/-- An entry is the new one, or was there and has been read. -/
theorem slot_cases {d : UInt32} (hd : s.UsableDir d) {k : Fin 15} {c : List UInt8} {e : UInt32}
    (h : s'.slots d k = some (c, e)) :
    ((s.inodeTable d).blocks 0 = b ∧ k = i ∧ x.inUse = 1 ∧ x.inode = e) ∨
      (s.slots d k = some (c, e) ∧ ((s.inodeTable d).blocks 0 = b → ¬ s.ReadFails ∧ k ≠ i)) := by
  by_cases hb : (s.inodeTable d).blocks 0 = b
  · have hk : k ≠ 14 := fun e => by rw [e, slots_last_none] at h; cases h
    obtain ⟨hu, hc, he⟩ := slotsOf_eq_some.mp h
    rw [W.dirBlock_eq hd hb hk] at hu hc he
    by_cases hki : k = i
    · subst hki
      rw [Function.update_self] at hu he
      exact .inl ⟨hb, rfl, hu, he⟩
    · rw [Function.update_of_ne hki] at hu hc he
      have hread : ¬ s.ReadFails := fun hf => by
        rw [s.dirRead_fails hf] at hu
        exact slotsOf_eq_none.mp (congrFun slots_zero k) hu
      rw [s.dirRead_eq hd hb hread] at hu hc he
      exact .inr ⟨slotsOf_eq_some.mpr ⟨hu, hc, he⟩, fun _ => ⟨hread, hki⟩⟩
  · rw [FsState.slots, W.dirBlock_ne hb] at h
    exact .inr ⟨h, fun e => absurd e hb⟩

theorem dirBlock_kept {d : UInt32} (hd : s.UsableDir d) {k : Fin 15}
    (hk : (s.dirBlock d k).inUse = 1)
    (h : (s.inodeTable d).blocks 0 = b → ¬ s.ReadFails ∧ k ≠ i) :
    s'.dirBlock d k = s.dirBlock d k := by
  by_cases hb : (s.inodeTable d).blocks 0 = b
  · obtain ⟨hread, hki⟩ := h hb
    have h14 : k ≠ 14 := fun e => slotsOf_eq_none.mp (slots_last_none s d) (e ▸ hk)
    rw [W.dirBlock_eq hd hb h14, Function.update_of_ne hki, s.dirRead_eq hd hb hread]
  · rw [W.dirBlock_ne hb]

theorem sync : Rewritten s (syncBlockBitmap (syncInodeTable s')) b i x where
  root := by simpa using W.root
  table := by simpa using W.table
  bitmap := by simpa using W.bitmap
  kept c hc := by simpa using W.kept c hc
  written hb := by simpa using W.written hb

theorem syncSuperblock : Rewritten s (syncSuperblock s') b i x where
  root := W.root
  table := W.table
  bitmap := W.bitmap
  kept c hc := by simpa using W.kept c hc
  written hb := by simpa using W.written hb

end Rewritten

/-- The state after reading `b` and writing `d` to it. -/
def FsState.rewrite (s : FsState) (fs : List Bool) (b : UInt32) (d : DirBlock) : FsState :=
  writeInodeBlock b (sectorOfDir d) (s.withFaults fs)

theorem FsState.rewritten (s : FsState) (fs : List Bool) (b : UInt32) (i : Fin 15) (x : DirEntry) :
    Rewritten s (s.rewrite fs b (Function.update (s.dirRead b) i x)) b i x where
  root := by simp [FsState.rewrite]
  table := by simp [FsState.rewrite]
  bitmap := by simp [FsState.rewrite]
  kept c hc := by rw [FsState.rewrite, writeInodeBlock_data, if_neg fun h => hc h.2]; rfl
  written hb := by rw [FsState.rewrite, writeInodeBlock_data, if_pos ⟨hb, rfl⟩]

theorem dirRead_last (s : FsState) (b : UInt32) : (s.dirRead b 14).inUse ≠ 1 := by
  rw [FsState.dirRead, inUse_last]
  decide

theorem linkEntry_rewrites (s : FsState) (p : UInt32) (name : List UInt8) (n : UInt32) :
    ∃ t i x, linkEntry p name n s = (true, t) ∧
      Rewritten s t ((s.inodeTable p).blocks 0) i x ∧ x.inUse = 1 ∧ x.inode = n ∧
      (s.dirRead ((s.inodeTable p).blocks 0) i).inUse ≠ 1 := by
  generalize hb : (s.inodeTable p).blocks 0 = b
  obtain ⟨fs, hread⟩ := readDirBlock_faults b s
  have hadd : ∃ i, (s.dirRead b i).inUse ≠ 1 ∧ addEntry (s.dirRead b) name n =
      some (Function.update (s.dirRead b) i ⟨(s.dirRead b i).name.strcpy name, n, 1⟩) := by
    unfold addEntry
    cases hf : firstSlot (s.dirRead b) fun e => e.inUse ≠ 1 with
    | none =>
      exact absurd (dirRead_last s b) (of_decide_eq_false (first_eq_none_iff.mp hf 14))
    | some i => exact ⟨i, of_decide_eq_true (first_eq_some_iff.mp hf).1, rfl⟩
  obtain ⟨i, hi, hadd⟩ := hadd
  refine ⟨_, i, ⟨(s.dirRead b i).name.strcpy name, n, 1⟩, ?_, s.rewritten fs b i _, rfl, rfl, hi⟩
  unfold linkEntry
  rw [FsM.bind_gets, hb, FsM.bind_eq hread, hadd]
  rfl

/-- Dropping an entry empties the slot of the first entry of the inode, if one is read. -/
theorem removeEntry_cases (d : DirBlock) (f : UInt32) (hlast : (d 14).inUse ≠ 1) :
    ∃ i x, removeEntry d f = Function.update d i x ∧ x.inUse ≠ 1 ∧
      ((d i).inUse = 1 ∧ (d i).inode = f ∨ ∀ k, (d k).inUse = 1 → (d k).inode ≠ f) := by
  unfold removeEntry
  cases hf : firstSlot d fun e => e.inUse = 1 ∧ e.inode = f with
  | none =>
    refine ⟨14, d 14, (Function.update_eq_self 14 d).symm, hlast, .inr fun k hk he => ?_⟩
    exact of_decide_eq_false (first_eq_none_iff.mp hf k) ⟨hk, he⟩
  | some i =>
    exact ⟨i, _, rfl, show (0 : UInt8) ≠ 1 by decide, .inl (of_decide_eq_true (first_eq_some_iff.mp hf).1)⟩

end EphemeralOS
