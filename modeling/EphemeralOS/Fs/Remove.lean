import EphemeralOS.Fs.Linked

/-!
# `fs_delete_file`

A deletion fails and changes nothing unless the path leads to a file
(`fsDeleteFile_fails`), and else takes the file's inode, blocks and entry away
(`Removed`, `fsDeleteFile_removes`), which keeps the invariant
(`Removed.inv`).
-/

namespace EphemeralOS

open Path Directory Ownership

theorem comps_cases (path : List UInt8) :
    comps path = [] ∨ ∃ ds c, comps path = ds ++ [c] := by
  rcases List.eq_nil_or_concat (comps path) with h | ⟨ds, c, h⟩
  · exact .inl h
  · exact .inr ⟨ds, c, by rw [h, List.concat_eq_append]⟩

theorem findInodeByPath_parent {s : FsState} (hs : s.disk.Perfect) {path : List UInt8}
    {ds : List (List UInt8)} {c : List UInt8} (h : comps path = ds ++ [c]) :
    findInodeByPath (canon slash ds) s = ((s.resolve ds).getD noNumber, s) := by
  rw [findInodeByPath_eq hs, comps_parent h]

theorem resolve_concat {s : FsState} {ds : List (List UInt8)} {c : List UInt8} :
    s.resolve (ds ++ [c]) = (s.resolve ds).bind fun d => s.lookup d c := walk_concat ..

theorem resolve_nil {s : FsState} : s.resolve [] = some s.superblock.rootInode := rfl

theorem Inv.resolve_ne_noNumber {s : FsState} (hI : Inv s) {cs : List (List UInt8)} {e : UInt32}
    (h : s.resolve cs = some e) : e ≠ noNumber := ne_noNumber_of_lt (hI.resolve_live h).1

/-- The parent that a path names, once it leads to a usable directory. -/
theorem Inv.parent_of_usable {s : FsState} (hI : Inv s) {path : List UInt8}
    (hname : 1 ≤ (splitPath path).2.length)
    (hu : s.UsableDir (findInodeByPath (splitPath path).1 s).1) :
    ∃ ds c, comps path = ds ++ [c] ∧ (splitPath path).2 = c ∧
      s.resolve ds = some (findInodeByPath (splitPath path).1 s).1 := by
  rcases comps_cases path with hroot | ⟨ds, c, hpath⟩
  · rw [splitPath_root hroot] at hname
    cases hname
  · rw [splitPath_concat hpath] at hu ⊢
    rw [findInodeByPath_parent hI.perfect hpath] at hu ⊢
    refine ⟨ds, c, hpath, rfl, ?_⟩
    cases hr : s.resolve ds with
    | none =>
      rw [hr] at hu
      exact absurd hu.1 noNumber_not_lt
    | some p => rfl

theorem Inv.findInodeByPath_concat {s : FsState} (hI : Inv s) {path : List UInt8}
    {ds : List (List UInt8)} {c : List UInt8} {p : UInt32} (hpath : comps path = ds ++ [c])
    (hp : s.resolve ds = some p) :
    (findInodeByPath path s).1 = (s.lookup p c).getD noNumber := by
  rw [findInodeByPath_eq hI.perfect, hpath, resolve_concat, hp]
  rfl

/-! ## The inode and the blocks -/

/-- The inode of the file `f` and its blocks have been freed. -/
structure Freed (s s' : FsState) (f : UInt32) : Prop where
  file : s.IsFile f
  table : s'.inodeTable = Function.update s.inodeTable f
    ⟨inodeTypeFree, 0, fun _ => 0, (s.inodeTable f).parentInode⟩
  bits : ∀ b, s'.bit b = (decide (b ∉ (s.inodeTable f).pointers) && s.bit b)

theorem freeInode_freed {s : FsState} (hB : Blocks s) {f : UInt32} (hf : s.IsFile f) :
    Freed s (freeInode f s) f := by
  rw [freeInode_eq hf.1 (hB.blocks_lt hf.live)]
  exact ⟨hf, rfl, fun b => test_foldl_clear ..⟩

theorem freeInode_rest {s : FsState} (hB : Blocks s) {f : UInt32} (hf : s.IsFile f) :
    (freeInode f s).disk = s.disk ∧
      (freeInode f s).superblock.rootInode = s.superblock.rootInode := by
  rw [freeInode_eq hf.1 (hB.blocks_lt hf.live)]
  exact ⟨rfl, rfl⟩

namespace Freed

variable {s s' : FsState} {f : UInt32} (F : Freed s s' f)
include F

theorem inode : s'.inodeTable f = ⟨inodeTypeFree, 0, fun _ => 0, (s.inodeTable f).parentInode⟩ := by
  rw [F.table, Function.update_self]

theorem inode_ne {i : UInt32} (hi : i ≠ f) : s'.inodeTable i = s.inodeTable i := by
  rw [F.table, Function.update_of_ne hi]

theorem live_iff {i : UInt32} : s'.Live i ↔ s.Live i ∧ i ≠ f := by
  by_cases hi : i = f
  · subst hi
    simp [FsState.Live, F.inode]
  · unfold FsState.Live
    rw [F.inode_ne hi]
    simp [hi]

theorem isFile_iff {i : UInt32} : s'.IsFile i ↔ s.IsFile i ∧ i ≠ f := by
  by_cases hi : i = f
  · subst hi
    simp [FsState.IsFile, F.inode, show inodeTypeFree ≠ inodeTypeFile by decide]
  · unfold FsState.IsFile
    rw [F.inode_ne hi]
    simp [hi]

theorem ne_of_isDir {i : UInt32} (hi : s.IsDir i) : i ≠ f := fun e => F.file.not_isDir (e ▸ hi)

theorem isDir_iff {i : UInt32} : s'.IsDir i ↔ s.IsDir i := by
  by_cases hi : i = f
  · subst hi
    refine ⟨fun h => ?_, fun h => absurd h F.file.not_isDir⟩
    have := h.2
    rw [F.inode] at this
    exact absurd this (show inodeTypeFree ≠ inodeTypeDir by decide)
  · unfold FsState.IsDir
    rw [F.inode_ne hi]

theorem usable_iff {d : UInt32} : s'.UsableDir d ↔ s.UsableDir d := by
  by_cases hd : s.IsDir d
  · unfold FsState.UsableDir
    rw [F.inode_ne (F.ne_of_isDir hd)]
  · exact ⟨fun h => absurd (F.isDir_iff.mp h.isDir) hd, fun h => absurd h.isDir hd⟩

/-- **Freeing a file keeps the block ownership.** -/
theorem blocks (hB : Blocks s) : Blocks s' where
  clean i hi hfree := by
    by_cases hif : i = f
    · rw [hif, F.inode]; exact ⟨rfl, fun _ => rfl⟩
    · rw [F.inode_ne hif] at hfree ⊢
      exact hB.clean i hi hfree
  block0 := by
    have : (0 : UInt32) ∉ (s.inodeTable f).pointers := fun h => (Inode.mem_pointers.mp h).1 rfl
    rw [F.bits, decide_eq_true this, hB.block0]
    rfl
  owned := by
    refine hB.owned.release (K := fun x => x.1 = f) ?_ ?_ ?_
    · exact fun x hx => FsState.blockRef_congr (F.inode_ne hx)
    · rintro x rfl
      exact if_neg fun e => (F.live_iff.mp e.1).2 rfl
    · intro b
      have hmem : b ∈ (s.inodeTable f).pointers ↔ ∃ x : UInt32 × Fin 12, x.1 = f ∧
          s.blockRef x = some b := by
        rw [Inode.mem_pointers]
        constructor
        · rintro ⟨h0, k, hk⟩
          exact ⟨(f, k), rfl, FsState.blockRef_eq_some.mpr ⟨F.file.live, hk, h0⟩⟩
        · rintro ⟨⟨_, k⟩, rfl, hx⟩
          obtain ⟨_, hk, h0⟩ := FsState.blockRef_eq_some.mp hx
          exact ⟨h0, k, hk⟩
      unfold FsState.BlockUsed
      rw [← hmem, F.bits, Bool.and_eq_true, decide_eq_true_eq]
      tauto

end Freed

/-! ## What a deletion does -/

/-- The file `f`, entry `c` in slot `j` of directory `p`, has been deleted. -/
structure Removed (s s' : FsState) (f p : UInt32) (c : List UInt8) (j : Fin 15) : Prop where
  file : s.IsFile f
  parentDir : s.UsableDir p
  slot : s.slots p j = some (c, f)
  table : s'.inodeTable = Function.update s.inodeTable f
    ⟨inodeTypeFree, 0, fun _ => 0, (s.inodeTable f).parentInode⟩
  bits : ∀ b, s'.bit b = (decide (b ∉ (s.inodeTable f).pointers) && s.bit b)
  superblock : s'.superblock = { s.superblock with
    freeInodes := s.superblock.freeInodes + 1
    freeBlocks := s.superblock.freeBlocks + UInt32.ofNat (s.inodeTable f).pointers.length }
  kept : ∀ b, b ≠ (s.inodeTable p).blocks 0 → s'.data b = s.data b
  unlinked : s'.slots p = Function.update (s.slots p) j none
  storedTable : s'.storedTable = s'.tableObject
  storedBitmap : s'.storedBitmap = s'.bitmapObject
  storedSuperblock : s'.storedSuperblock = s.storedSuperblock
  faults : s'.disk.faults = s.disk.faults

theorem slots_last_none (s : FsState) (d : UInt32) : s.slots d 14 = none := slots_last _

theorem slots_update_last (s : FsState) (d : UInt32) (j : Fin 15) :
    Function.update (Function.update (s.slots d) j none) 14 none =
      Function.update (s.slots d) j none := by
  refine Function.update_eq_self_iff.mpr ?_
  by_cases h14 : 14 = j
  · rw [h14, Function.update_self]
  · rw [Function.update_of_ne h14, slots_last_none]

theorem fsDeleteFile_fails {s : FsState} (hI : Inv s) {path : List UInt8}
    (h : ∀ f, s.resolve (comps path) = some f → ¬ s.IsFile f) : fsDeleteFile path s = (-1, s) := by
  have hs := hI.perfect
  unfold fsDeleteFile
  have hparent : ∃ q, findInodeByPath (splitPath path).1 s = (q, s) := by
    rw [findInodeByPath_eq hs]; exact ⟨_, rfl⟩
  obtain ⟨q, hq⟩ := hparent
  refine (FsM.bind_eq hq _).trans ?_
  by_cases hqn : q = noNumber
  · rw [if_pos hqn]; rfl
  rw [if_neg hqn, FsM.bind_eq (findInodeByPath_eq hs path)]
  cases hr : s.resolve (comps path) with
  | none => rw [Option.getD_none, if_pos rfl]; rfl
  | some f =>
    have hlive := hI.resolve_live hr
    have hnot : (s.inodeTable f).type ≠ inodeTypeFile := fun e => h f hr ⟨hlive.1, e⟩
    rw [Option.getD_some, if_neg (hI.resolve_ne_noNumber hr), FsM.bind_gets, if_pos hnot]
    rfl

/-- `fs_delete_file` frees the file's inode and blocks, and then drops its entry. -/
theorem fsDeleteFile_found {s : FsState} (hI : Inv s) {path : List UInt8}
    {ds : List (List UInt8)} {c : List UInt8} {p f : UInt32} (hpath : comps path = ds ++ [c])
    (hp : s.resolve ds = some p) (hf : s.lookup p c = some f) (hfile : s.IsFile f)
    {s1 : FsState} (hs1 : freeInode f s = s1) (hp1 : s1.inodeTable p = s.inodeTable p)
    (hdisk1 : s1.disk = s.disk) : fsDeleteFile path s = (0, syncBlockBitmap (syncInodeTable
      (writeInodeBlock ((s.inodeTable p).blocks 0)
        (sectorOfDir (removeEntry (s.dirBlock p) f)) s1))) := by
  have hs := hI.perfect
  have hres : s.resolve (comps path) = some f := by
    rw [hpath, resolve_concat, hp]
    exact hf
  have hdir1 : s1.dirBlock p = s.dirBlock p := by
    unfold FsState.dirBlock FsState.data
    rw [hp1, hdisk1]
  unfold fsDeleteFile
  rw [splitPath_concat hpath]
  refine (FsM.bind_eq (findInodeByPath_parent hs hpath) _).trans ?_
  rw [hp, Option.getD_some, if_neg (hI.resolve_ne_noNumber hp),
    FsM.bind_eq (findInodeByPath_eq hs path), hres, Option.getD_some,
    if_neg (hI.resolve_ne_noNumber hres), FsM.bind_gets, if_neg (not_not.mpr hfile.2),
    FsM.bind_modify, hs1, FsM.bind_gets, FsM.bind_eq (readDirBlock_eq (s := s1) (by
      rw [hdisk1]; exact hs) p), hdir1]
  simp only [FsM.bind_modify]
  rw [hp1]
  rfl

theorem removeEntry_eq {s : FsState} (hI : Inv s) {p f : UInt32} {c : List UInt8} {j : Fin 15}
    (hp : s.UsableDir p) (hf : s.IsFile f) (hj : s.slots p j = some (c, f)) :
    removeEntry (s.dirBlock p) f =
      Function.update (s.dirBlock p) j ⟨CArray.zero, (s.dirBlock p j).inode, 0⟩ := by
  have hfirst : firstSlot (s.dirBlock p) (fun e => e.inUse = 1 ∧ e.inode = f) = some j := by
    refine first_eq_some_iff.mpr ⟨?_, fun k hk => ?_⟩
    · obtain ⟨hu, _, hi⟩ := slotsOf_eq_some.mp hj
      exact decide_eq_true ⟨hu, hi⟩
    · refine decide_eq_false fun hk' => ?_
      have hslot : s.slots p k = some ((s.dirBlock p k).name.cstr, f) :=
        slotsOf_eq_some.mpr ⟨hk'.1, rfl, hk'.2⟩
      exact ne_of_lt hk (hI.slot_file_unique hp hp hf hslot hj).2
  unfold removeEntry
  rw [hfirst]

theorem fsDeleteFile_removes {s : FsState} (hI : Inv s) {path : List UInt8}
    {ds : List (List UInt8)} {c : List UInt8} {p f : UInt32} (hpath : comps path = ds ++ [c])
    (hp : s.resolve ds = some p) (hf : s.lookup p c = some f) (hfile : s.IsFile f) :
    ∃ s' j, fsDeleteFile path s = (0, s') ∧ Removed s s' f p c j := by
  obtain ⟨_, hpu, hfind⟩ := Inv.lookup_some hf
  obtain ⟨j, hj⟩ := exists_slot_of_find hfind
  have hpf : p ≠ f := fun e => hfile.not_isDir (e ▸ hpu.isDir)
  let s1 := freeInode f s
  have hs1 : s1 = _ := freeInode_eq hfile.1 (hI.blocks.blocks_lt hfile.live)
  have hp1 : s1.inodeTable p = s.inodeTable p := by
    rw [hs1]; exact Function.update_of_ne hpf _ _
  have hdisk1 : s1.disk = s.disk := by rw [hs1]
  let sec := sectorOfDir (removeEntry (s.dirBlock p) f)
  let s2 := writeInodeBlock ((s.inodeTable p).blocks 0) sec s1
  have hrun : fsDeleteFile path s = (0, syncBlockBitmap (syncInodeTable s2)) :=
    fsDeleteFile_found hI hpath hp hf hfile rfl hp1 hdisk1
  refine ⟨_, j, hrun, ?_⟩
  have hused := (hI.blockUsed hpu.isDir.live hpu.2.2.1).2
  have htable : (syncBlockBitmap (syncInodeTable s2)).inodeTable = s1.inodeTable := by simp [s2]
  have hu2 : (syncBlockBitmap (syncInodeTable s2)).UsableDir p := by
    unfold FsState.UsableDir
    rw [htable, hp1]
    exact hpu
  exact {
    file := hfile
    parentDir := hpu
    slot := hj
    table := by rw [htable, hs1]
    bits := fun b => by
      have : (syncBlockBitmap (syncInodeTable s2)).bit b = s1.bit b := by simp [FsState.bit, s2]
      rw [this, hs1]
      exact test_foldl_clear ..
    superblock := by
      have : (syncBlockBitmap (syncInodeTable s2)).superblock = s1.superblock := by simp [s2]
      rw [this, hs1]
    kept := fun b hb => by
      have : s1.data b = s.data b := by unfold FsState.data; rw [hdisk1]
      rw [syncBlockBitmap_data, syncInodeTable_data, writeInodeBlock_data, if_neg fun e => hb e.2,
        this]
    unlinked := by
      rw [hu2.slots_eq, htable, hp1, syncBlockBitmap_data, syncInodeTable_data,
        writeInodeBlock_data, if_pos ⟨hpu.2.2, rfl⟩, slots_sectorOfDir,
        removeEntry_eq hI hpu hfile hj, slots_update_unused _ _ (show (0 : UInt8) ≠ 1 by decide)]
      exact slots_update_last s p j
    storedTable := by
      rw [syncBlockBitmap_storedTable, syncInodeTable_storedTable]
      exact tableObject_congr (by simp)
    storedBitmap := by
      rw [syncBlockBitmap_storedBitmap]
      exact bitmapObject_congr (by simp)
    storedSuperblock := by
      rw [syncBlockBitmap_storedSuperblock, syncInodeTable_storedSuperblock]
      refine storedSuperblock_congr ((writeInodeBlock_meta _ _ _ (by decide)).trans ?_)
      rw [hdisk1]
    faults := by
      have : s2.disk.faults = s.disk.faults := by simp [s2, hdisk1]
      simpa using this }

/-! ## The invariant -/

/-- **`fs_delete_file`** fails, or deletes the file that its path leads to. -/
theorem fsDeleteFile_cases {s : FsState} (hI : Inv s) (path : List UInt8) :
    fsDeleteFile path s = (-1, s) ∨ ∃ s' f p c j, fsDeleteFile path s = (0, s') ∧
      s.resolve (comps path) = some f ∧ Removed s s' f p c j := by
  by_cases h : ∃ f, s.resolve (comps path) = some f ∧ s.IsFile f
  · obtain ⟨f, hf, hfile⟩ := h
    rcases comps_cases path with hroot | ⟨ds, c, hpath⟩
    · rw [hroot, resolve_nil, hI.shape.root] at hf
      cases hf
      exact absurd hI.shape.rootDir.1 hfile.not_isDir
    · have hf' := hf
      rw [hpath, resolve_concat] at hf'
      obtain ⟨p, hp, hl⟩ := Option.bind_eq_some_iff.mp hf'
      obtain ⟨s', j, hrun, R⟩ := fsDeleteFile_removes hI hpath hp hl hfile
      exact .inr ⟨s', f, p, c, j, hrun, hf, R⟩
  · exact .inl (fsDeleteFile_fails hI fun f hf hfile => h ⟨f, hf, hfile⟩)

namespace Removed

variable {s s' : FsState} {f p : UInt32} {c : List UInt8} {j : Fin 15}

section Inodes

variable (R : Removed s s' f p c j)
include R

theorem freed : Freed s s' f := ⟨R.file, R.table, R.bits⟩

theorem inode_ne {i : UInt32} (hi : i ≠ f) : s'.inodeTable i = s.inodeTable i := R.freed.inode_ne hi

theorem live_iff {i : UInt32} : s'.Live i ↔ s.Live i ∧ i ≠ f := R.freed.live_iff

theorem isFile_iff {i : UInt32} : s'.IsFile i ↔ s.IsFile i ∧ i ≠ f := R.freed.isFile_iff

theorem ne_of_isDir {i : UInt32} (hi : s.IsDir i) : i ≠ f := R.freed.ne_of_isDir hi

theorem isDir_iff {i : UInt32} : s'.IsDir i ↔ s.IsDir i := R.freed.isDir_iff

theorem usable_iff {d : UInt32} : s'.UsableDir d ↔ s.UsableDir d := R.freed.usable_iff

theorem rooted {i : UInt32} (hi : s.Rooted i) (hif : i ≠ f) : s'.Rooted i := by
  induction hi with
  | root => exact .root
  | child hd _ ih =>
    have hp := R.inode_ne hif
    refine .child (by rw [hp]; exact R.isDir_iff.mpr hd) ?_
    rw [hp]
    exact ih (R.ne_of_isDir hd)

end Inodes

variable (hI : Inv s) (R : Removed s s' f p c j)
include hI R

theorem slots_ne {d : UInt32} (hd : s.UsableDir d) (hdp : d ≠ p) : s'.slots d = s.slots d := by
  have hne : (s.inodeTable d).blocks 0 ≠ (s.inodeTable p).blocks 0 := fun e =>
    hdp (hI.block_inj hd.isDir.live R.parentDir.isDir.live hd.2.2.1 e).1
  rw [(R.usable_iff.mpr hd).slots_eq, hd.slots_eq, R.inode_ne (R.ne_of_isDir hd.isDir),
    R.kept _ hne]

theorem slot_iff {d : UInt32} (hd : s.UsableDir d) {k : Fin 15} {x : List UInt8 × UInt32} :
    s'.slots d k = some x ↔ s.slots d k = some x ∧ ¬ (d = p ∧ k = j) := by
  by_cases hdp : d = p
  · subst hdp
    rw [R.unlinked]
    by_cases hk : k = j
    · simp [hk]
    · simp [hk]
  · rw [R.slots_ne hI hd hdp]
    simp [hdp]

theorem ne_of_slot {d : UInt32} (hd : s.UsableDir d) {k : Fin 15} {c' : List UInt8} {e : UInt32}
    (h : s'.slots d k = some (c', e)) : e ≠ f := by
  rintro rfl
  obtain ⟨h, hne⟩ := (R.slot_iff hI hd).mp h
  exact hne (hI.slot_file_unique hd R.parentDir R.file h R.slot)

theorem blocks : Blocks s' := R.freed.blocks hI.blocks

theorem shape : Shape s' where
  root := by rw [R.superblock]; exact hI.shape.root
  types i hi := by
    obtain ⟨hi, hif⟩ := R.live_iff.mp hi
    rw [R.isFile_iff, R.isDir_iff]
    exact (hI.shape.types i hi).imp (⟨·, hif⟩) id
  rootDir := by
    have hd := hI.shape.rootDir.1
    rw [R.isDir_iff, R.inode_ne (R.ne_of_isDir hd)]
    exact hI.shape.rootDir
  bin := by
    have hd := hI.shape.bin.1
    rw [R.isDir_iff, R.inode_ne (R.ne_of_isDir hd)]
    exact hI.shape.bin
  dirs d hd h1 := by
    have hd := R.isDir_iff.mp hd
    rw [R.inode_ne (R.ne_of_isDir hd)]
    exact hI.shape.dirs d hd h1
  parents i hi := by
    obtain ⟨hi, hif⟩ := R.live_iff.mp hi
    rw [R.inode_ne hif, R.isDir_iff]
    exact hI.shape.parents i hi
  rooted i hi := by
    obtain ⟨hi, hif⟩ := R.live_iff.mp hi
    exact R.rooted (hI.shape.rooted i hi) hif

theorem entriesOf {d : UInt32} (hd : s.UsableDir d) : EntriesOf s' d := by
  have hE := hI.entries d hd
  have h2 : 2 ≤ j := hI.two_le_slot R.parentDir R.slot R.file
  have hkeep : ∀ (k : Fin 15) c' e, s.slots d k = some (c', e) → s.IsDir e →
      s'.slots d k = some (c', e) := by
    intro k c' e h he
    refine (R.slot_iff hI hd).mpr ⟨h, ?_⟩
    rintro ⟨rfl, rfl⟩
    rw [R.slot] at h
    cases h
    exact R.file.not_isDir he
  refine ⟨hkeep 0 _ _ hE.dot hd.isDir, ?_, ?_, ?_, ?_⟩
  · rw [R.inode_ne (R.ne_of_isDir hd.isDir)]
    exact hkeep 1 _ _ hE.dotdot (hI.shape.parents d hd.isDir.live)
  · intro k c' e hk h
    have hef := R.ne_of_slot hI hd h
    obtain ⟨hc, he, h0, hp⟩ := hE.entry k c' e hk ((R.slot_iff hI hd).mp h).1
    exact ⟨hc, R.live_iff.mpr ⟨he, hef⟩, h0, by rw [R.inode_ne hef]; exact hp⟩
  · intro k l a b e hk hl h1 h2
    exact hE.distinct k l a b e hk hl ((R.slot_iff hI hd).mp h1).1 ((R.slot_iff hI hd).mp h2).1
  · intro k l a e e' hkl he he' h1 h2
    obtain ⟨m, hm, x, hx, hxd⟩ := hE.order k l a e e' hkl (R.isFile_iff.mp he).1
      (R.isFile_iff.mp he').1 ((R.slot_iff hI hd).mp h1).1 ((R.slot_iff hI hd).mp h2).1
    exact ⟨m, hm, x, hkeep m a x hx hxd, R.isDir_iff.mpr hxd⟩

/-- **A deletion keeps the invariant.** -/
theorem inv : Inv s' where
  perfect := R.faults.trans hI.perfect
  blocks := R.blocks hI
  shape := R.shape hI
  entries d hd := R.entriesOf hI (R.usable_iff.mp hd)
  files i hi := by
    obtain ⟨hi, hif⟩ := R.isFile_iff.mp hi
    rw [R.inode_ne hif]; exact hI.files i hi

end Removed

end EphemeralOS
