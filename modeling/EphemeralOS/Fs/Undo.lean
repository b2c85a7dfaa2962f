import EphemeralOS.Fs.Reboot
import EphemeralOS.Fs.Visible
import EphemeralOS.Fs.Files

/-!
# Undoing a creation

A creation that fails leaves nothing behind (`failed_creation_undone`). A
deletion takes back what `fs_create_file` made, slot by slot
(`delete_undoes_create_iff`), unless the entry went to the last slot of the
directory, which the disk does not keep: then the file cannot be deleted.
-/

namespace EphemeralOS

open Path Directory Run

/-- As it was before, to any operation, counters and directories included. -/
structure Undone (s s' : FsState) : Prop extends SameFileSystem s s' where
  freeBlocks : s'.superblock.freeBlocks = s.superblock.freeBlocks
  freeInodes : s'.superblock.freeInodes = s.superblock.freeInodes
  dirBlock : ∀ d, s.UsableDir d → s'.dirBlock d = s.dirBlock d

theorem Same.undone {s s' : FsState} (hI : Inv s) (h : Same s s') : Undone s s' where
  toSameFileSystem := h.agree.sameFileSystem hI
  freeBlocks := by rw [h.superblock]
  freeInodes := by rw [h.superblock]
  dirBlock _ hd := h.agree.dirBlock hI.blocks hd

/-- A path that leads nowhere although its parent path leads somewhere. -/
theorem Inv.missing_child {s : FsState} (hI : Inv s) {path : List UInt8}
    (hnone : (findInodeByPath path s).1 = noNumber)
    (hparent : (findInodeByPath (splitPath path).1 s).1 ≠ noNumber) :
    ∃ ds c p, comps path = ds ++ [c] ∧ (splitPath path).2 = c ∧
      (findInodeByPath (splitPath path).1 s).1 = p ∧ s.resolve ds = some p ∧
      s.resolve (ds ++ [c]) = none := by
  have hres : s.resolve (comps path) = none := by
    rw [findInodeByPath_eq hI.perfect] at hnone
    cases h : s.resolve (comps path) with
    | none => rfl
    | some i =>
      rw [h] at hnone
      exact absurd hnone (hI.resolve_ne_noNumber h)
  rcases comps_cases path with hroot | ⟨ds, c, hpath⟩
  · rw [hroot] at hres
    cases hres
  · rw [splitPath_concat hpath, findInodeByPath_parent hI.perfect hpath] at hparent ⊢
    cases hp : s.resolve ds with
    | none =>
      rw [hp] at hparent
      exact absurd rfl hparent
    | some p => exact ⟨ds, c, p, hpath, rfl, rfl, hp, hpath ▸ hres⟩

/-- When `fs_create_file` on a new path fails. -/
def Refused (s : FsState) (path : List UInt8) (size : UInt32) : Prop :=
  fsMaxFileSize < size ∨ fsMaxFilename ≤ (splitPath path).2.length ∨
    NoRoom s (blocksNeeded size).toNat

section Failures

variable {s s' : FsState} (hI : Inv s) {path : List UInt8} (h0 : ∀ a ∈ comps path, 0 ∉ a)
  {ds : List (List UInt8)} {c : List UInt8} {p : UInt32} (hpath : comps path = ds ++ [c])
  (hp : s.resolve ds = some p) (hnone : s.resolve (ds ++ [c]) = none)
include hI h0 hpath hp hnone

theorem fsCreateDir_failed (h : fsCreateDir path s = (-1, s')) : Same s s' := by
  by_cases hlong : fsMaxFilename ≤ c.length
  · obtain ⟨r, q, s1, hrun, M, -⟩ := fsCreateDir_mkdirs hI h0
    cases hrun.symm.trans h
    rw [hpath] at M
    generalize hcs : ds ++ [c] = cs at M hnone
    cases M with
    | found hfound => exact absurd (hnone.symm.trans hfound) (by simp)
    | rejected => exact Same.refl _
    | orphaned _ _ hname | refused _ hname | made _ hname =>
      obtain ⟨-, hc⟩ := List.append_inj' hcs rfl
      cases hc
      exact absurd hname.short (Nat.not_lt.mpr hlong)
  · have hl : s.lookup p c = none := by
      rw [resolve_concat, hp] at hnone
      exact hnone
    rw [fsCreateDir_at hI hpath (Nat.not_le.mp hlong) hp hl] at h
    rcases makeDir_cases (hI.ready (hI.resolve_live hp)) c with
      ⟨s1, hrun, hsame, -⟩ | ⟨-, s1, n, b, i, hrun, -⟩
    · cases hrun.symm.trans h
      exact hsame
    · cases hrun.symm.trans h

theorem fsCreateFile_new (data : Memory) (size : UInt32) :
    (∃ s1, fsCreateFile path data size s = (-1, s1) ∧ Same s s1 ∧
      (¬ s.IsDir p ∨ Refused s path size)) ∨
    ∃ s1 n bs i, fsCreateFile path data size s = (0, s1) ∧ ¬ Refused s path size ∧
      Linked s s1 n p c (fileInode p size bs) bs i := by
  have hname : (splitPath path).2 = c := by rw [splitPath_concat hpath]
  unfold Refused
  rw [hname]
  rcases fsCreateFile_cases hI h0 data size with
    ⟨hrun, hwhy⟩ | ⟨ds', c', q, s1, hpath', hc, hsize, M, -, h⟩
  · exact .inl ⟨s, hrun, Same.refl s, .inr (hwhy.imp id fun h => .inl (h ds c hpath))⟩
  obtain ⟨rfl, hcc⟩ := List.append_inj' (hpath.symm.trans hpath') rfl
  cases hcc
  obtain ⟨rfl, rfl⟩ := M.of_resolve hp
  rcases h with ⟨hq, -⟩ | ⟨p', hq, hrun⟩
  · cases hq
  cases hq
  rcases replaceFile_cases hI hpath hc hp data hsize with
    ⟨hn, hrun'⟩ | ⟨-, s2, r, s3, C, M, hrun'⟩
  · exact .inl ⟨_, hrun.trans hrun', Same.refl _, .inl hn⟩
  cases C with
  | deleted hf =>
    rw [resolve_concat, hp, Option.bind_some, hf] at hnone
    cases hnone
  | kept =>
    rcases M.result_iff with ⟨rfl, hroom⟩ | ⟨rfl, hroom⟩
    · cases M with
      | made M L =>
        refine .inr ⟨s3, _, _, _, hrun.trans hrun', ?_, L⟩
        rintro (h | h | h)
        · exact absurd hsize (UInt32.not_le.mpr h)
        · exact absurd hc.short (Nat.not_lt.mpr h)
        · exact hroom h
    · cases M with
      | failed hsame _ => exact .inl ⟨s3, hrun.trans hrun', hsame, .inr (.inr (.inr hroom))⟩

theorem fsCreateFile_failed {data : Memory} {size : UInt32}
    (h : fsCreateFile path data size s = (-1, s')) : Same s s' := by
  rcases fsCreateFile_new hI h0 hpath hp hnone data size with
    ⟨s1, hrun, hsame, -⟩ | ⟨s1, n, bs, i, hrun, -⟩
  · cases hrun.symm.trans h
    exact hsame
  · cases hrun.symm.trans h

end Failures

/-- **A failed creation leaves everything as it was.** -/
theorem failed_creation_undone {s : FsState} (h : Reachable s) {path : CStr}
    (hnone : (findInodeByPath path s).1 = noNumber)
    (hparent : (findInodeByPath (splitPath path).1 s).1 ≠ noNumber) :
    ((fsCreateDir path s).1 = -1 → Undone s (fsCreateDir path s).2) ∧
    ∀ data size, (fsCreateFile path data size s).1 = -1 →
      Undone s (fsCreateFile path data size s).2 := by
  have hI := (Reachable.sound h).inv
  obtain ⟨ds, c, p, hpath, -, -, hp, hres⟩ := hI.missing_child hnone hparent
  refine ⟨fun hr => ?_, fun data size hr => ?_⟩
  · exact (fsCreateDir_failed hI path.comps_noNul hpath hp hres (Prod.ext hr rfl)).undone hI
  · exact (fsCreateFile_failed hI path.comps_noNul hpath hp hres (Prod.ext hr rfl)).undone hI

/-- With eleven blocks left, a file of twelve gives back the eleven it took. -/
theorem binLeak_failure_undone : ∃ s, s.clearBlocks.card = 11 ∧
    (fsCreateFile binPath sampleData 6144 s).1 = -1 ∧
    Undone s (fsCreateFile binPath sampleData 6144 s).2 := by
  obtain ⟨s, h⟩ := binLeak 41 (Nat.le_refl _)
  have hb := h.blocks
  have hI := (Reachable.sound h.reachable).inv
  have hpath : comps binPath = ([] ++ [ascii "bin"]) ++ [ascii "x"] := by decide +kernel
  have hp : s.resolve ([] ++ [ascii "bin"]) = some 1 := by
    rw [resolve_concat, resolve_nil, hI.shape.root, Option.bind_some, h.bin]
  have hnone : s.lookup 1 (ascii "x") = none := by
    unfold FsState.lookup
    rw [if_neg fun hx => hI.not_usable_bin hx.2]
  have hfailed : (fsCreateFile binPath sampleData 6144 s).1 = -1 := by
    obtain ⟨s1, r, s', C, M, hrun⟩ :=
      fsCreateFile_at hI binPath.comps_noNul hpath (by decide +kernel)
      hp hI.shape.bin.1 sampleData (show (6144 : UInt32) ≤ fsMaxFileSize by decide)
    rw [hrun]
    cases C with
    | deleted hf => exact absurd (hnone.symm.trans hf) (by simp)
    | kept =>
      refine (M.result_iff.resolve_left fun h' => h'.2 (.inr ?_)).1
      rw [show (blocksNeeded 6144).toNat = 12 by decide +kernel]
      omega
  have hfind : (findInodeByPath binPath s).1 = noNumber := by
    rw [hI.findInodeByPath_concat hpath hp, hnone]
    rfl
  have hparent : (findInodeByPath (splitPath binPath).1 s).1 ≠ noNumber := by
    rw [splitPath_concat hpath, findInodeByPath_parent hI.perfect hpath, hp]
    exact hI.resolve_ne_noNumber hp
  exact ⟨s, by omega, hfailed,
    (failed_creation_undone h.reachable hfind hparent).2 sampleData 6144 hfailed⟩

/-! ## Deletions -/

/-- The same resources are free, the same inodes live, and each directory has the same entries. -/
structure Restored (s s' : FsState) : Prop where
  bits : ∀ b, s'.bit b = s.bit b
  superblock : s'.superblock = s.superblock
  free : ∀ i, (s'.inodeTable i).type = inodeTypeFree ↔ (s.inodeTable i).type = inodeTypeFree
  live : ∀ i, s.Live i → s'.inodeTable i = s.inodeTable i
  slots : ∀ d, s.UsableDir d → s'.slots d = s.slots d

namespace Restored

theorem refl (s : FsState) : Restored s s :=
  ⟨fun _ => rfl, rfl, fun _ => Iff.rfl, fun _ _ => rfl, fun _ _ => rfl⟩

variable {s s' s'' : FsState} (h : Restored s s')
include h

theorem live_iff {i : UInt32} : s'.Live i ↔ s.Live i :=
  and_congr_right fun _ => not_congr (h.free i)

theorem usable_iff {d : UInt32} : s'.UsableDir d ↔ s.UsableDir d := by
  refine ⟨fun hd => ?_, fun hd => ?_⟩
  · have := h.live d (h.live_iff.mp hd.isDir.live)
    unfold FsState.UsableDir at hd ⊢
    rwa [this] at hd
  · unfold FsState.UsableDir
    rwa [h.live d hd.isDir.live]

theorem trans (h' : Restored s' s'') : Restored s s'' where
  bits b := (h'.bits b).trans (h.bits b)
  superblock := h'.superblock.trans h.superblock
  free i := (h'.free i).trans (h.free i)
  live i hi := (h'.live i (h.live_iff.mpr hi)).trans (h.live i hi)
  slots d hd := (h'.slots d (h.usable_iff.mpr hd)).trans (h.slots d hd)

theorem lookup (hI : Inv s) (hI' : Inv s') (d : UInt32) (c : List UInt8) :
    s'.lookup d c = s.lookup d c := by
  by_cases hd : c.length < fsMaxFilename ∧ s.UsableDir d
  · rw [hI'.lookup_eq (h.usable_iff.mpr hd.2) hd.1, hI.lookup_eq hd.2 hd.1, h.slots d hd.2]
  · unfold FsState.lookup
    rw [if_neg hd, if_neg fun hd' => hd ⟨hd'.1, h.usable_iff.mp hd'.2⟩]

theorem findInodeByPath_eq (hI : Inv s) (hI' : Inv s') (path : List UInt8) :
    (findInodeByPath path s').1 = (findInodeByPath path s).1 := by
  have hlookup : s'.lookup = s.lookup := funext fun d => funext fun c => h.lookup hI hI' d c
  rw [EphemeralOS.findInodeByPath_eq hI.perfect, EphemeralOS.findInodeByPath_eq hI'.perfect]
  unfold FsState.resolve
  rw [hlookup, h.superblock]

theorem noRoom_iff {k : Nat} : NoRoom s' k ↔ NoRoom s k := by
  have hfree : s'.freeNumbers = s.freeNumbers := by
    unfold FsState.freeNumbers
    simp only [h.free]
  have hclear : s'.clearBlocks = s.clearBlocks := by
    unfold FsState.clearBlocks
    simp only [h.bits]
  unfold NoRoom
  rw [hfree, hclear]

end Restored

theorem Same.restored {s s' : FsState} (hI : Inv s) (h : Same s s') : Restored s s' where
  bits := h.bits
  superblock := h.superblock
  free i := by rw [(Inode.visible_eq_iff.mp (h.table i)).1]
  live _ hi := h.agree.inode hi
  slots _ hd := h.agree.slots hI hd

/-- **Deleting the file just made puts everything back.** -/
theorem Removed.restores {s s1 s2 : FsState} {n p q : UInt32} {c c' : List UInt8} {v : Inode}
    {bs : List UInt32} {i j : Fin 15} (hI : Inv s) (L : Linked s s1 n p c v bs i)
    (hv : v.type = inodeTypeFile) (R : Removed s1 s2 n q c' j) : Restored s s2 := by
  have hI1 := L.inv hI
  have hdead : ¬ s.Live n := fun h => h.2 L.free
  have hq : s.UsableDir q := by
    rcases L.usable_iff.mp R.parentDir with ⟨-, h⟩ | h
    · rw [hv] at h
      exact absurd h (by decide)
    · exact h
  -- the entry deleted is the one made
  obtain ⟨rfl, rfl⟩ : q = p ∧ j = i := by
    rcases L.slot_cases hI hq R.slot with h | ⟨h1, h2, -⟩
    · exact absurd (hI.slot_live hq h) hdead
    · exact ⟨h1, h2⟩
  have hptr : (s1.inodeTable n).pointers = bs := by rw [L.inode, L.pointers_eq]
  have hlive : ∀ k, k ≠ n → s2.inodeTable k = s.inodeTable k := fun k hk => by
    rw [R.inode_ne hk, L.inode_ne hk]
  refine ⟨fun b => ?_, ?_, fun k => ?_, fun k hk => hlive k fun e => hdead (e ▸ hk), fun d hd => ?_⟩
  · rw [R.bits, hptr, L.bits]
    by_cases hb : b ∈ bs
    · simp [hb, (L.fresh b hb).2]
    · simp [hb]
  · rw [R.superblock, L.superblock, hptr]
    simp
  · by_cases hk : k = n
    · subst hk
      exact iff_of_true (by rw [R.freed.inode]) L.free
    · rw [hlive k hk]
  · by_cases hdp : d = q
    · subst hdp
      rw [R.unlinked, L.slots_parent hd]
      funext k
      by_cases hk : k = j
      · rw [hk, Function.update_self, L.empty]
      rw [Function.update_of_ne hk]
      by_cases hk14 : k = 14
      · rw [hk14, Function.update_self, slots_last_none]
      · rw [Function.update_of_ne hk14, Function.update_of_ne hk]
    · rw [R.slots_ne hI1 (L.usable_iff.mpr (.inr hd)) hdp, L.slots_ne hI hd hdp]

/-- `fs_delete_file` gives back what `fs_create_file` has taken. -/
def DeleteUndoes (path : CStr) (data : Memory) (size : UInt32) (s : FsState) : Prop :=
  (fsCreateFile path data size s).1 = 0 →
    (fsDeleteFile path (fsCreateFile path data size s).2).1 = 0 ∧
      Restored s (fsDeleteFile path (fsCreateFile path data size s).2).2

/-- `fs_create_file`, then `fs_delete_file`. -/
def createDelete (path : CStr) (data : Memory) (size : UInt32) (s : FsState) : FsState :=
  (FsOp.deleteFile path).step ((FsOp.createFile path data size).step s)

theorem createDelete_eq (path : CStr) (data : Memory) (size : UInt32) (s : FsState) :
    createDelete path data size s =
      (fsDeleteFile path (fsCreateFile path data size s).2).2 := rfl

section New

variable {s : FsState} (hI : Inv s) {path : CStr} {ds : List (List UInt8)} {c : List UInt8}
  {p : UInt32} (hpath : comps path = ds ++ [c]) (hp : s.resolve ds = some p)
  (hnone : s.resolve (ds ++ [c]) = none)
include hI hpath hp hnone

/-- When a deletion undoes the creation; it leaves nothing behind if that failed. -/
theorem deleteUndoes_iff (hu : s.UsableDir p) (data : Memory) (size : UInt32) :
    (DeleteUndoes path data size s ↔
      (∃ j, j ≠ 14 ∧ s.slots p j = none) ∨ Refused s path size) ∧
    ((∃ j, j ≠ 14 ∧ s.slots p j = none) ∨ Refused s path size →
      Restored s (createDelete path data size s)) := by
  have hl : s.lookup p c = none := by
    rw [resolve_concat, hp] at hnone
    exact hnone
  rw [createDelete_eq, DeleteUndoes]
  rcases fsCreateFile_new hI path.comps_noNul hpath hp hnone data size with
    ⟨s1, hrun, hsame, hwhy⟩ | ⟨s1, n, bs, i, hrun, hroom, L⟩
  · rw [hrun]
    refine ⟨iff_of_true (fun h => by cases h)
      (.inr (hwhy.resolve_left fun hn => hn hu.isDir)), fun _ => ?_⟩
    have hI1 := hsame.agree.inv hI
    rw [fsDeleteFile_fails hI1 fun f hf => by
      rw [hsame.agree.resolve hI, hpath, hnone] at hf
      cases hf]
    exact hsame.restored hI
  · rw [hrun]
    have hI1 := L.inv hI
    have hv : (fileInode p size bs).type = inodeTypeFile := rfl
    by_cases hi : i = 14
    · -- the entry is lost, and with it the file
      have hcond : ¬ ((∃ j, j ≠ 14 ∧ s.slots p j = none) ∨ Refused s path size) := by
        rintro (⟨j, hj, hjn⟩ | h)
        · have := L.slot_le hjn
          omega
        · exact hroom h
      refine ⟨iff_of_false (fun h => ?_) hcond, fun h => absurd h hcond⟩
      have hdel := (h rfl).1
      rw [fsDeleteFile_fails hI1 fun f hf => by
        rw [hpath, L.resolve_lost hI hp (fun _ => hi) hl] at hf
        cases hf] at hdel
      cases hdel
    · have hnew : s1.lookup p c = some n :=
        L.lookup_new hI hu hi fun j _ => L.not_slot_of_free hI hu hl j
      obtain ⟨s2, j, hdel, R⟩ := fsDeleteFile_removes hI1 hpath (L.resolve_old hI hl hp) hnew
        (L.isFile_iff.mpr (.inl ⟨rfl, hv⟩))
      have hrestored := Removed.restores hI L hv R
      rw [hdel]
      exact ⟨iff_of_true (fun _ => ⟨rfl, hrestored⟩) (.inl ⟨i, hi, L.empty⟩), fun _ => hrestored⟩

end New

theorem createDelete_reachable {s : FsState} (h : Reachable s) (path : CStr) (data : Memory)
    (size : UInt32) : Reachable (createDelete path data size s) := by
  have hcreated : Reachable ((FsOp.createFile path data size).step s) := h.next trivial
  unfold createDelete
  exact hcreated.next trivial

namespace Restored

variable {s t : FsState} (h : Restored s t) (hI : Inv s) (hI' : Inv t) (path : CStr)
include h hI hI'

theorem slotFor_iff (hparent : s.UsableDir (findInodeByPath (splitPath path).1 s).1) :
    SlotFor t path ↔ SlotFor s path := by
  unfold SlotFor
  rw [h.findInodeByPath_eq hI hI', h.slots _ hparent]

omit hI hI' in
theorem refused_iff {size : UInt32} : Refused t path size ↔ Refused s path size := by
  unfold Refused
  rw [h.noRoom_iff]

end Restored

theorem Inv.deleteUndoes_iff {s : FsState} (hI : Inv s) {path : CStr}
    (hnone : (findInodeByPath path s).1 = noNumber)
    (hparent : s.UsableDir (findInodeByPath (splitPath path).1 s).1) (data : Memory)
    (size : UInt32) :
    (DeleteUndoes path data size s ↔ SlotFor s path ∨ Refused s path size) ∧
      (SlotFor s path ∨ Refused s path size → Restored s (createDelete path data size s)) := by
  obtain ⟨ds, c, p, hpath, -, hpp, hp, hres⟩ :=
    hI.missing_child hnone (ne_noNumber_of_lt hparent.1)
  unfold SlotFor
  rw [hpp] at hparent ⊢
  exact EphemeralOS.deleteUndoes_iff hI hpath hp hres hparent data size

/-- **Deleting undoes creating, and cycles of the two consume nothing, just when the entry does not
go to the last slot**: there is another free slot, or the creation fails. -/
theorem delete_undoes_create_iff {s : FsState} (h : Reachable s) {path : CStr}
    (hnone : (findInodeByPath path s).1 = noNumber)
    (hparent : s.UsableDir (findInodeByPath (splitPath path).1 s).1) (data : Memory)
    (size : UInt32) :
    (DeleteUndoes path data size s ∧ ∀ k, Restored s ((createDelete path data size)^[k] s)) ↔
      SlotFor s path ∨ Refused s path size := by
  have hI := (Reachable.sound h).inv
  have hone := hI.deleteUndoes_iff hnone hparent data size
  refine ⟨fun hall => hone.1.mp hall.1, fun hcond => ⟨hone.1.mpr hcond, fun k => ?_⟩⟩
  -- by induction on the cycles: the state they leave meets the same condition
  have hrun : Reachable ((createDelete path data size)^[k] s) ∧
      Restored s ((createDelete path data size)^[k] s) := by
    induction k with
    | zero => exact ⟨h, .refl s⟩
    | succ k ih =>
      obtain ⟨hreach, hrestored⟩ := ih
      rw [Function.iterate_succ_apply']
      generalize (createDelete path data size)^[k] s = t at hreach hrestored
      have hIt := (Reachable.sound hreach).inv
      have hfind := hrestored.findInodeByPath_eq hI hIt
      have hcond' : SlotFor t path ∨ Refused t path size := by
        rw [hrestored.slotFor_iff hI hIt path hparent, hrestored.refused_iff]
        exact hcond
      have hnext := (hIt.deleteUndoes_iff ((hfind path).trans hnone)
        (by rw [hfind, hrestored.usable_iff]; exact hparent) data size).2 hcond'
      exact ⟨createDelete_reachable hreach path data size, hrestored.trans hnext⟩
  exact hrun.2

/-- A hundred files of 700 bytes come and go. -/
theorem sampleInstall_cycles : DeleteUndoes samplePath sampleData 700 sampleInstall ∧
    Restored sampleInstall ((createDelete samplePath sampleData 700)^[100] sampleInstall) := by
  have hI := sampleInstall_inv
  have hp : sampleInstall.resolve [] = some 0 := congrArg some hI.shape.root
  have hroot : (findInodeByPath (splitPath samplePath).1 sampleInstall).1 = 0 := by
    rw [splitPath_samplePath]
    exact findInodeByPath_of_resolve hI hp
  have hnone : (findInodeByPath samplePath sampleInstall).1 = noNumber := by
    rw [hI.findInodeByPath_concat comps_samplePath hp, sampleInstall_lookup_a]
    rfl
  have hslot : SlotFor sampleInstall samplePath := by
    refine ⟨7, by decide, ?_⟩
    rw [hroot, sampleInstall_slots]
    rfl
  have hboth := (delete_undoes_create_iff sampleInstall_reachable hnone (hroot ▸ hI.usable_root)
    sampleData 700).mpr (.inl hslot)
  exact ⟨hboth.1, hboth.2 100⟩

/-- The eighth file at the root cannot be deleted. -/
theorem eighth_root_file_stays : ¬ ∀ (s : FsState) (path : CStr) (data : Memory) (size : UInt32),
    Reachable s → (findInodeByPath path s).1 = noNumber →
    s.UsableDir (findInodeByPath (splitPath path).1 s).1 → DeleteUndoes path data size s := by
  intro hall
  obtain ⟨s, h⟩ :=
    sampleInstall_filled.run (ascii "bcdefgh") (by decide +kernel) (by decide +kernel)
    (by decide +kernel)
  have hI := (Reachable.sound h.reachable).inv
  have hp : s.resolve [] = some 0 := congrArg some hI.shape.root
  have hroot : (findInodeByPath (splitPath samplePath).1 s).1 = 0 := by
    rw [splitPath_samplePath]
    exact findInodeByPath_of_resolve hI hp
  have hfree : s.lookup 0 (ascii "a") = none := h.unused 97 List.mem_cons_self
  have hnone : (findInodeByPath samplePath s).1 = noNumber := by
    rw [hI.findInodeByPath_concat comps_samplePath hp, hfree]
    rfl
  have hu : s.UsableDir (findInodeByPath (splitPath samplePath).1 s).1 := hroot ▸ hI.usable_root
  rcases (hI.deleteUndoes_iff hnone hu sampleData 1).1.mp
    (hall s samplePath sampleData 1 h.reachable hnone hu) with ⟨j, hj, hjn⟩ | hlarge | hlong | hroom
  · rw [hroot] at hjn
    have := (h.used j).mp hjn
    simp only [show (ascii "bcdefgh").length = 7 by decide +kernel] at this
    omega
  · exact absurd hlarge (by decide)
  · rw [splitPath_samplePath] at hlong
    exact absurd hlong (by decide +kernel)
  · exact h.room (by decide +kernel) (by decide) hroom

end EphemeralOS
