import EphemeralOS.Fs.Names
import EphemeralOS.Fs.Visible

/-!
# Directories are permanent

No call removes a directory, but a creation may hide one: `fs_create_file` over
a directory, when a free slot comes before the directory's entry (`Hides`), and
a creation of missing parents along a path that is not `Plain`. All other calls
keep every path to a directory (`KeepsDirs`).
-/

namespace EphemeralOS

open Path Directory

/-- Every path that leads to a directory in `s` leads to it in `s'`. -/
def KeepsDirs (s s' : FsState) : Prop :=
  ∀ cs e, s.resolve cs = some e → s.IsDir e → s'.resolve cs = some e ∧ s'.IsDir e

/-- The file of `size` bytes that is made at `path` hides a directory: `path` leads to the
directory, and a free slot comes before its entry. -/
def Hides (s : FsState) (path : List UInt8) (size : UInt32) : Prop :=
  s.IsDir (findInodeByPath path s).1 ∧ (splitPath path).2 ≠ [] ∧ size ≤ fsMaxFileSize ∧
    ¬ NoRoom s (blocksNeeded size).toNat ∧ FreeSlotBefore s path

theorem Inv.isDir_find_iff {s : FsState} (hI : Inv s) {path : List UInt8} :
    s.IsDir (findInodeByPath path s).1 ↔ ∃ e, s.resolve (comps path) = some e ∧ s.IsDir e := by
  rw [findInodeByPath_eq hI.perfect]
  cases s.resolve (comps path) with
  | none => exact iff_of_false (fun h => noNumber_not_lt h.1) (by simp)
  | some e => simp

namespace KeepsDirs

theorem refl (s : FsState) : KeepsDirs s s := fun _ _ h he => ⟨h, he⟩

theorem trans {s s1 s2 : FsState} (h : KeepsDirs s s1) (h' : KeepsDirs s1 s2) : KeepsDirs s s2 :=
  fun cs e hr he => h' cs e (h cs e hr he).1 (h cs e hr he).2

end KeepsDirs

theorem Same.keepsDirs {s s' : FsState} (hI : Inv s) (h : Same s s') : KeepsDirs s s' :=
  fun _ _ hr he => ⟨by rw [h.agree.resolve hI, hr], h.agree.isDir_iff.mpr he⟩

theorem Linked.keepsDirs {s s' : FsState} {n p : UInt32} {name : List UInt8} {v : Inode}
    {bs : List UInt32} {i : Fin 15} (hI : Inv s) (L : Linked s s' n p name v bs i)
    (hfree : s.lookup p name = none) : KeepsDirs s s' :=
  fun _ _ hr he => ⟨L.resolve_old hI hfree hr, L.isDir_iff.mpr (.inr he)⟩

theorem Removed.keepsDirs {s s' : FsState} {f p : UInt32} {c : List UInt8} {j : Fin 15}
    (hI : Inv s) (R : Removed s s' f p c j) : KeepsDirs s s' :=
  fun _ _ hr he => ⟨R.resolve_dir hI hr he, R.isDir_iff.mpr he⟩

theorem Mkdirs.keepsDirs {s s' : FsState} {cs : List (List UInt8)} {q : Option UInt32}
    (hI : Inv s) (M : Mkdirs s cs q s') (hP : Plain s cs) : KeepsDirs s s' := by
  induction M with
  | found | rejected => exact .refl _
  | orphaned _ _ _ _ ih => exact ih hP.left
  | refused _ _ M hsame _ ih => exact (ih hP.left).trans (hsame.keepsDirs (M.inv hI))
  | made hnone hname M hd hmade ih =>
    exact (ih hP.left).trans
      ((hmade.isLinked hd hname).keepsDirs (M.inv hI) (M.name_free hI hP hnone))

theorem fsCreateDir_keepsDirs {s : FsState} (hI : Inv s) {path : List UInt8}
    (h0 : ∀ c ∈ comps path, 0 ∉ c) (hP : Plain s (comps path)) :
    KeepsDirs s (fsCreateDir path s).2 := by
  obtain ⟨r, q, s', hrun, M, -⟩ := fsCreateDir_mkdirs hI h0
  rw [hrun]
  exact M.keepsDirs hI hP

theorem fsDeleteFile_keepsDirs {s : FsState} (hI : Inv s) (path : List UInt8) :
    KeepsDirs s (fsDeleteFile path s).2 := by
  rcases fsDeleteFile_cases hI path with hrun | ⟨s', f, p, c, j, hrun, -, R⟩
  · rw [hrun]
    exact .refl s
  · rw [hrun]
    exact R.keepsDirs hI

/-- A file made next to a directory of its name, behind it. -/
theorem Making.keepsDirs_behind {s s' : FsState} {p e : UInt32} {c : List UInt8} {data : Memory}
    {size : UInt32} {r : Int} (hI : Inv s) (M : Making s p c data size r s')
    (hl : s.lookup p c = some e) (hbehind : ¬ NoRoom s (blocksNeeded size).toNat →
      ∀ j, s.slots p j = none → ∃ l, l < j ∧ ∃ x, s.slots p l = some (c, x)) : KeepsDirs s s' := by
  obtain ⟨-, hu, hfind⟩ := Inv.lookup_some hl
  obtain ⟨k, hk, hfirst⟩ := find_eq_some_iff.mp hfind
  rcases M.result_iff with ⟨rfl, hroom⟩ | ⟨rfl, -⟩
  · cases M with
    | made M L =>
      obtain ⟨l, hl, x, hx⟩ := hbehind hroom _ M.empty
      have hkl : k ≤ l := by
        by_contra hlk
        exact hfirst l (lt_of_not_ge hlk) x hx
      have hroot : s'.superblock.rootInode = s.superblock.rootInode := by rw [L.superblock]
      refine fun cs e hr he => ⟨?_, L.isDir_iff.mpr (.inr he)⟩
      unfold FsState.resolve at hr ⊢
      rw [L.lookup_behind hI rfl hk hfirst hu (lt_of_le_of_lt hkl hl), hroot, hr]
  · cases M with
    | failed hsame => exact hsame.keepsDirs hI

theorem fsCreateFile_keepsDirs {s : FsState} (hI : Inv s) {path : List UInt8}
    (h0 : ∀ c ∈ comps path, 0 ∉ c) (data : Memory) {size : UInt32} (hP : Plain s (comps path))
    (hnot : ¬ Hides s path size) : KeepsDirs s (fsCreateFile path data size s).2 := by
  rcases fsCreateFile_cases hI h0 data size with
    ⟨hrun, -⟩ | ⟨ds, c, q, s1, hpath, hc, hsize, M, -, ⟨rfl, hrun⟩ | ⟨p, rfl, hrun⟩⟩
  · rw [hrun]
    exact .refl s
  · rw [hrun]
    exact M.keepsDirs hI (hpath ▸ hP).left
  have hI1 := M.inv hI
  rcases replaceFile_cases hI1 hpath hc M.resolve data hsize with
    ⟨-, hrun'⟩ | ⟨-, s2, r, s', C, hM, hrun'⟩
  · rw [hrun, hrun']
    exact M.keepsDirs hI (hpath ▸ hP).left
  rw [hrun, hrun']
  refine (M.keepsDirs hI (hpath ▸ hP).left).trans ?_
  cases C with
  | deleted hf R =>
    cases hM with
    | failed hsame => exact (R.keepsDirs hI1).trans (hsame.keepsDirs (R.inv hI1))
    | made _ L =>
      exact fun cs e hr he => ⟨R.resolve_dir_overwrite hI1 L hf hr he,
        L.isDir_iff.mpr (.inr (R.isDir_iff.mpr he))⟩
  | kept hdir =>
    cases hl : s1.lookup p c with
    | none =>
      cases hM with
      | failed hsame => exact hsame.keepsDirs hI1
      | made _ L => exact L.keepsDirs hI1 hl
    | some e =>
      -- the path led to that directory before the call
      have hp : s.resolve ds = some p ∧ s1 = s := by
        cases hres : s.resolve ds with
        | some p' =>
          obtain ⟨hpp, rfl⟩ := M.of_resolve hres
          exact ⟨hpp.symm, rfl⟩
        | none =>
          have hnone : s.resolve (ds ++ [c]) = none := by rw [resolve_concat, hres]; rfl
          rw [M.name_free hI (hpath ▸ hP) hnone] at hl
          cases hl
      obtain ⟨hp, rfl⟩ := hp
      refine hM.keepsDirs_behind hI hl fun hroom j hj => ?_
      by_contra hno
      have hparent : (findInodeByPath (splitPath path).1 s1).1 = p := by
        rw [splitPath_concat hpath, findInodeByPath_parent hI.perfect hpath, hp]
        rfl
      refine hnot ⟨?_, ?_, hsize, hroom, j, by rw [hparent]; exact hj, fun l hlj x hx => ?_⟩
      · rw [hI.findInodeByPath_concat hpath hp, hl]
        exact hdir e hl
      · rw [splitPath_concat hpath]
        exact hc.segment.1
      · rw [hparent, splitPath_concat hpath] at hx
        exact hno ⟨l, hlj, x, hx⟩

theorem Hides.not_keepsDirs {s : FsState} (hI : Inv s) {path : List UInt8}
    (h0 : ∀ c ∈ comps path, 0 ∉ c) (data : Memory) {size : UInt32} (h : Hides s path size) :
    ¬ KeepsDirs s (fsCreateFile path data size s).2 := by
  obtain ⟨hdir, hname, hsize, hroom, j, hj, hbefore⟩ := h
  intro hkeep
  rcases comps_cases path with hroot | ⟨ds, c, hpath⟩
  · exact hname (by rw [splitPath_root hroot])
  obtain ⟨e, hres, he⟩ := hI.isDir_find_iff.mp hdir
  have hpc := hres
  rw [hpath, resolve_concat] at hpc
  obtain ⟨p, hp, hl⟩ := Option.bind_eq_some_iff.mp hpc
  obtain ⟨hshort, hu, hfind⟩ := Inv.lookup_some hl
  obtain ⟨k, hk, hfirst⟩ := find_eq_some_iff.mp hfind
  obtain ⟨s1, r, s', C, M, hrun⟩ := fsCreateFile_at hI h0 hpath hshort hp hu.isDir data hsize
  rw [hrun] at hkeep
  have hres' := (hkeep _ e hres he).1
  cases C with
  | deleted hf R =>
    cases hl.symm.trans hf
    exact R.file.not_isDir he
  | kept =>
    cases M with
    | failed _ h => exact hroom h
    | made M L =>
      have hparent : (findInodeByPath (splitPath path).1 s).1 = p := by
        rw [splitPath_concat hpath, findInodeByPath_parent hI.perfect hpath, hp]
        rfl
      rw [hparent] at hj
      rw [hparent, splitPath_concat hpath] at hbefore
      have hik : _ < k := lt_of_le_of_lt (M.slot_le hj) <| lt_of_le_of_ne
        (not_lt.mp fun hkj => hbefore k hkj e hk) fun hjk => by rw [hjk, hk] at hj; cases hj
      rw [hpath] at hres'
      by_cases hgo : GoesBy s.lookup s.superblock.rootInode ds p c
      · rw [L.resolve_blocked hI rfl hk hfirst hu hik hp hgo] at hres'
        cases hres'
      · rw [L.resolve_before hI rfl hk hfirst hu hik hp hgo] at hres'
        cases hres'
        exact L.not_live he.live

/-- **Which creations of files keep every path to a directory**, the path being plain. -/
theorem fsCreateFile_keepsDirs_iff {s : FsState} (hI : Inv s) {path : List UInt8}
    (h0 : ∀ c ∈ comps path, 0 ∉ c) (data : Memory) {size : UInt32} (hP : Plain s (comps path)) :
    KeepsDirs s (fsCreateFile path data size s).2 ↔ ¬ Hides s path size :=
  ⟨fun hk hh => hh.not_keepsDirs hI h0 data hk, fsCreateFile_keepsDirs hI h0 data hP⟩

end EphemeralOS
