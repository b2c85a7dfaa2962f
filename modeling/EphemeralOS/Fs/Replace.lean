import EphemeralOS.Fs.Mkdirs

/-!
# `fs_create_file`

After its checks `fs_create_file` makes the missing parents (`Mkdirs`), deletes
the file that is in the way (`Cleared`), and makes the new one. A directory in
the way is not deleted, and the new file is entered next to it.
-/

namespace EphemeralOS

open Path Directory

/-- After a deletion the name is free or leads to a directory. -/
theorem Removed.lookup_isDir {s s' : FsState} {f p : UInt32} {c : List UInt8} {j : Fin 15}
    (hI : Inv s) (R : Removed s s' f p c j) (hf : s.lookup p c = some f) {e : UInt32}
    (he : s'.lookup p c = some e) : s'.IsDir e := by
  obtain ⟨_, hp, hfind⟩ := Inv.lookup_some hf
  obtain ⟨j', hj', hfirst⟩ := find_eq_some_iff.mp hfind
  obtain ⟨-, rfl⟩ := hI.slot_file_unique hp hp R.file hj' R.slot
  obtain ⟨k, hk, hfirst'⟩ := find_eq_some_iff.mp (Inv.lookup_some he).2.2
  obtain ⟨hks, hkj⟩ := (R.slot_iff hI hp).mp hk
  rw [R.isDir_iff]
  rcases hI.shape.types e (hI.slot_live hp hks) with hfile | hdir
  · -- a second file of that name comes after a directory of that name
    have hjk : j' < k := by
      rcases lt_trichotomy j' k with h | h | h
      · exact h
      · exact absurd ⟨rfl, h.symm⟩ hkj
      · exact absurd hks (hfirst k h e)
    obtain ⟨l, hlk, x, hx, hxd⟩ := (hI.entries p hp).order j' k c f e hjk R.file hfile R.slot hks
    have hlj : l ≠ j' := by
      rintro rfl
      rw [R.slot] at hx
      cases hx
      exact R.file.not_isDir hxd
    exact absurd ((R.slot_iff hI hp).mpr ⟨hx, fun h => hlj h.2⟩) (hfirst' l hlk x)
  · exact hdir

/-- What `fs_create_file` does about an entry `c` of directory `p` that is in the way: a file is
deleted, anything else stays. -/
inductive Cleared (s : FsState) (p : UInt32) (c : List UInt8) : FsState → Prop
  | deleted {s' : FsState} {f : UInt32} {j : Fin 15} : s.lookup p c = some f →
      Removed s s' f p c j → Cleared s p c s'
  | kept : (∀ f, s.lookup p c = some f → s.IsDir f) → Cleared s p c s

namespace Cleared

variable {s s' : FsState} {p : UInt32} {c : List UInt8}

theorem inv (hI : Inv s) (C : Cleared s p c s') : Inv s' := by
  cases C with
  | deleted _ R => exact R.inv hI
  | kept => exact hI

theorem isDir (hp : s.IsDir p) (C : Cleared s p c s') : s'.IsDir p := by
  cases C with
  | deleted _ R => exact R.isDir_iff.mpr hp
  | kept => exact hp

theorem lookup_isDir (hI : Inv s) (C : Cleared s p c s') {e : UInt32}
    (he : s'.lookup p c = some e) : s'.IsDir e := by
  cases C with
  | deleted hf R => exact R.lookup_isDir hI hf he
  | kept h => exact h e he

end Cleared

/-! ## Making the file -/

/-- How the making of a file ends: it fails and leaves the state as it was, or the file is made. -/
inductive Making (s : FsState) (p : UInt32) (c : List UInt8) (data : Memory) (size : UInt32) :
    Int → FsState → Prop
  | failed {s' : FsState} : Same s s' → NoRoom s (blocksNeeded size).toNat →
      Making s p c data size (-1) s'
  | made {s' : FsState} {n : UInt32} {bs : List UInt32} {i : Fin 15} :
      MadeFile s s' n p c data size bs i → Linked s s' n p c (fileInode p size bs) bs i →
      Making s p c data size 0 s'

/-- A file is made just when there is room for it. -/
theorem Making.result_iff {s s' : FsState} {p : UInt32} {c : List UInt8} {data : Memory}
    {size : UInt32} {r : Int} (M : Making s p c data size r s') :
    (r = 0 ∧ ¬ NoRoom s (blocksNeeded size).toNat) ∨
      (r = -1 ∧ NoRoom s (blocksNeeded size).toNat) := by
  cases M with
  | failed _ h => exact .inr ⟨rfl, h⟩
  | made M L =>
    exact .inl ⟨rfl, M.toTaken.room M.count.ge⟩

theorem makeFile_making {s : FsState} (hI : Inv s) {p : UInt32} (hp : s.IsDir p) {c : List UInt8}
    (hc : NameOk c) (hfind : ∀ e, s.lookup p c = some e → s.IsDir e) (data : Memory) {size : UInt32}
    (hsize : size ≤ fsMaxFileSize) :
    ∃ r s', makeFile p c data size s = (r, s') ∧ Making s p c data size r s' := by
  rcases makeFile_cases (hI.ready hp.live) hp.2 c data hsize with
    ⟨s', hrun, hsame, hwhy⟩ | ⟨s', n, bs, i, hrun, M⟩
  · exact ⟨-1, s', hrun, .failed hsame hwhy⟩
  · refine ⟨0, s', hrun, .made M (M.isLinked hp hc hsize fun hu e he => hfind e ?_)⟩
    rw [hI.lookup_eq hu hc.short, he]

/-- `fs_create_file` in the directory `p` that the parent path `ds` leads to. -/
theorem replaceFile_cases {s : FsState} (hI : Inv s) {path : List UInt8} {ds : List (List UInt8)}
    {c : List UInt8} {p : UInt32} (hpath : comps path = ds ++ [c]) (hc : NameOk c)
    (hp : s.resolve ds = some p) (data : Memory) {size : UInt32} (hsize : size ≤ fsMaxFileSize) :
    (¬ s.IsDir p ∧ replaceFile path p c data size s = (-1, s)) ∨
    (s.IsDir p ∧ ∃ s1 r s', Cleared s p c s1 ∧ Making s1 p c data size r s' ∧
      replaceFile path p c data size s = (r, s')) := by
  have hs := hI.perfect
  have hlive := hI.resolve_live hp
  unfold replaceFile
  rw [FsM.bind_gets]
  by_cases hdir : (s.inodeTable p).type = inodeTypeDir
  case neg =>
    rw [if_pos hdir]
    exact .inl ⟨fun h => hdir h.2, rfl⟩
  have hpd : s.IsDir p := ⟨hlive.1, hdir⟩
  have hres : s.resolve (comps path) = s.lookup p c := by rw [hpath, resolve_concat, hp]; rfl
  rw [if_neg (not_not.mpr hdir), FsM.bind_eq (findInodeByPath_eq hs path), hres]
  refine .inr ⟨hpd, ?_⟩
  -- the deletion, if any, leaves a name that is free or a directory's
  have hclear : ∃ s1, Cleared s p c s1 ∧
      ((s.lookup p c).isSome → ∃ r, fsDeleteFile path s = (r, s1)) ∧
      (s.lookup p c = none → s1 = s) := by
    cases hf : s.lookup p c with
    | none =>
      refine ⟨s, .kept fun f h => ?_, by simp, fun _ => rfl⟩
      rw [hf] at h
      cases h
    | some f =>
      rcases hI.shape.types f (hI.lookup_live hf) with hfile | hfd
      · obtain ⟨s1, j, hrun, R⟩ := fsDeleteFile_removes hI hpath hp hf hfile
        exact ⟨s1, .deleted hf R, fun _ => ⟨0, hrun⟩, by simp⟩
      · have hfail : fsDeleteFile path s = (-1, s) := fsDeleteFile_fails hI fun g hg hgf => by
          rw [hres, hf] at hg
          cases hg
          exact hgf.not_isDir hfd
        refine ⟨s, .kept fun g hg => ?_, fun _ => ⟨-1, hfail⟩, by simp⟩
        rw [hf] at hg
        cases hg
        exact hfd
  obtain ⟨s1, C, hdelete, hnone⟩ := hclear
  obtain ⟨r, s', hrun, hM⟩ := makeFile_making (C.inv hI) (C.isDir hpd) hc
    (fun e he => C.lookup_isDir hI he) data hsize
  refine ⟨s1, r, s', C, hM, ?_⟩
  cases hf : s.lookup p c with
  | none =>
    rw [Option.getD_none, if_neg (not_not.mpr rfl), ← hrun, hnone hf]
  | some f =>
    obtain ⟨r', hr'⟩ := hdelete (by rw [hf]; rfl)
    rw [Option.getD_some, if_pos (lookup_ne_noNumber hf), FsM.bind_eq hr', hrun]

/-- **`fs_create_file`**: rejected at once, or stopped after making parents, or carried out in the
directory the parent path leads to. -/
theorem fsCreateFile_cases {s : FsState} (hI : Inv s) {path : List UInt8}
    (h0 : ∀ c ∈ comps path, 0 ∉ c) (data : Memory) (size : UInt32) :
    (fsCreateFile path data size s = (-1, s) ∧ (size > fsMaxFileSize ∨
      ∀ ds c, comps path = ds ++ [c] → fsMaxFilename ≤ c.length)) ∨
    ∃ ds c q s1, comps path = ds ++ [c] ∧ NameOk c ∧ size ≤ fsMaxFileSize ∧ Mkdirs s ds q s1 ∧
      s1 = (fsCreateDir (splitPath path).1 s).2 ∧
      ((q = none ∧ fsCreateFile path data size s = (-1, s1)) ∨
        ∃ p, q = some p ∧ fsCreateFile path data size s = replaceFile path p c data size s1) := by
  have hs := hI.perfect
  unfold fsCreateFile
  by_cases hsize : size > fsMaxFileSize
  · rw [if_pos hsize]
    exact .inl ⟨rfl, .inl hsize⟩
  rw [if_neg hsize]
  rcases comps_cases path with hroot | ⟨ds, c, hpath⟩
  · rw [splitPath_root hroot]
    exact .inl ⟨rfl, .inr fun ds c h => by rw [hroot] at h; simp at h⟩
  have hseg := comps_mem_segment hpath
  have hnz : c.length ≠ 0 := fun h => hseg.1 (List.length_eq_zero_iff.mp h)
  rw [splitPath_concat hpath]
  simp only
  by_cases hlong : fsMaxFilename ≤ c.length
  · rw [if_pos (.inr hlong)]
    refine .inl ⟨rfl, .inr fun ds' c' h => ?_⟩
    obtain ⟨-, h⟩ := List.append_inj' (hpath.symm.trans h) rfl
    cases h
    exact hlong
  have hname : NameOk c := ⟨hseg, h0 c (by rw [hpath]; simp), by omega⟩
  have hcomps := comps_parent hpath
  have h0' : ∀ d ∈ comps (canon slash ds), 0 ∉ d := fun d hd =>
    h0 d (by rw [hcomps] at hd; rw [hpath]; simp [hd])
  rw [if_neg (by omega), FsM.bind_eq (findInodeByPath_parent hs hpath)]
  refine .inr ⟨ds, c, ?_⟩
  cases hparent : s.resolve ds with
  | some p =>
    rw [Option.getD_some, if_neg (hI.resolve_ne_noNumber hparent)]
    exact ⟨some p, s, hpath, hname, UInt32.not_lt.mp hsize, .found hparent,
      (fsCreateDir_found hI h0' (hcomps ▸ hparent)).symm, .inr ⟨p, rfl, rfl⟩⟩
  | none =>
    rw [Option.getD_none, if_pos rfl]
    obtain ⟨r, q, s1, hrun, hM, hret⟩ := fsCreateDir_mkdirs hI h0'
    rw [hcomps] at hM hret
    refine ⟨q, s1, hpath, hname, UInt32.not_lt.mp hsize, hM, by rw [hrun], ?_⟩
    rw [FsM.bind_eq hrun]
    rcases hret with ⟨rfl, hq⟩ | ⟨rfl, hq⟩
    · have hI1 := hM.inv hI
      rw [if_neg (not_not.mpr rfl), FsM.bind_eq (findInodeByPath_parent hI1.perfect hpath), ← hq]
      cases q with
      | none => exact .inl ⟨rfl, rfl⟩
      | some p =>
        rw [Option.getD_some, if_neg (hI1.resolve_ne_noNumber hM.resolve)]
        exact .inr ⟨p, rfl, rfl⟩
    · have hds : ds ≠ [] := by rintro rfl; cases hparent
      exact .inl ⟨hq hds, by rw [if_pos (by decide)]; rfl⟩

/-- **`fs_create_file` in a directory that is there.** -/
theorem fsCreateFile_at {s : FsState} (hI : Inv s) {path : List UInt8} (h0 : ∀ c ∈ comps path, 0 ∉ c)
    {ds : List (List UInt8)} {c : List UInt8} {p : UInt32} (hpath : comps path = ds ++ [c])
    (hc : c.length < fsMaxFilename) (hp : s.resolve ds = some p) (hdir : s.IsDir p) (data : Memory)
    {size : UInt32} (hsize : size ≤ fsMaxFileSize) :
    ∃ s1 r s', Cleared s p c s1 ∧ Making s1 p c data size r s' ∧
      fsCreateFile path data size s = (r, s') := by
  rcases fsCreateFile_cases hI h0 data size with ⟨-, hlarge | hlong⟩ |
    ⟨ds', c', q, s1, hpath', hc', -, M, -, h⟩
  · exact absurd hlarge (UInt32.not_lt.mpr hsize)
  · exact absurd (hlong ds c hpath) (by omega)
  obtain ⟨rfl, h1⟩ := List.append_inj' (hpath.symm.trans hpath') rfl
  cases h1
  obtain ⟨rfl, rfl⟩ := M.of_resolve hp
  rcases h with ⟨hq, -⟩ | ⟨p', hq, hrun⟩
  · cases hq
  · cases hq
    rcases replaceFile_cases hI hpath hc' hp data hsize with ⟨hn, -⟩ | ⟨-, s1, r, s', C, hM, hrun'⟩
    · exact absurd hdir hn
    · exact ⟨s1, r, s', C, hM, hrun.trans hrun'⟩

theorem fsCreateFile_fresh {s : FsState} (hI : Inv s) {path : List UInt8}
    (h0 : ∀ c ∈ comps path, 0 ∉ c) {ds : List (List UInt8)} {c : List UInt8} {p : UInt32}
    (hpath : comps path = ds ++ [c]) (hc : c.length < fsMaxFilename) (hp : s.resolve ds = some p)
    (hdir : s.IsDir p) (hnone : s.lookup p c = none) (data : Memory) {size : UInt32}
    (hsize : size ≤ fsMaxFileSize) (hroom : ¬ NoRoom s (blocksNeeded size).toNat) :
    ∃ s' n bs i, fsCreateFile path data size s = (0, s') ∧ MadeFile s s' n p c data size bs i ∧
      Linked s s' n p c (fileInode p size bs) bs i := by
  obtain ⟨s1, r, s', C, M, hrun⟩ := fsCreateFile_at hI h0 hpath hc hp hdir data hsize
  cases C with
  | deleted hf => exact absurd (hnone.symm.trans hf) (by simp)
  | kept =>
    cases M with
    | failed _ h => exact absurd h hroom
    | made M L => exact ⟨s', _, _, _, hrun, M, L⟩

end EphemeralOS
