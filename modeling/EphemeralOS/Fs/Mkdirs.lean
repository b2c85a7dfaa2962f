import EphemeralOS.Fs.Remove

/-!
# `fs_create_dir`

`Mkdirs s cs q s'` says how the directory `cs` comes to be from the state `s`,
missing parents first, and what the path leads to afterwards. It follows the
recursion of `fs_create_dir` (`fsCreateDir_mkdirs`), which looks every prefix
up in `s` before it makes anything; `fs_create_file` makes missing parents the
same way.
-/

namespace EphemeralOS

open Path Directory

/-- Nothing needing `k` blocks can be made. -/
def NoRoom (s : FsState) (k : Nat) : Prop := s.freeNumbers = ∅ ∨ s.clearBlocks.card < k

theorem Taken.room {s h : FsState} {n : UInt32} {v : Inode} {bs : List UInt32}
    (T : Taken s h n v bs) {k : Nat} (hk : k ≤ bs.length) : ¬ NoRoom s k := by
  have hlen := T.length_le
  rintro (h | h)
  · exact absurd (h ▸ mem_freeNumbers.mpr ⟨T.num, T.free⟩) (Finset.notMem_empty _)
  · omega

theorem MadeDir.room {s s' : FsState} {n p b : UInt32} {name : List UInt8} {i : Fin 15}
    (M : MadeDir s s' n p name b i) : ¬ NoRoom s 1 := M.toTaken.room (le_refl _)

/-- Making sure of the directory `cs` from `s` on ends in `s'`, where the path leads to `q`; `q` is
`none` after a failure, too. -/
inductive Mkdirs (s : FsState) : List (List UInt8) → Option UInt32 → FsState → Prop
  | found {cs : List (List UInt8)} {p : UInt32} : s.resolve cs = some p → Mkdirs s cs (some p) s
  | rejected {ds : List (List UInt8)} {c : List UInt8} : s.resolve (ds ++ [c]) = none →
      fsMaxFilename ≤ c.length → Mkdirs s (ds ++ [c]) none s
  | orphaned {ds : List (List UInt8)} {c : List UInt8} {s1 : FsState} :
      s.resolve (ds ++ [c]) = none → s.resolve ds = none → NameOk c → Mkdirs s ds none s1 →
      Mkdirs s (ds ++ [c]) none s1
  | refused {ds : List (List UInt8)} {c : List UInt8} {p : UInt32} {s1 s2 : FsState} :
      s.resolve (ds ++ [c]) = none → NameOk c → Mkdirs s ds (some p) s1 → Same s1 s2 →
      (¬ s1.IsDir p ∨ NoRoom s1 1) → Mkdirs s (ds ++ [c]) none s2
  | made {ds : List (List UInt8)} {c : List UInt8} {p n b : UInt32} {i : Fin 15} {s1 s2 : FsState} :
      s.resolve (ds ++ [c]) = none → NameOk c → Mkdirs s ds (some p) s1 → s1.IsDir p →
      MadeDir s1 s2 n p c b i → Mkdirs s (ds ++ [c]) (s2.resolve (ds ++ [c])) s2

/-- What `fs_create_dir` on `cs` returns. The root has no name and is refused, though it is there. -/
def Returns (cs : List (List UInt8)) (r : Int) (q : Option UInt32) (s' : FsState) : Prop :=
  (r = 0 ∧ q = s'.resolve cs) ∨ (r = -1 ∧ (cs ≠ [] → q = none))

namespace Mkdirs

variable {s s' : FsState} {cs : List (List UInt8)} {q : Option UInt32}

theorem inv (hI : Inv s) (M : Mkdirs s cs q s') : Inv s' := by
  induction M with
  | found | rejected => exact hI
  | orphaned _ _ _ _ ih => exact ih
  | refused _ _ _ hsame _ ih => exact hsame.agree.inv ih
  | made _ hname _ hp hmade ih => exact (hmade.isLinked hp hname).inv ih

theorem resolve {p : UInt32} (M : Mkdirs s cs (some p) s') : s'.resolve cs = some p := by
  generalize hq : some p = q at M
  cases M with
  | found h => exact h
  | made => rfl
  | rejected | orphaned | refused => cases hq

theorem step {s1 : FsState} {ds : List (List UInt8)} {c : List UInt8} {p : UInt32} (hI1 : Inv s1)
    (hnone : s.resolve (ds ++ [c]) = none) (hname : NameOk c) (M : Mkdirs s ds (some p) s1) :
    ∃ r q s', makeDir p c s1 = (r, s') ∧ Mkdirs s (ds ++ [c]) q s' ∧
      Returns (ds ++ [c]) r q s' := by
  have hlive : s1.Live p := hI1.resolve_live M.resolve
  rcases makeDir_cases (hI1.ready hlive) c with ⟨s', hrun, hsame, hwhy⟩ | ⟨hdir, s', n, b, i, hrun, hmade⟩
  · refine ⟨-1, none, s', hrun, .refused hnone hname M hsame ?_, .inr ⟨rfl, fun _ => rfl⟩⟩
    exact hwhy.imp (fun h hd => h hd.2) id
  · exact ⟨0, _, s', hrun, .made hnone hname M ⟨hlive.1, hdir⟩ hmade, .inl ⟨rfl, rfl⟩⟩

end Mkdirs

theorem lookup_long {s : FsState} {d : UInt32} {c : List UInt8} (h : fsMaxFilename ≤ c.length) :
    s.lookup d c = none := by
  unfold FsState.lookup
  rw [if_neg fun hc => absurd hc.1 (Nat.not_lt.mpr h)]

theorem resolve_long {s : FsState} {ds : List (List UInt8)} {c : List UInt8}
    (h : fsMaxFilename ≤ c.length) : s.resolve (ds ++ [c]) = none := by
  rw [resolve_concat]
  cases s.resolve ds with
  | none => rfl
  | some d => exact lookup_long h

theorem comps_mem_segment {path : List UInt8} {ds : List (List UInt8)} {c : List UInt8}
    (h : comps path = ds ++ [c]) : Segment slash c := components_segment slash path c (by
  rw [show components slash path = ds ++ [c] from h]; simp)

/-- `fs_create_dir`, by induction on the depth of its recursion: the call on the parent path has
one component less. -/
theorem createDirDepth_mkdirs {s : FsState} (hI : Inv s) :
    ∀ (depth : Nat) (path : List UInt8), (∀ c ∈ comps path, 0 ∉ c) → (comps path).length < depth →
      ∃ r q s', createDirDepth depth path s = (r, s') ∧ Mkdirs s (comps path) q s' ∧
        Returns (comps path) r q s'
  | 0, path, _, hlen => absurd hlen (Nat.not_lt_zero _)
  | depth + 1, path, h0, hlen => by
    have hs := hI.perfect
    rcases comps_cases path with hroot | ⟨ds, c, hpath⟩
    · refine ⟨-1, s.superblock.rootInode, s, ?_, .found (by rw [hroot]; rfl),
        .inr ⟨rfl, fun h => absurd hroot h⟩⟩
      unfold createDirDepth createDirStep
      rw [splitPath_root hroot]
      rfl
    have hseg := comps_mem_segment hpath
    have hnz : c.length ≠ 0 := fun h => hseg.1 (List.length_eq_zero_iff.mp h)
    unfold createDirDepth createDirStep
    rw [splitPath_concat hpath]
    simp only
    by_cases hlong : fsMaxFilename ≤ c.length
    · rw [if_pos (.inr hlong), hpath]
      exact ⟨-1, none, s, rfl, .rejected (resolve_long hlong) hlong, .inr ⟨rfl, fun _ => rfl⟩⟩
    have hname : NameOk c := ⟨hseg, h0 c (by rw [hpath]; simp), by omega⟩
    rw [if_neg (by omega), FsM.bind_eq (findInodeByPath_eq hs path)]
    cases hres : s.resolve (comps path) with
    | some e =>
      rw [Option.getD_some, if_pos (hI.resolve_ne_noNumber hres)]
      exact ⟨0, some e, s, rfl, .found hres, .inl ⟨rfl, hres.symm⟩⟩
    | none =>
      rw [Option.getD_none, if_neg (not_not.mpr rfl),
        FsM.bind_eq (findInodeByPath_parent hs hpath)]
      rw [hpath] at hres ⊢
      cases hparent : s.resolve ds with
      | some p =>
        rw [Option.getD_some, if_neg (hI.resolve_ne_noNumber hparent)]
        exact Mkdirs.step hI hres hname (.found hparent)
      | none =>
        have hds : ds ≠ [] := by rintro rfl; cases hparent
        have hcanon : canon slash ds ≠ [slash] := fun e => hds (by
          rw [← comps_parent hpath, e]; rfl)
        have hcomps := comps_parent hpath
        rw [Option.getD_none, if_pos rfl, if_pos hcanon]
        obtain ⟨r, q, s1, hrun, hM, hret⟩ := createDirDepth_mkdirs hI depth (canon slash ds)
          (fun d hd => h0 d (by rw [hcomps] at hd; rw [hpath]; simp [hd]))
          (by rw [hcomps]; rw [hpath, List.length_append, List.length_singleton] at hlen; omega)
        rw [hcomps] at hM hret
        rw [FsM.bind_eq hrun]
        have hlost : q = none → ∃ r' q' s', ((-1 : Int), s1) = (r', s') ∧
            Mkdirs s (ds ++ [c]) q' s' ∧ Returns (ds ++ [c]) r' q' s' := by
          rintro rfl
          exact ⟨-1, none, s1, rfl, .orphaned hres hparent hname hM, .inr ⟨rfl, fun _ => rfl⟩⟩
        rcases hret with ⟨rfl, hq⟩ | ⟨rfl, hq⟩
        · have hI1 := hM.inv hI
          rw [if_neg (not_not.mpr rfl), FsM.bind_eq (findInodeByPath_parent hI1.perfect hpath), ← hq]
          cases q with
          | none => exact hlost rfl
          | some p =>
            rw [Option.getD_some, if_neg (hI1.resolve_ne_noNumber hM.resolve)]
            exact Mkdirs.step hI1 hres hname hM
        · rw [if_pos (by decide)]
          exact hlost (hq hds)

/-- **`fs_create_dir` makes the directory, missing parents first, or fails.** -/
theorem fsCreateDir_mkdirs {s : FsState} (hI : Inv s) {path : List UInt8}
    (h0 : ∀ c ∈ comps path, 0 ∉ c) :
    ∃ r q s', fsCreateDir path s = (r, s') ∧ Mkdirs s (comps path) q s' ∧
      Returns (comps path) r q s' :=
  createDirDepth_mkdirs hI (path.length + 1) path h0
    (Nat.lt_succ_of_le (length_components slash path))

theorem Mkdirs.of_resolve {s s' : FsState} {cs : List (List UInt8)} {q : Option UInt32} {p : UInt32}
    (M : Mkdirs s cs q s') (h : s.resolve cs = some p) : q = some p ∧ s' = s := by
  cases M with
  | found h' => exact ⟨h'.symm.trans h, rfl⟩
  | rejected hn | orphaned hn | refused hn | made hn => exact absurd (hn.symm.trans h) (by simp)

theorem fsCreateDir_found {s : FsState} (hI : Inv s) {path : List UInt8} (h0 : ∀ c ∈ comps path, 0 ∉ c)
    {p : UInt32} (h : s.resolve (comps path) = some p) : (fsCreateDir path s).2 = s := by
  obtain ⟨r, q, s', hrun, M, -⟩ := fsCreateDir_mkdirs hI h0
  rw [hrun]
  exact (M.of_resolve h).2

section At

variable {s : FsState} (hI : Inv s) {path : List UInt8} {ds : List (List UInt8)} {c : List UInt8}
  (hpath : comps path = ds ++ [c])
include hI hpath

theorem fsCreateDir_existing {e : UInt32} (h : s.resolve (comps path) = some e) :
    fsCreateDir path s = (0, s) := by
  have hnz : c.length ≠ 0 := fun h =>
    (comps_mem_segment hpath).1 (List.length_eq_zero_iff.mp h)
  have hshort : c.length < fsMaxFilename := by
    by_contra hlong
    rw [hpath, resolve_long (Nat.not_lt.mp hlong)] at h
    cases h
  unfold fsCreateDir createDirDepth createDirStep
  rw [splitPath_concat hpath]
  simp only
  rw [if_neg (by omega), FsM.bind_eq (findInodeByPath_eq hI.perfect path), h, Option.getD_some,
    if_pos (hI.resolve_ne_noNumber h)]
  rfl

theorem fsCreateDir_at {p : UInt32} (hc : c.length < fsMaxFilename) (hp : s.resolve ds = some p)
    (hnone : s.lookup p c = none) : fsCreateDir path s = makeDir p c s := by
  have hs := hI.perfect
  have hnz : c.length ≠ 0 := fun h =>
    (comps_mem_segment hpath).1 (List.length_eq_zero_iff.mp h)
  unfold fsCreateDir createDirDepth createDirStep
  rw [splitPath_concat hpath]
  simp only
  rw [if_neg (by omega), FsM.bind_eq (findInodeByPath_eq hs path), hpath, resolve_concat, hp,
    Option.bind_some, hnone, Option.getD_none, if_neg (not_not.mpr rfl),
    FsM.bind_eq (findInodeByPath_parent hs hpath), hp, Option.getD_some,
    if_neg (hI.resolve_ne_noNumber hp)]

end At

end EphemeralOS
