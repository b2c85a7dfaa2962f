import EphemeralOS.Fs.RoundTrip
import EphemeralOS.Fs.TreeChange

/-!
# The calls on the tree

What the calls do to the file system they do to its tree: they return the same
and leave the state whose tree is the one that `Tree.createDir`,
`Tree.createFile` and `Tree.deleteFile` leave (`fsCreateDir_tree`,
`fsCreateFile_tree`, `fsDeleteFile_tree`). Names must be unique, and paths plain.
-/

namespace EphemeralOS

open Path Directory

theorem MadeDir.nodeOf_eq {s s' : FsState} {n p b : UInt32} {name : FileName} {i : Fin 15}
    (M : MadeDir s s' n p name b i) (hp : s.IsDir p) (hname : NameOk name) : s'.nodeOf n = .dir :=
  nodeOf_usable ((M.isLinked hp hname).usable_iff.mpr (.inl ⟨rfl, rfl⟩))

theorem blocks_ofData (data : Memory) {size : UInt32} (hsize : size ≤ fsMaxFileSize) :
    (Node.ofData data size.toNat).blocks = (blocksNeeded size).toNat :=
  (toNat_blocksNeeded hsize).symm

theorem MadeFile.nodeOf_eq {s s' : FsState} {n p : UInt32} {name : FileName} {data : Memory}
    {size : UInt32} {bs : List UInt32} {i : Fin 15} (M : MadeFile s s' n p name data size bs i)
    (L : Linked s s' n p name (fileInode p size bs) bs i) (hsize : size ≤ fsMaxFileSize) :
    s'.nodeOf n = .ofData data size.toNat := by
  have hfile : s'.IsFile n := L.isFile_iff.mpr (.inl ⟨rfl, rfl⟩)
  rw [nodeOf_file hfile, L.inode]
  unfold Node.ofData
  refine congrArg (Node.file size.toNat) (List.map_congr_left fun a ha => ?_)
  have ha : a < min size.toNat (12 * 512) := List.mem_range.mp ha
  exact M.fileByte_lt hsize (by omega) (by omega)

theorem FileBlocks.length_pointers {v : Inode} (h : FileBlocks v) :
    v.pointers.length = min 12 ((v.size.toNat + 511) / 512) := by
  have hbelow : ∀ m : Fin 13,
      ((List.finRange 12).filter fun k : Fin 12 => decide ((k : Nat) < m)).length = m := by decide
  have hcount : v.pointers.length = ((List.finRange 12).filter fun k : Fin 12 =>
      decide ((k : Nat) < (v.size.toNat + 511) / 512)).length := by
    unfold Inode.pointers Inode.pointersAt
    rw [List.filter_map, List.length_map]
    refine congrArg List.length (List.filter_congr fun k _ => ?_)
    rw [Function.comp_apply, decide_eq_decide.mpr (h.2 k)]
  rw [hcount]
  by_cases hm : (v.size.toNat + 511) / 512 < 13
  · rw [hbelow ⟨_, hm⟩]
    show (v.size.toNat + 511) / 512 = _
    omega
  · rw [List.filter_eq_self.mpr fun k _ => decide_eq_true (by omega), List.length_finRange]
    omega

theorem Inv.blocks_nodeOf {s : FsState} (hI : Inv s) {f : UInt32} (hf : s.IsFile f) :
    (s.nodeOf f).blocks = (s.inodeTable f).pointers.length := by
  rw [(hI.files f hf).length_pointers, nodeOf_file hf]
  rfl

/-! ## Making -/

section Making

variable {s s' : FsState} (hI : Inv s) (hU : NamesUnique s) {p : UInt32} {c : FileName}
  {pos : List FileName} (hp : PlaceOf s pos p)
include hI hU hp

theorem makeDir_tree (hname : NameOk c) (hfree : s.lookup p c = none) :
    s.tree.make pos c .dir = ((makeDir p c s).1, (makeDir p c s).2.tree) := by
  rcases makeDir_cases (hI.ready (hI.resolve_live hp.2)) c with
    ⟨s1, hrun, hsame, hwhy⟩ | ⟨htype, s1, n, b, i, hrun, M⟩
  · have hno : ¬ (s.tree.IsDirectory pos ∧ s.tree.Room Node.dir.blocks) := by
      rw [hI.isDirectory_iff hp, room_iff]
      rintro ⟨hd, hroom⟩
      exact hwhy.elim (fun h => h hd.2) hroom
    rw [Tree.make_fails c hno, hrun, hsame.tree_eq hI]
  · have hd : s.IsDir p := ⟨(hI.resolve_live hp.2).1, htype⟩
    have hnode := M.nodeOf_eq hd hname
    have htree := (M.isLinked hd hname).tree_eq hI hfree hU hp (by rw [hnode]; rfl)
    rw [hnode] at htree
    rw [Tree.make_eq c (v := .dir) ((hI.isDirectory_iff hp).mpr hd) (room_iff.mpr M.room), hrun,
      htree]

theorem Making.tree_eq (hd : s.IsDir p) (hfree : s.lookup p c = none) {data : Memory}
    {size : UInt32} (hsize : size ≤ fsMaxFileSize) {r : Int} (M : Making s p c data size r s') :
    s.tree.make pos c (.ofData data size.toNat) = (r, s'.tree) := by
  cases M with
  | failed hsame hwhy =>
    have hno : ¬ (s.tree.IsDirectory pos ∧
        s.tree.Room (Node.ofData data size.toNat).blocks) := fun h => by
      rw [blocks_ofData data hsize] at h
      exact room_iff.mp h.2 hwhy
    rw [Tree.make_fails c hno, hsame.tree_eq hI]
  | made M L =>
    have hnode := M.nodeOf_eq L hsize
    have htree := L.tree_eq hI hfree hU hp (by rw [hnode, blocks_ofData data hsize, M.count])
    have hroom : s.tree.Room (Node.ofData data size.toNat).blocks := by
      rw [blocks_ofData data hsize, room_iff]
      exact M.toTaken.room M.count.ge
    rw [hnode] at htree
    rw [Tree.make_eq c ((hI.isDirectory_iff hp).mpr hd) hroom, htree]

theorem Cleared.tree_eq (hnot : ∀ e, s.lookup p c = some e → ¬ s.IsDir e) (C : Cleared s p c s') :
    s'.tree = s.tree.clear pos c := by
  unfold Tree.clear
  cases C with
  | @deleted _ f j hf R =>
    have hdots : ¬ IsDots c := by
      have hu := R.parentDir
      rintro (rfl | rfl)
      · rw [hI.lookup_dot hu] at hf
        cases hf
        exact R.file.not_isDir hu.isDir
      · rw [hI.lookup_dotdot hu] at hf
        cases hf
        exact R.file.not_isDir (hI.shape.parents p hu.isDir.live)
    have hplace : PlaceOf s (pos ++ [c]) f := placeOf_concat.mpr ⟨p, hp, hdots, hf⟩
    rw [R.tree_eq hI hU hplace (hI.blocks_nodeOf R.file), hplace.node, nodeOf_file R.file]
  | kept h =>
    have hnone : s.lookup p c = none := by
      cases hl : s.lookup p c with
      | none => rfl
      | some e => exact absurd (h e hl) (hnot e hl)
    rw [hp.node_child hnone]

end Making

/-! ## Parents -/

theorem resolve_too_long {s : FsState} {cs : List FileName} (h : ∃ c ∈ cs, fsMaxFilename ≤ c.length) :
    s.resolve cs = none := by
  obtain ⟨c, hc, hlong⟩ := h
  obtain ⟨as, bs, rfl⟩ := List.append_of_mem hc
  rw [resolve_append]
  cases s.resolve as with
  | none => rfl
  | some d => rw [Option.bind_some, walk_cons, lookup_long hlong, Option.bind_none]

namespace Mkdirs

variable {s s' : FsState} {cs : List FileName} {q : Option UInt32}

/-- Nothing is made for a path with a name that is too long. -/
theorem too_long (M : Mkdirs s cs q s') (h : ∃ c ∈ cs, fsMaxFilename ≤ c.length) :
    q = none ∧ s' = s := by
  have hrest : ∀ {ds : List FileName} {c : FileName}, (∃ a ∈ ds ++ [c], fsMaxFilename ≤ a.length) →
      NameOk c → ∃ a ∈ ds, fsMaxFilename ≤ a.length := by
    rintro ds c ⟨a, ha, hlong⟩ hname
    rcases List.mem_append.mp ha with ha | ha
    · exact ⟨a, ha, hlong⟩
    · rw [List.mem_singleton.mp ha] at hlong
      exact absurd hname.short (Nat.not_lt.mpr hlong)
  induction M with
  | found hr => exact absurd (hr.symm.trans (resolve_too_long h)) (by simp)
  | rejected => exact ⟨rfl, rfl⟩
  | orphaned _ _ hname _ ih => exact ⟨rfl, (ih (hrest h hname)).2⟩
  | refused _ hname _ _ _ ih | made _ hname _ _ _ ih =>
    exact absurd (ih (hrest h hname)).1 (by simp)

theorem descends (hI : Inv s) (hU : NamesUnique s) (M : Mkdirs s cs q s') (hP : Plain s cs)
    (hshort : ∀ c ∈ cs, c.length < fsMaxFilename) :
    ∃ q', cs.foldl Tree.descend (some [], s.tree) = (q', s'.tree) ∧
      Option.Rel (PlaceOf s') q' q := by
  induction M with
  | found hr =>
    obtain ⟨pos, hf, hp⟩ := hI.find_of_resolve hr
    exact ⟨some pos, Tree.foldl_descend hf, .some hp⟩
  | rejected _ hlong => exact absurd (hshort _ (by simp)) (Nat.not_lt.mpr hlong)
  | orphaned _ _ _ _ ih =>
    obtain ⟨q', hfold, hrel⟩ := ih hP.left fun c hc => hshort c (List.mem_append_left _ hc)
    cases hrel
    exact ⟨none, by rw [List.foldl_concat, hfold]; rfl, .none⟩
  | @refused ds c p s1 s2 hnone _ M hsame hwhy ih =>
    obtain ⟨q', hfold, hrel⟩ := ih hP.left fun c hc => hshort c (List.mem_append_left _ hc)
    cases hrel with
    | @some pos _ hp =>
      have hI1 := M.inv hI
      have hstep := hI1.step_rel hp c
      rw [M.name_free hI hP hnone] at hstep
      have hno : ¬ (s1.tree.IsDirectory pos ∧ s1.tree.Room Node.dir.blocks) := by
        rw [hI1.isDirectory_iff hp, room_iff]
        exact fun h => hwhy.elim (fun h' => h' h.1) h.2
      refine ⟨none, ?_, .none⟩
      rw [List.foldl_concat, hfold, Tree.descend, eq_none_of_rel hstep]
      simp only [Tree.make_fails c hno]
      rw [if_neg (by decide), hsame.tree_eq hI1]
  | @made ds c p n b i s1 s2 hnone hname M hd hmade ih =>
    obtain ⟨q', hfold, hrel⟩ := ih hP.left fun c hc => hshort c (List.mem_append_left _ hc)
    cases hrel with
    | @some pos _ hp =>
      have hI1 := M.inv hI
      have hU1 := M.namesUnique hI hP.left hU
      have hfree := M.name_free hI hP hnone
      have L := hmade.isLinked hd hname
      have hI2 := L.inv hI1
      have hstep := hI1.step_rel hp c
      rw [hfree] at hstep
      have hnode := hmade.nodeOf_eq hd hname
      have htree := L.tree_eq hI1 hfree hU1 hp (by rw [hnode]; rfl)
      rw [hnode] at htree
      have hp2 : PlaceOf s2 pos p := (L.placeOf_iff hI1 hfree).mpr (.inl hp)
      refine ⟨s2.tree.step pos c, ?_, ?_⟩
      · rw [List.foldl_concat, hfold, Tree.descend, eq_none_of_rel hstep]
        simp only [Tree.make_eq c (v := .dir) ((hI1.isDirectory_iff hp).mpr hd)
          (room_iff.mpr hmade.room), if_true, htree]
      · rw [resolve_concat, L.resolve_old hI1 hfree M.resolve, Option.bind_some]
        exact hI2.step_rel hp2 c

/-- **The missing directories are made on the tree.** -/
theorem parents_eq (hI : Inv s) (hU : NamesUnique s) (M : Mkdirs s cs q s') (hP : Plain s cs) :
    ∃ q', s.tree.parents cs = (q', s'.tree) ∧ Option.Rel (PlaceOf s') q' q := by
  unfold Tree.parents
  by_cases hlong : ∃ c ∈ cs, fsMaxFilename ≤ c.length
  · obtain ⟨rfl, rfl⟩ := M.too_long hlong
    rw [if_pos hlong, hI.find_eq_none_iff.mpr (resolve_too_long hlong)]
    exact ⟨none, rfl, .none⟩
  · rw [if_neg hlong]
    refine M.descends hI hU hP fun c hc => ?_
    by_contra hc'
    exact hlong ⟨c, hc, Nat.not_lt.mp hc'⟩

end Mkdirs

/-! ## The calls -/

section Calls

variable {s : FsState} (hI : Inv s)
include hI

theorem fsCreateDir_cases {path : List UInt8} (h0 : ∀ c ∈ comps path, 0 ∉ c) {ds : List FileName}
    {c : FileName} (hpath : comps path = ds ++ [c]) (hc : c.length < fsMaxFilename)
    (hnone : s.resolve (ds ++ [c]) = none) : NameOk c ∧ ∃ q s1, Mkdirs s ds q s1 ∧
      ((q = none ∧ fsCreateDir path s = (-1, s1)) ∨
        ∃ p, q = some p ∧ fsCreateDir path s = makeDir p c s1) := by
  have hs := hI.perfect
  have hseg := comps_mem_segment hpath
  have hnz : c.length ≠ 0 := fun h => hseg.1 (List.length_eq_zero_iff.mp h)
  refine ⟨⟨hseg, h0 c (by rw [hpath]; simp), hc⟩, ?_⟩
  unfold fsCreateDir createDirDepth createDirStep
  rw [splitPath_concat hpath]
  simp only
  rw [if_neg (by omega), FsM.bind_eq (findInodeByPath_eq hs path), hpath, hnone, Option.getD_none,
    if_neg (not_not.mpr rfl), FsM.bind_eq (findInodeByPath_parent hs hpath)]
  cases hparent : s.resolve ds with
  | some p =>
    rw [Option.getD_some, if_neg (hI.resolve_ne_noNumber hparent)]
    exact ⟨some p, s, .found hparent, .inr ⟨p, rfl, rfl⟩⟩
  | none =>
    have hds : ds ≠ [] := by rintro rfl; cases hparent
    have hcomps := comps_parent hpath
    have hcanon : canon slash ds ≠ [slash] := fun e => hds (by rw [← hcomps, e]; rfl)
    have hlen := length_components slash path
    change (comps path).length ≤ _ at hlen
    rw [hpath, List.length_append, List.length_singleton] at hlen
    rw [Option.getD_none, if_pos rfl, if_pos hcanon]
    obtain ⟨r, q, s1, hrun, M, hret⟩ := createDirDepth_mkdirs hI path.length (canon slash ds)
      (fun d hd => h0 d (by rw [hcomps] at hd; rw [hpath]; simp [hd])) (by rw [hcomps]; omega)
    rw [hcomps] at M hret
    rw [FsM.bind_eq hrun]
    refine ⟨q, s1, M, ?_⟩
    rcases hret with ⟨rfl, hq⟩ | ⟨rfl, hq⟩
    · have hI1 := M.inv hI
      rw [if_neg (not_not.mpr rfl), FsM.bind_eq (findInodeByPath_parent hI1.perfect hpath), ← hq]
      cases q with
      | none => exact .inl ⟨rfl, rfl⟩
      | some p =>
        rw [Option.getD_some, if_neg (hI1.resolve_ne_noNumber M.resolve)]
        exact .inr ⟨p, rfl, rfl⟩
    · rw [if_pos (by decide)]
      exact .inl ⟨hq hds, rfl⟩

variable (hU : NamesUnique s)

include hU in
/-- **`fs_create_dir` on the tree.** -/
theorem fsCreateDir_tree {path : List UInt8} (h0 : ∀ c ∈ comps path, 0 ∉ c)
    (hP : Plain s (comps path)) : s.tree.createDir (comps path) =
      ((fsCreateDir path s).1, (fsCreateDir path s).2.tree) := by
  rcases comps_cases path with hroot | ⟨ds, c, hpath⟩
  · rw [hroot, fsCreateDir_root hroot]
    rfl
  rw [hpath] at hP ⊢
  rw [Tree.createDir_concat]
  by_cases hlong : fsMaxFilename ≤ c.length
  · have hrun : fsCreateDir path s = (-1, s) := by
      unfold fsCreateDir createDirDepth createDirStep
      rw [splitPath_concat hpath]
      simp only
      rw [if_pos (.inr hlong)]
      rfl
    rw [if_pos hlong, hrun]
  rw [if_neg hlong]
  cases hres : s.resolve (ds ++ [c]) with
  | some e =>
    rw [if_pos (mt hI.find_eq_none_iff.mp (by rw [hres]; simp)),
      fsCreateDir_existing hI hpath (hpath ▸ hres)]
  | none =>
    rw [if_neg (not_not.mpr (hI.find_eq_none_iff.mpr hres))]
    obtain ⟨hname, q, s1, M, hcase⟩ := fsCreateDir_cases hI h0 hpath (Nat.not_le.mp hlong) hres
    obtain ⟨q', hparents, hrel⟩ := M.parents_eq hI hU hP.left
    rw [hparents]
    rcases hcase with ⟨rfl, hrun⟩ | ⟨p, rfl, hrun⟩
    · cases hrel
      rw [hrun]
    · cases hrel with
      | some hp =>
        rw [hrun]
        exact makeDir_tree (M.inv hI) (M.namesUnique hI hP.left hU) hp hname
          (M.name_free hI hP hres)

include hU in
/-- **`fs_create_file` on the tree.** -/
theorem fsCreateFile_tree {path : List UInt8} (h0 : ∀ c ∈ comps path, 0 ∉ c) (data : Memory)
    (size : UInt32) (hP : Plain s (comps path)) (hnot : ¬ s.IsDir (findInodeByPath path s).1) :
    s.tree.createFile (comps path) data size.toNat =
      ((fsCreateFile path data size s).1, (fsCreateFile path data size s).2.tree) := by
  rcases fsCreateFile_cases hI h0 data size with
    ⟨hrun, hwhy⟩ | ⟨ds, c, q, s1, hpath, hc, hsize, M, -, hcase⟩
  · rw [hrun]
    rcases comps_cases path with hroot | ⟨ds, c, hpath⟩
    · rw [hroot]
      rfl
    · rw [hpath, Tree.createFile_concat, if_pos]
      exact hwhy.imp UInt32.lt_iff_toNat_lt.mp fun h => h ds c hpath
  rw [hpath] at hP ⊢
  rw [Tree.createFile_concat, if_neg]
  swap
  · rw [not_or, Nat.not_lt, Nat.not_le]
    exact ⟨UInt32.le_iff_toNat_le.mp hsize, hc.short⟩
  obtain ⟨q', hparents, hrel⟩ := M.parents_eq hI hU hP.left
  rw [hparents]
  have hI1 := M.inv hI
  have hU1 := M.namesUnique hI hP.left hU
  rcases hcase with ⟨rfl, hrun⟩ | ⟨p, rfl, hrun⟩
  · cases hrel
    rw [hrun]
  cases hrel with
  | some hp =>
    rw [hrun]
    simp only
    rcases replaceFile_cases hI1 hpath hc M.resolve data hsize with
      ⟨hno, hrun'⟩ | ⟨hd, s2, r, s', C, hM, hrun'⟩
    · rw [if_neg (mt (hI1.isDirectory_iff hp).mp hno), hrun']
    rw [findInodeByPath_eq hI.perfect, hpath] at hnot
    have hfile : ∀ e, s1.lookup p c = some e → ¬ s1.IsDir e := fun e he =>
      M.not_isDir_of_lookup hI hP hnot he
    have hp2 : PlaceOf s2 _ p := ⟨hp.1, C.resolve_dir hI1 hp.2 hd⟩
    rw [if_pos ((hI1.isDirectory_iff hp).mpr hd), ← C.tree_eq hI1 hU1 hp hfile, hrun']
    exact hM.tree_eq (C.inv hI1) (C.namesUnique hI1 hU1) hp2 (C.isDir hd)
      (C.lookup_none hI1 hU1 hfile) hsize

include hU in
/-- **`fs_delete_file` on the tree.** -/
theorem fsDeleteFile_tree (path : List UInt8) : s.tree.deleteFile (comps path) =
    ((fsDeleteFile path s).1, (fsDeleteFile path s).2.tree) := by
  unfold Tree.deleteFile
  by_cases hfile : ∃ f, s.resolve (comps path) = some f ∧ s.IsFile f
  case neg =>
    rw [fsDeleteFile_fails hI fun f hr hf => hfile ⟨f, hr, hf⟩]
    cases hr : s.resolve (comps path) with
    | none => rw [hI.find_eq_none_iff.mpr hr]
    | some i =>
      obtain ⟨pos, hfind, hp⟩ := hI.find_of_resolve hr
      rw [hfind]
      simp only
      rw [hp.node]
      split
      · next hn =>
        exact absurd ⟨i, hr, isFile_of_nodeOf hI (hI.resolve_live hr) (Option.some.inj hn)⟩ hfile
      · rfl
  obtain ⟨f, hr, hf⟩ := hfile
  obtain ⟨pos, hfind, hp⟩ := hI.find_of_resolve hr
  rcases comps_cases path with hroot | ⟨ds, c, hpath⟩
  · rw [hroot, resolve_nil, hI.shape.root] at hr
    cases hr
    exact absurd hI.shape.rootDir.1 hf.not_isDir
  rw [hfind]
  simp only
  rw [hp.node, nodeOf_file hf]
  rw [hpath, resolve_concat] at hr
  obtain ⟨p, hds, hl⟩ := Option.bind_eq_some_iff.mp hr
  obtain ⟨s', j, hrun, R⟩ := fsDeleteFile_removes hI hpath hds hl hf
  rw [hrun, R.tree_eq hI hU hp (hI.blocks_nodeOf hf), nodeOf_file hf]

end Calls

end EphemeralOS
