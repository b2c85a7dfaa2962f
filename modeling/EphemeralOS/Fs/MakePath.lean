import EphemeralOS.Fs.WriteThrough
import EphemeralOS.Fs.Visible

/-!
# Making a whole path

`fs_create_dir` makes the missing parents of its path, one level of recursion
for each, and re-resolves the path on the way back. When there is room it makes
the whole path (`path_made_iff`), unless the directory it starts from has only
its last slot free: the disk does not keep that entry.
-/

namespace EphemeralOS

open Path Directory Run

/-- `fs_create_dir` does not depend on the call on the parent path when there is none, and depends
on that call alone otherwise. -/
theorem createDirStep_congr {f g : List UInt8 → FsM Int} {path : List UInt8} {s : FsState}
    (hs : s.disk.Perfect)
    (h : ∀ ds c, comps path = ds ++ [c] → f (canon slash ds) s = g (canon slash ds) s) :
    createDirStep f path s = createDirStep g path s := by
  unfold createDirStep
  rcases comps_cases path with hroot | ⟨ds, c, hpath⟩
  · rw [splitPath_root hroot]
    rfl
  rw [splitPath_concat hpath]
  dsimp only
  split <;> [rfl; skip]
  rw [FsM.bind_eq (findInodeByPath_eq hs path), FsM.bind_eq (findInodeByPath_eq hs path)]
  split <;> [rfl; skip]
  rw [FsM.bind_eq (findInodeByPath_parent hs hpath), FsM.bind_eq (findInodeByPath_parent hs hpath)]
  split <;> [skip; rfl]
  split <;> [skip; rfl]
  show (f (canon slash ds) >>= _) s = (g (canon slash ds) >>= _) s
  exact FsM.bind_eq (h ds c hpath) _

/-- **The recursion ends**: a depth of more than the number of components is as good as any
other. -/
theorem createDirDepth_enough {s : FsState} (hs : s.disk.Perfect) {depth depth' : Nat}
    {path : List UInt8} (h : (comps path).length < depth) (h' : (comps path).length < depth') :
    createDirDepth depth path s = createDirDepth depth' path s := by
  induction depth generalizing depth' path with
  | zero => exact absurd h (Nat.not_lt_zero _)
  | succ depth ih =>
    cases depth' with
    | zero => exact absurd h' (Nat.not_lt_zero _)
    | succ depth' =>
      refine createDirStep_congr hs fun ds c hpath => ?_
      rw [hpath, List.length_append, List.length_singleton] at h h'
      have hcomps := comps_parent hpath
      exact ih (by rw [hcomps]; omega) (by rw [hcomps]; omega)

/-! ## What a path's directories take -/

/-- `k` inodes and `k` blocks have become used, and none free. -/
structure Takes (s s' : FsState) (k : Nat) : Prop where
  freeNumbers : s'.freeNumbers ⊆ s.freeNumbers
  clearBlocks : s'.clearBlocks ⊆ s.clearBlocks
  inodes : s'.freeNumbers.card + k = s.freeNumbers.card
  blocks : s'.clearBlocks.card + k = s.clearBlocks.card

theorem Linked.subset {s s' : FsState} {n p : UInt32} {name : List UInt8} {v : Inode}
    {bs : List UInt32} {i : Fin 15} (L : Linked s s' n p name v bs i) :
    s'.freeNumbers ⊆ s.freeNumbers ∧ s'.clearBlocks ⊆ s.clearBlocks := by
  refine ⟨fun j hj => ?_, fun b hb => ?_⟩
  · obtain ⟨hj, hfree⟩ := mem_freeNumbers.mp hj
    have hne : j ≠ n := fun e => L.new_live.2 (e ▸ hfree)
    rw [L.inode_ne hne] at hfree
    exact mem_freeNumbers.mpr ⟨hj, hfree⟩
  · obtain ⟨hb, hclear⟩ := mem_clearBlocks.mp hb
    rw [L.bits, Bool.or_eq_false_iff] at hclear
    exact mem_clearBlocks.mpr ⟨hb, hclear.2⟩

theorem missing_cases {as ds ms : List (List UInt8)} {m c : List UInt8}
    (h : ds ++ [c] = as ++ m :: ms) : (ds = as ∧ c = m) ∨ ∃ ms', ds = (as ++ [m]) ++ ms' := by
  rcases List.eq_nil_or_concat ms with rfl | ⟨ms', c', rfl⟩
  · obtain ⟨hds, hc⟩ := List.append_inj' h rfl
    exact .inl ⟨hds, (List.cons.inj hc).1⟩
  · rw [List.concat_eq_append, ← List.cons_append, ← List.append_assoc] at h
    obtain ⟨hds, -⟩ := List.append_inj' h rfl
    exact .inr ⟨ms', by rw [hds, List.append_cons]⟩

namespace Mkdirs

variable {s s' : FsState} {cs : List (List UInt8)} {q : Option UInt32} (M : Mkdirs s cs q s')
include M

theorem subset : s'.freeNumbers ⊆ s.freeNumbers ∧ s'.clearBlocks ⊆ s.clearBlocks := by
  induction M with
  | found | rejected => exact ⟨Finset.Subset.refl _, Finset.Subset.refl _⟩
  | orphaned _ _ _ _ ih => exact ih
  | refused _ _ _ hsame _ ih => rwa [hsame.freeNumbers, hsame.clearBlocks]
  | made _ hname _ hd hmade ih =>
    have h := (hmade.isLinked hd hname).subset
    exact ⟨h.1.trans ih.1, h.2.trans ih.2⟩

theorem resolve_old (hI : Inv s) (hP : Plain s cs) {ds : List (List UInt8)} {e : UInt32}
    (h : s.resolve ds = some e) : s'.resolve ds = some e := by
  induction M with
  | found | rejected => exact h
  | orphaned _ _ _ _ ih => exact ih hP.left
  | refused _ _ M hsame _ ih => rw [hsame.agree.resolve (M.inv hI), ih hP.left]
  | made hnone hname M hd hmade ih =>
    exact (hmade.isLinked hd hname).resolve_old (M.inv hI) (M.name_free hI hP hnone) (ih hP.left)

/-- **Where only the last slot is free, the first missing directory stays missing.** -/
theorem lost (hI : Inv s) {as : List (List UInt8)} {m : List UInt8} {p : UInt32}
    (hp : s.resolve as = some p) (hmissing : s.resolve (as ++ [m]) = none)
    (hslot : ∀ j, s.slots p j = none → j = 14) {ms : List (List UInt8)} (hcs : cs = as ++ m :: ms) :
    s'.resolve (as ++ [m]) = none := by
  -- a directory that is there is not below one that is not
  have hbelow : ∀ {t : FsState} {ds ms' : List (List UInt8)} {d : UInt32},
      ds = (as ++ [m]) ++ ms' → t.resolve ds = some d → t.resolve (as ++ [m]) ≠ none := by
    rintro t ds ms' d rfl hd hnone
    rw [resolve_append, hnone] at hd
    cases hd
  induction M generalizing ms with
  | found h =>
    rw [List.append_cons] at hcs
    exact absurd hmissing (hbelow hcs h)
  | rejected => exact hmissing
  | orphaned _ hds _ _ ih =>
    rcases missing_cases hcs with ⟨rfl, -⟩ | ⟨ms', h⟩
    · rw [hp] at hds
      cases hds
    · exact ih (by rw [h, List.append_assoc]; rfl)
  | refused _ _ M hsame _ ih =>
    rcases missing_cases hcs with ⟨rfl, -⟩ | ⟨ms', h⟩
    · obtain ⟨-, rfl⟩ := M.of_resolve hp
      rw [hsame.agree.resolve hI, hmissing]
    · exact absurd (ih (by rw [h, List.append_assoc]; rfl)) (hbelow h M.resolve)
  | made _ hname M hd hmade ih =>
    rcases missing_cases hcs with ⟨rfl, rfl⟩ | ⟨ms', h⟩
    · obtain ⟨hdp, rfl⟩ := M.of_resolve hp
      cases hdp
      rw [resolve_concat, hp] at hmissing
      exact (hmade.isLinked hd hname).resolve_lost hI hp (fun _ => hslot _ hmade.empty) hmissing
    · exact absurd (ih (by rw [h, List.append_assoc]; rfl)) (hbelow h M.resolve)

end Mkdirs

/-! ## The path made -/

theorem Inv.lookup_dot {s : FsState} (hI : Inv s) {d : UInt32} (hd : s.UsableDir d) :
    s.lookup d (ascii ".") = some d := by
  rw [hI.lookup_eq hd (by decide), find_eq_some_iff]
  exact ⟨0, (hI.entries d hd).dot, fun j hj => absurd hj (Fin.not_lt_zero j)⟩

theorem Inv.lookup_dotdot {s : FsState} (hI : Inv s) {d : UInt32} (hd : s.UsableDir d) :
    s.lookup d (ascii "..") = some (s.inodeTable d).parentInode := by
  rw [hI.lookup_eq hd (by decide), find_eq_some_iff]
  refine ⟨1, (hI.entries d hd).dotdot, fun j hj e' he => ?_⟩
  have hne : ascii "." ≠ ascii ".." := by decide
  obtain rfl : j = 0 := by omega
  rw [(hI.entries d hd).dot, Option.some.injEq, Prod.mk.injEq] at he
  exact hne he.1

/-- What a name leads to has that directory for its parent. -/
theorem Inv.parent_of_lookup {s : FsState} (hI : Inv s) {p e : UInt32} {c : List UInt8}
    (h : s.lookup p c = some e) (hc : ¬ IsDots c) : (s.inodeTable e).parentInode = p := by
  obtain ⟨-, hp, hf⟩ := Inv.lookup_some h
  obtain ⟨j, hj⟩ := exists_slot_of_find hf
  have hE := hI.entries p hp
  rcases lt_or_ge j 2 with hj2 | hj2
  · have : j = 0 ∨ j = 1 := by omega
    rcases this with rfl | rfl
    · rw [hE.dot] at hj
      cases hj
      exact absurd (.inl rfl) hc
    · rw [hE.dotdot] at hj
      cases hj
      exact absurd (.inr rfl) hc
  · exact (hE.entry j c e hj2 hj).2.2.2

/-- What `fs_create_dir` is to leave of a path with `k` components missing. -/
structure PathMade (path : List UInt8) (k : Nat) (s s' : FsState) : Prop where
  takes : Takes s s' k
  prefixes : ∀ q, comps q <+: comps path → s'.IsDir (findInodeByPath q s').1
  dots : ∀ parent q c, comps q <+: comps path → comps q = comps parent ++ [c] →
    (findInodeByPath q s).1 = noNumber →
      s'.slots (findInodeByPath q s').1 0 = some (ascii ".", (findInodeByPath q s').1) ∧
      s'.slots (findInodeByPath q s').1 1 = some (ascii "..", (findInodeByPath parent s').1)
  kept : ∀ q, (findInodeByPath q s).1 ≠ noNumber →
    (findInodeByPath q s').1 = (findInodeByPath q s).1

/-- `fs_create_dir` ends, returns 0 and makes the path. -/
def MakesPath (path : List UInt8) (k : Nat) (s : FsState) : Prop :=
  (∀ depth, (comps path).length < depth → createDirDepth depth path s = fsCreateDir path s) ∧
    (fsCreateDir path s).1 = 0 ∧ PathMade path k s (fsCreateDir path s).2

/-- Everything on a path to a directory with a block is one. -/
theorem usable_on_way {s : FsState} {y e : UInt32} (he : s.UsableDir e) {es : List (List UInt8)}
    (h : walk s.lookup y es = some e) : s.UsableDir y := by
  cases es with
  | nil =>
    cases h
    exact he
  | cons c es =>
    obtain ⟨z, hz, -⟩ := Option.bind_eq_some_iff.mp h
    exact (Inv.lookup_some hz).2.1

/-- A path that leads to a directory now, and to what it led to before, has been made. -/
theorem PathMade.of_resolve {s s' : FsState} (hI : Inv s) (hI' : Inv s') {path : List UInt8}
    {k : Nat} {n : UInt32} (hdots : ∀ c ∈ comps path, ¬ IsDots c) (hT : Takes s s' k)
    (hres : s'.resolve (comps path) = some n) (hu : s'.UsableDir n)
    (hkept : ∀ ds e, s.resolve ds = some e → s'.resolve ds = some e) : PathMade path k s s' := by
  have hway : ∀ q, comps q <+: comps path → ∃ e, s'.resolve (comps q) = some e ∧
      (findInodeByPath q s').1 = e ∧ s'.UsableDir e := by
    rintro q ⟨es, hes⟩
    rw [← hes, resolve_append] at hres
    obtain ⟨e, he, hwalk⟩ := Option.bind_eq_some_iff.mp hres
    exact ⟨e, he, findInodeByPath_of_resolve hI' he, usable_on_way hu hwalk⟩
  refine ⟨hT, fun q hq => ?_, fun parent q c hq hparent _ => ?_, fun q hq => ?_⟩
  · obtain ⟨e, -, hfind, he⟩ := hway q hq
    rw [hfind]
    exact he.isDir
  · obtain ⟨e, heq, hfind, he⟩ := hway q hq
    obtain ⟨p, hp, hfindp, -⟩ := hway parent ((hparent ▸ List.prefix_append _ _).trans hq)
    rw [hfind, hfindp]
    have hc : ¬ IsDots c := hdots c (hq.subset (by
      rw [hparent]
      exact List.mem_append_right _ (List.mem_singleton_self c)))
    rw [hparent, resolve_concat, hp] at heq
    have hE := hI'.entries e he
    rw [hE.dotdot, hI'.parent_of_lookup heq hc]
    exact ⟨hE.dot, rfl⟩
  · rw [findInodeByPath_eq hI.perfect] at hq ⊢
    cases hres : s.resolve (comps q) with
    | none =>
      rw [hres] at hq
      exact absurd rfl hq
    | some e => exact findInodeByPath_of_resolve hI' (hkept _ e hres)

/-- `q` is the longest prefix of `path` that leads somewhere. -/
structure LongestFound (s : FsState) (path q : List UInt8) : Prop where
  isPrefix : comps q <+: comps path
  longest : ∀ q', comps q' <+: comps path → (findInodeByPath q' s).1 ≠ noNumber →
    (comps q').length ≤ (comps q).length

/-- Each prefix of a path has a path of its own. -/
theorem comps_canon {path : List UInt8} {cs : List (List UInt8)} (h : cs <+: comps path) :
    comps (canon slash cs) = cs :=
  components_canon fun c hc => components_segment slash path c (h.subset hc)

theorem LongestFound.missing {s : FsState} (hI : Inv s) {path q : List UInt8}
    (hq : LongestFound s path q) {m : List UInt8} (hm : comps q ++ [m] <+: comps path) :
    s.resolve (comps q ++ [m]) = none := by
  have hcomps := comps_canon hm
  cases hres : s.resolve (comps q ++ [m]) with
  | none => rfl
  | some e =>
    have hfind := findInodeByPath_of_resolve hI (hcomps ▸ hres)
    have hle := hq.longest (canon slash (comps q ++ [m])) (hcomps.symm ▸ hm)
      (by rw [hfind]; exact hI.resolve_ne_noNumber hres)
    rw [hcomps, List.length_append, List.length_singleton] at hle
    omega

theorem fsCreateDir_root {path : List UInt8} (h : comps path = []) (s : FsState) :
    fsCreateDir path s = (-1, s) := by
  unfold fsCreateDir createDirDepth createDirStep
  rw [splitPath_root h]
  rfl

section Whole

variable {s : FsState} (hI : Inv s) {path : CStr} {q : List UInt8} (hq : LongestFound s path q)
  {p : UInt32} (hp : s.resolve (comps q) = some p) {k : Nat}
  (hk : (comps path).length = (comps q).length + k)
include hI hq hp hk

/-- A path made has a name, and a slot for the first one missing. -/
theorem MakesPath.slot (h : MakesPath path k s) :
    comps path ≠ [] ∧ (k = 0 ∨ ∃ j, j ≠ 14 ∧ s.slots p j = none) := by
  obtain ⟨ms, hms⟩ := hq.isPrefix
  obtain ⟨r, q', s', hrun, M, -⟩ := fsCreateDir_mkdirs hI path.comps_noNul
  have hI' := M.inv hI
  unfold MakesPath at h
  rw [hrun] at h
  obtain ⟨-, rfl, hmade⟩ := h
  refine ⟨fun hroot => ?_, ?_⟩
  · rw [fsCreateDir_root hroot] at hrun
    cases hrun
  by_contra hno
  rw [not_or, not_exists] at hno
  cases ms with
  | nil =>
    rw [← hms, List.append_nil] at hk
    exact hno.1 (by omega)
  | cons m ms =>
    have hm : comps q ++ [m] <+: comps path := ⟨ms, by rw [← hms, List.append_assoc]; rfl⟩
    have hlost := M.lost hI hp (hq.missing hI hm)
      (fun j hj => by_contra fun h14 => hno.2 j ⟨h14, hj⟩) hms.symm
    have hdir := hmade.prefixes (canon slash (comps q ++ [m])) ((comps_canon hm).symm ▸ hm)
    rw [findInodeByPath_eq hI'.perfect, comps_canon hm, hlost] at hdir
    exact noNumber_not_lt hdir.1

/-- With these and room for as many directories it is made. -/
theorem Inv.makesPath (hnames : ∀ c ∈ comps path, c.length ≤ 27 ∧ ¬ IsDots c)
    (hu : s.UsableDir p) (hinodes : k ≤ s.freeNumbers.card) (hblocks : k ≤ s.clearBlocks.card)
    (hne : comps path ≠ []) (hslot : k = 0 ∨ ∃ j, j ≠ 14 ∧ s.slots p j = none) :
    MakesPath path k s := by
  obtain ⟨ms, hms⟩ := hq.isPrefix
  have hlen : ms.length = k := by
    rw [← hms, List.length_append] at hk
    omega
  have hdots : ∀ c ∈ comps path, ¬ IsDots c := fun c hc => (hnames c hc).2
  have hP : Plain s (comps path) := plain_of_no_dots hdots
  obtain ⟨r, q', s', hrun, M, hret⟩ := fsCreateDir_mkdirs hI path.comps_noNul
  have hI' := M.inv hI
  unfold MakesPath
  rw [hrun]
  refine ⟨fun depth hdepth => (createDirDepth_enough hI.perfect hdepth
    (Nat.lt_succ_of_le (length_components slash _))).trans hrun, ?_⟩
  have hkept : ∀ ds e, s.resolve ds = some e → s'.resolve ds = some e :=
    fun ds e he => M.resolve_old hI hP he
  cases ms with
  | nil =>
    rw [List.append_nil] at hms
    rw [hms] at hp
    rcases comps_cases path with hroot | ⟨ds, c, hpath⟩
    · exact absurd hroot hne
    cases (fsCreateDir_existing hI hpath hp).symm.trans hrun
    subst hlen
    exact ⟨rfl, .of_resolve hI hI hdots
      ⟨Finset.Subset.refl _, Finset.Subset.refl _, Nat.add_zero _, Nat.add_zero _⟩ hp hu hkept⟩
  | cons m ms =>
    have hm : comps q ++ [m] <+: comps path := ⟨ms, by rw [← hms, List.append_assoc]; rfl⟩
    have hk0 : k ≠ 0 := by
      rw [← hlen]
      exact Nat.succ_ne_zero _
    have hmissing : Missing s (comps q) m ms p :=
      ⟨hp, hq.missing hI hm, fun c hc => by
        have := (hnames c (by rw [← hms]; exact List.mem_append_right _ hc)).1
        exact show c.length < 28 by omega⟩
    have A := M.allMade hI hP hu (hslot.resolve_left hk0) ms hms.symm hmissing (by omega)
      (by omega)
    obtain ⟨n, parent, rfl, hn, -⟩ := A.found
    have hr : r = 0 := by
      rcases hret with ⟨hr, -⟩ | ⟨-, hq⟩
      · exact hr
      · cases hq hne
    refine ⟨hr, .of_resolve hI hI' hdots ⟨M.subset.1, M.subset.2, ?_, ?_⟩ M.resolve hn hkept⟩
    · rw [← hlen]
      exact A.inodes
    · rw [← hlen]
      exact A.blocks

end Whole

theorem Inv.makesPath_iff {s : FsState} (hI : Inv s) {path : CStr}
    (hnames : ∀ c ∈ comps path, c.length ≤ 27 ∧ ¬ IsDots c) {q : List UInt8}
    (hq : LongestFound s path q) (hu : s.UsableDir (findInodeByPath q s).1) {k : Nat}
    (hk : (comps path).length = (comps q).length + k) (hinodes : k ≤ s.freeNumbers.card)
    (hblocks : k ≤ s.clearBlocks.card) :
    MakesPath path k s ↔
      comps path ≠ [] ∧ (k = 0 ∨ ∃ j, j ≠ 14 ∧ s.slots (findInodeByPath q s).1 j = none) := by
  obtain ⟨p, hp⟩ : ∃ p, s.resolve (comps q) = some p := by
    cases hres : s.resolve (comps q) with
    | none =>
      rw [findInodeByPath_eq hI.perfect, hres] at hu
      exact absurd hu.1 noNumber_not_lt
    | some p => exact ⟨p, rfl⟩
  rw [findInodeByPath_of_resolve hI hp] at hu ⊢
  exact ⟨fun h => h.slot hI hq hp hk, fun ⟨hne, hslot⟩ =>
    hI.makesPath hq hp hk hnames hu hinodes hblocks hne hslot⟩

/-- **`fs_create_dir` makes a whole path just when the first missing component does not go to the
last slot of its directory**, where there is room for as many directories. The root is not made. -/
theorem path_made_iff {s : FsState} (h : Reachable s) {path : CStr}
    (hnames : ∀ c ∈ comps path, c.length ≤ 27 ∧ ¬ IsDots c) {q : List UInt8}
    (hq : LongestFound s path q) (hu : s.UsableDir (findInodeByPath q s).1) {k : Nat}
    (hk : (comps path).length = (comps q).length + k) (hinodes : k ≤ s.freeNumbers.card)
    (hblocks : k ≤ s.clearBlocks.card) :
    MakesPath path k s ↔
      comps path ≠ [] ∧ (k = 0 ∨ ∃ j, j ≠ 14 ∧ s.slots (findInodeByPath q s).1 j = none) :=
  (Reachable.sound h).inv.makesPath_iff hnames hq hu hk hinodes hblocks

/-! ## Samples -/

/-- With a name missing at the root nothing longer is found. -/
theorem longestFound_root {s : FsState} (hI : Inv s) {path : CStr} {m : List UInt8}
    {ms : List (List UInt8)} (hpath : comps path = m :: ms) (hm : s.lookup 0 m = none) :
    LongestFound s path [slash] where
  isPrefix := List.nil_prefix
  longest q' hq' hfind := by
    cases hcs : comps q' with
    | nil => exact Nat.zero_le _
    | cons c cs =>
      rw [hcs, hpath, List.cons_prefix_cons] at hq'
      rw [findInodeByPath_eq hI.perfect, hcs, hq'.1] at hfind
      have hnone : s.resolve (m :: cs) = none := by
        show (s.lookup s.superblock.rootInode m).bind _ = none
        rw [hI.shape.root, hm]
        rfl
      rw [hnone] at hfind
      exact absurd rfl hfind

def deepPath : CStr := ⟨ascii "/a/b", by decide +kernel⟩

theorem sampleInstall_deepPath : MakesPath deepPath 2 sampleInstall := by
  have hI := sampleInstall_inv
  have hfind : (findInodeByPath [slash] sampleInstall).1 = 0 :=
    findInodeByPath_of_resolve hI (congrArg some hI.shape.root)
  refine (path_made_iff sampleInstall_reachable (by decide +kernel)
    (longestFound_root hI (show comps deepPath = ascii "a" :: [ascii "b"] by decide +kernel)
      sampleInstall_lookup_a) (hfind ▸ hI.usable_root) (by decide +kernel)
    (by rw [sampleInstall_freeNumbers]; omega) (by rw [sampleInstall_clearBlocks]; omega)).mpr
    ⟨by decide +kernel, .inr ⟨7, by decide, ?_⟩⟩
  rw [hfind, sampleInstall_slots]
  rfl

/-- A directory that would be the fifteenth entry of the root is lost. -/
theorem last_slot_dir_lost : ¬ ∀ (s : FsState) (path : CStr) (q : List UInt8) (k : Nat),
    Reachable s → comps path ≠ [] → (∀ c ∈ comps path, c.length ≤ 27 ∧ ¬ IsDots c) →
    LongestFound s path q → s.UsableDir (findInodeByPath q s).1 →
    (comps path).length = (comps q).length + k →
    (k > 0 → ∃ j, s.slots (findInodeByPath q s).1 j = none) →
    k ≤ s.freeNumbers.card → k ≤ s.clearBlocks.card → MakesPath path k s := by
  intro hall
  obtain ⟨s, h⟩ :=
    sampleInstall_filled.run (ascii "bcdefgh") (by decide +kernel) (by decide +kernel)
    (by decide +kernel)
  have hI := (Reachable.sound h.reachable).inv
  have hi := h.inodes
  have hb := h.blocks
  rw [show (ascii "bcdefgh").length = 7 by decide +kernel] at hi
  have hfind : (findInodeByPath [slash] s).1 = 0 :=
    findInodeByPath_of_resolve hI (congrArg some hI.shape.root)
  have hu : s.UsableDir (findInodeByPath [slash] s).1 := hfind ▸ hI.usable_root
  have hne : comps samplePath ≠ [] := by decide +kernel
  have hnames : ∀ c ∈ comps samplePath, c.length ≤ 27 ∧ ¬ IsDots c := by decide +kernel
  have hq := longestFound_root hI comps_samplePath (h.unused 97 List.mem_cons_self)
  have hlen : (comps samplePath).length = (comps [slash]).length + 1 := by decide +kernel
  have hmade := hall s samplePath [slash] 1 h.reachable hne hnames hq hu hlen
    (fun _ => ⟨14, slots_last_none _ _⟩) (by omega) (by omega)
  obtain ⟨j, hj, hjn⟩ := ((hI.makesPath_iff hnames hq hu hlen (by omega) (by omega)).mp
    hmade).2.resolve_left (by decide)
  rw [hfind] at hjn
  have := (h.used j).mp hjn
  simp only [show (ascii "bcdefgh").length = 7 by decide +kernel] at this
  omega

end EphemeralOS
