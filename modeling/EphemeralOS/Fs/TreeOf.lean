import EphemeralOS.Fs.Accounting
import EphemeralOS.Fs.MakePath
import EphemeralOS.Fs.Complete
import EphemeralOS.Fs.Tree

/-!
# The tree of a state

The places of the tree are the paths without `.` and `..`; what they lead to on
the disk stands there (`FsState.tree`). In states of the invariant an inode has
one place at most (`PlaceOf.inj`), and a path with any components leads to the
inode whose place it finds in the tree (`Inv.find_rel`).
-/

namespace EphemeralOS

open Path Directory

/-- A path that goes down only. -/
def Canonical (pos : List FileName) : Prop := ∀ c ∈ pos, ¬ IsDots c

instance (pos : List FileName) : Decidable (Canonical pos) := inferInstanceAs (Decidable (∀ c ∈ pos, _))

theorem canonical_nil : Canonical [] := fun _ h => absurd h List.not_mem_nil

theorem canonical_concat {pos : List FileName} {c : FileName} :
    Canonical (pos ++ [c]) ↔ Canonical pos ∧ ¬ IsDots c := by
  simp only [Canonical, List.mem_append, List.mem_singleton]
  exact ⟨fun h => ⟨fun a ha => h a (.inl ha), h c (.inr rfl)⟩,
    fun h a ha => ha.elim (h.1 a) fun e => e ▸ h.2⟩

namespace FsState

def content (s : FsState) (v : Inode) : List UInt8 :=
  (List.range (min v.size.toNat (12 * 512))).map (s.fileByte v)

def nodeOf (s : FsState) (i : UInt32) : Node :=
  let v := s.inodeTable i
  if v.type = inodeTypeFile then .file v.size.toNat (s.content v)
  else if ValidBlock (v.blocks 0) then .dir else .bare

def tree (s : FsState) : Tree where
  node pos := if Canonical pos then (s.resolve pos).map s.nodeOf else none
  inodes := s.freeNumbers.card
  blocks := s.clearBlocks.card

end FsState

@[simp] theorem tree_inodes (s : FsState) : s.tree.inodes = s.freeNumbers.card := by
  rw [FsState.tree]

@[simp] theorem tree_blocks (s : FsState) : s.tree.blocks = s.clearBlocks.card := by
  rw [FsState.tree]

def PlaceOf (s : FsState) (pos : List FileName) (i : UInt32) : Prop :=
  Canonical pos ∧ s.resolve pos = some i

section Nodes

variable {s : FsState} {i : UInt32}

theorem nodeOf_file (h : s.IsFile i) : s.nodeOf i =
    .file (s.inodeTable i).size.toNat (s.content (s.inodeTable i)) := if_pos h.2

theorem nodeOf_dir (h : s.IsDir i) :
    s.nodeOf i = if ValidBlock ((s.inodeTable i).blocks 0) then .dir else .bare :=
  if_neg (by rw [h.2]; decide)

theorem nodeOf_isDirectory (h : s.IsDir i) : (s.nodeOf i).IsDirectory := by
  rw [nodeOf_dir h]
  split <;> exact trivial

theorem nodeOf_usable (h : s.UsableDir i) : s.nodeOf i = .dir := by
  rw [nodeOf_dir h.isDir, if_pos h.2.2]

variable (hI : Inv s) (hi : s.Live i)
include hI hi

theorem nodeOf_isDirectory_iff : (s.nodeOf i).IsDirectory ↔ s.IsDir i := by
  refine ⟨fun h => (hI.shape.types i hi).resolve_left fun hf => ?_, nodeOf_isDirectory⟩
  rw [nodeOf_file hf] at h
  exact h

theorem nodeOf_eq_dir_iff : s.nodeOf i = .dir ↔ s.UsableDir i := by
  refine ⟨fun h => ?_, nodeOf_usable⟩
  have hd : s.IsDir i := (nodeOf_isDirectory_iff hI hi).mp (by rw [h]; trivial)
  refine ⟨hd.1, hd.2, ?_⟩
  rw [nodeOf_dir hd] at h
  by_contra hv
  rw [if_neg hv] at h
  cases h

theorem isFile_of_nodeOf {size : Nat} {content : List UInt8} (h : s.nodeOf i = .file size content) :
    s.IsFile i := by
  refine (hI.shape.types i hi).resolve_right fun hd => ?_
  have := nodeOf_isDirectory hd
  rw [h] at this
  exact this

end Nodes

section Places

variable {s : FsState} {pos : List FileName} {i : UInt32}

theorem PlaceOf.node (h : PlaceOf s pos i) : s.tree.node pos = some (s.nodeOf i) := by
  show (if Canonical pos then _ else _) = _
  rw [if_pos h.1, h.2]
  rfl

theorem node_eq_some {v : Node} (h : s.tree.node pos = some v) :
    ∃ i, PlaceOf s pos i ∧ s.nodeOf i = v := by
  change (if Canonical pos then (s.resolve pos).map s.nodeOf else none) = some v at h
  split at h
  · next hc =>
    obtain ⟨i, hr, hv⟩ := Option.map_eq_some_iff.mp h
    exact ⟨i, ⟨hc, hr⟩, hv⟩
  · cases h

theorem placeOf_nil (hI : Inv s) : PlaceOf s [] 0 :=
  ⟨canonical_nil, by rw [resolve_nil, hI.shape.root]⟩

theorem placeOf_concat {c : FileName} :
    PlaceOf s (pos ++ [c]) i ↔ ∃ p, PlaceOf s pos p ∧ ¬ IsDots c ∧ s.lookup p c = some i := by
  unfold PlaceOf
  rw [canonical_concat, resolve_concat, Option.bind_eq_some_iff]
  exact ⟨fun ⟨⟨hp, hc⟩, p, hr, hl⟩ => ⟨p, ⟨hp, hr⟩, hc, hl⟩,
    fun ⟨p, ⟨hp, hr⟩, hc, hl⟩ => ⟨⟨hp, hc⟩, p, hr, hl⟩⟩

theorem PlaceOf.node_child {p : UInt32} (h : PlaceOf s pos p) {c : FileName}
    (hfree : s.lookup p c = none) : s.tree.node (pos ++ [c]) = none := by
  by_contra hne
  obtain ⟨v, hv⟩ := Option.ne_none_iff_exists'.mp hne
  obtain ⟨e, he, -⟩ := node_eq_some hv
  obtain ⟨p', hp', -, hl⟩ := placeOf_concat.mp he
  obtain rfl : p = p' := Option.some.inj (h.2.symm.trans hp'.2)
  rw [hfree] at hl
  cases hl

/-- The entry that a name other than `.` and `..` is found at. -/
theorem Inv.entry_of_lookup (hI : Inv s) {p e : UInt32} {c : FileName} (h : s.lookup p c = some e)
    (hc : ¬ IsDots c) : ∃ j, 2 ≤ j ∧ s.slots p j = some (c, e) := by
  obtain ⟨-, hp, hf⟩ := Inv.lookup_some h
  obtain ⟨j, hj⟩ := exists_slot_of_find hf
  refine ⟨j, ?_, hj⟩
  by_contra hlt
  have hcases : j = 0 ∨ j = 1 := by omega
  rcases hcases with rfl | rfl
  · rw [(hI.entries p hp).dot] at hj
    cases hj
    exact hc (.inl rfl)
  · rw [(hI.entries p hp).dotdot] at hj
    cases hj
    exact hc (.inr rfl)

/-- **An inode has one place.** By induction on one of the paths: both come from the parent. -/
theorem PlaceOf.inj (hI : Inv s) {pos' : List FileName} (h : PlaceOf s pos i) (h' : PlaceOf s pos' i) :
    pos = pos' := by
  induction pos using List.reverseRecOn generalizing pos' i with
  | nil =>
    obtain rfl : i = 0 := Option.some.inj (h.2.symm.trans (placeOf_nil hI).2)
    rcases List.eq_nil_or_concat' pos' with rfl | ⟨qs, a, rfl⟩
    · rfl
    · obtain ⟨p, -, ha, hl⟩ := placeOf_concat.mp h'
      exact absurd hl (hI.lookup_ne_root ha)
  | append_singleton qs a ih =>
    obtain ⟨p, hp, ha, hl⟩ := placeOf_concat.mp h
    rcases List.eq_nil_or_concat' pos' with rfl | ⟨qs', a', rfl⟩
    · obtain rfl : i = 0 := Option.some.inj (h'.2.symm.trans (placeOf_nil hI).2)
      exact absurd hl (hI.lookup_ne_root ha)
    obtain ⟨p', hp', ha', hl'⟩ := placeOf_concat.mp h'
    obtain rfl : p = p' := (hI.parent_of_lookup hl ha).symm.trans (hI.parent_of_lookup hl' ha')
    obtain ⟨j, hj2, hj⟩ := hI.entry_of_lookup hl ha
    obtain ⟨k, hk2, hk⟩ := hI.entry_of_lookup hl' ha'
    have hu := (Inv.lookup_some hl).2.1
    obtain rfl := (hI.entries p hu).distinct j k a a' i hj2 hk2 hj hk
    rw [hj] at hk
    cases hk
    rw [ih hp hp']

end Places

/-! ## Finding -/

section Finding

variable {s : FsState} (hI : Inv s)
include hI

/-- **One step**: the entries of the tree are those on the disk. -/
theorem Inv.step_rel {pos : List FileName} {d : UInt32} (h : PlaceOf s pos d) (c : FileName) :
    Option.Rel (PlaceOf s) (s.tree.step pos c) (s.lookup d c) := by
  have hnode : s.tree.node pos = some .dir ↔ s.UsableDir d := by
    rw [h.node, Option.some.injEq, nodeOf_eq_dir_iff hI (hI.resolve_live h.2)]
  unfold Tree.step
  by_cases hu : s.UsableDir d
  case neg =>
    have hnone : s.lookup d c = none := by
      unfold FsState.lookup
      rw [if_neg fun hc => hu hc.2]
    rw [if_pos (mt hnode.mp hu), hnone]
    exact .none
  rw [if_neg (not_not.mpr (hnode.mpr hu))]
  by_cases hdot : c = ascii "."
  · rw [if_pos hdot, hdot, hI.lookup_dot hu]
    exact .some h
  rw [if_neg hdot]
  by_cases hdotdot : c = ascii ".."
  · rw [if_pos hdotdot, hdotdot, hI.lookup_dotdot hu]
    refine .some ?_
    rcases List.eq_nil_or_concat' pos with rfl | ⟨qs, a, rfl⟩
    · obtain rfl : d = 0 := Option.some.inj (h.2.symm.trans (placeOf_nil hI).2)
      rw [hI.shape.rootDir.2]
      exact h
    · obtain ⟨p, hp, ha, hl⟩ := placeOf_concat.mp h
      rw [List.dropLast_concat, hI.parent_of_lookup hl ha]
      exact hp
  rw [if_neg hdotdot]
  have hdots : ¬ IsDots c := not_or.mpr ⟨hdot, hdotdot⟩
  cases hl : s.lookup d c with
  | none =>
    rw [if_pos (h.node_child hl)]
    exact .none
  | some e =>
    have he : PlaceOf s (pos ++ [c]) e := placeOf_concat.mpr ⟨d, h, hdots, hl⟩
    rw [if_neg (by rw [he.node]; simp)]
    exact .some he

/-- **A path finds in the tree the place of the inode that it leads to.** -/
theorem Inv.find_rel (path : List FileName) :
    Option.Rel (PlaceOf s) (s.tree.find path) (s.resolve path) := by
  unfold Tree.find FsState.resolve
  rw [hI.shape.root]
  exact walk_rel (fun _ _ c h => hI.step_rel h c) (placeOf_nil hI) path

theorem Inv.find_eq_none_iff {path : List FileName} :
    s.tree.find path = none ↔ s.resolve path = none := by
  have h := hI.find_rel path
  constructor
  · intro hf
    rw [hf] at h
    cases hr : s.resolve path with
    | none => rfl
    | some i => rw [hr] at h; cases h
  · intro hr
    rw [hr] at h
    cases hf : s.tree.find path with
    | none => rfl
    | some pos => rw [hf] at h; cases h

theorem Inv.find_of_resolve {path : List FileName} {i : UInt32} (h : s.resolve path = some i) :
    ∃ pos, s.tree.find path = some pos ∧ PlaceOf s pos i := by
  have hrel := hI.find_rel path
  rw [h] at hrel
  cases hf : s.tree.find path with
  | none => rw [hf] at hrel; cases hrel
  | some pos =>
    rw [hf] at hrel
    cases hrel with
    | some hp => exact ⟨pos, rfl, hp⟩

theorem Inv.look_eq (path : List FileName) : s.tree.look path = (s.resolve path).map s.nodeOf := by
  unfold Tree.look
  cases hr : s.resolve path with
  | none => rw [hI.find_eq_none_iff.mpr hr]; rfl
  | some i =>
    obtain ⟨pos, hf, hp⟩ := hI.find_of_resolve hr
    rw [hf, Option.bind_some, hp.node]
    rfl

theorem Inv.isDirectory_iff {pos : List FileName} {d : UInt32} (h : PlaceOf s pos d) :
    s.tree.IsDirectory pos ↔ s.IsDir d := by
  rw [← nodeOf_isDirectory_iff hI (hI.resolve_live h.2)]
  unfold Tree.IsDirectory
  rw [h.node]
  exact ⟨fun ⟨v, hv, hd⟩ => Option.some.inj hv ▸ hd, fun hd => ⟨_, rfl, hd⟩⟩

omit hI in
theorem room_iff {k : Nat} : s.tree.Room k ↔ ¬ NoRoom s k := by
  unfold Tree.Room NoRoom
  rw [tree_inodes, tree_blocks, not_or, Nat.not_lt, Ne, Finset.card_eq_zero]

end Finding

end EphemeralOS
