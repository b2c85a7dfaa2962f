import EphemeralOS.Fs.Torn
import EphemeralOS.Fs.TreeOf

/-!
# The tree across a change

A creation enters a node at the place of its parent (`Linked.tree_eq`), a
deletion takes one from its place (`Removed.tree_eq`), and what shows nowhere
leaves the tree as it was (`Same.tree_eq`). Each inode of the new state had its
place before, but for the new one (`Linked.placeOf_iff`).
-/

namespace EphemeralOS

open Path Directory

theorem node_eq_some_iff {s : FsState} {pos : List FileName} {v : Node} :
    s.tree.node pos = some v ↔ ∃ i, PlaceOf s pos i ∧ s.nodeOf i = v := by
  refine ⟨node_eq_some, ?_⟩
  rintro ⟨i, hi, rfl⟩
  exact hi.node

theorem Keeps.nodeOf {gone : UInt32 → Prop} {s s' : FsState} (K : Keeps gone s s') (hI : Inv s)
    {i : UInt32} (hi : s.Live i) (hg : ¬ gone i) : s'.nodeOf i = s.nodeOf i := by
  rcases hI.shape.types i hi with hf | hd
  · rw [nodeOf_file hf, nodeOf_file (K.isFile hf hg), K.inode i hi hg]
    have hbytes : s'.fileByte (s.inodeTable i) = s.fileByte (s.inodeTable i) :=
      funext (K.fileByte hf hg)
    rw [FsState.content, FsState.content, hbytes]
  · rw [nodeOf_dir hd, nodeOf_dir (K.isDir hd hg), K.inode i hi hg]

theorem Keeps.placeOf {gone : UInt32 → Prop} {s s' : FsState} (K : Keeps gone s s')
    (hgone : ∀ i, gone i → ¬ s.IsDir i) {pos : List FileName} {i : UInt32} (h : PlaceOf s pos i)
    (hg : ¬ gone i) : PlaceOf s' pos i := ⟨h.1, K.resolve hgone h.2 hg⟩

/-! ## Full directories -/

section Full

variable {s : FsState} (hI : Inv s) (hU : NamesUnique s) {p : UInt32} (hu : s.UsableDir p)

include hI hU hu in
theorem lookup_of_slot {j : Fin 15} {c : FileName} {e : UInt32} (hj : 2 ≤ j)
    (h : s.slots p j = some (c, e)) : s.lookup p c = some e := by
  have hname := ((hI.entries p hu).entry j c e hj h).1
  rw [hI.lookup_eq hu hname.short, find_of_unique (hU p hu) h]

def FsState.entrySlots (s : FsState) (p : UInt32) : Finset (Fin 15) :=
  Finset.univ.filter fun j => 2 ≤ j ∧ s.slots p j ≠ none

def FsState.slotName (s : FsState) (p : UInt32) (j : Fin 15) : FileName :=
  ((s.slots p j).map Prod.fst).getD []

theorem slotName_eq {j : Fin 15} {c : FileName} {e : UInt32} (h : s.slots p j = some (c, e)) :
    s.slotName p j = c := by
  rw [FsState.slotName, h]
  rfl

include hI hU hu in
/-- The names at a place are those in the slots of the directory. -/
theorem names_eq {pos : List FileName} (hp : PlaceOf s pos p) :
    s.tree.names pos = s.slotName p '' s.entrySlots p := by
  ext c
  constructor
  · intro hc
    obtain ⟨v, hv⟩ := Option.ne_none_iff_exists'.mp hc
    obtain ⟨e, he, -⟩ := node_eq_some hv
    obtain ⟨p', hp', hdots, hl⟩ := placeOf_concat.mp he
    obtain rfl : p = p' := Option.some.inj (hp.2.symm.trans hp'.2)
    obtain ⟨j, hj2, hj⟩ := hI.entry_of_lookup hl hdots
    exact ⟨j, by simp [FsState.entrySlots, hj2, hj], slotName_eq hj⟩
  · rintro ⟨j, hj, rfl⟩
    have hj' : 2 ≤ j ∧ s.slots p j ≠ none := by simpa [FsState.entrySlots] using hj
    obtain ⟨⟨c, e⟩, hslot⟩ := Option.ne_none_iff_exists'.mp hj'.2
    rw [slotName_eq hslot]
    have hl := lookup_of_slot hI hU hu hj'.1 hslot
    have hdots : ¬ IsDots c := by
      -- the first two slots have these names
      rintro (rfl | rfl)
      · exact absurd (hU p hu _ _ _ _ _ hslot (hI.entries p hu).dot) (by rintro rfl; simp at hj')
      · exact absurd (hU p hu _ _ _ _ _ hslot (hI.entries p hu).dotdot)
          (by rintro rfl; exact absurd hj'.1 (by decide))
    have hplace : PlaceOf s (pos ++ [c]) e := placeOf_concat.mpr ⟨p, hp, hdots, hl⟩
    show s.tree.node (pos ++ [c]) ≠ none
    rw [hplace.node]
    simp

include hI hU hu in
/-- **A directory is full when only its last slot is free.** -/
theorem full_iff {pos : List FileName} (hp : PlaceOf s pos p) :
    s.tree.Full pos ↔ ∀ j, j ≠ 14 → s.slots p j ≠ none := by
  have hinj : Set.InjOn (s.slotName p) (s.entrySlots p) := by
    intro j hj k hk hjk
    have hj' : 2 ≤ j ∧ s.slots p j ≠ none := by simpa [FsState.entrySlots] using hj
    have hk' : 2 ≤ k ∧ s.slots p k ≠ none := by simpa [FsState.entrySlots] using hk
    obtain ⟨⟨c, e⟩, hjs⟩ := Option.ne_none_iff_exists'.mp hj'.2
    obtain ⟨⟨c', e'⟩, hks⟩ := Option.ne_none_iff_exists'.mp hk'.2
    rw [slotName_eq hjs, slotName_eq hks] at hjk
    subst hjk
    exact hU p hu j k c e e' hjs hks
  have hcard : (s.tree.names pos).ncard = (s.entrySlots p).card := by
    rw [names_eq hI hU hu hp, hinj.ncard_image, Set.ncard_coe_finset]
  -- the slots that an entry can be found in
  let places : Finset (Fin 15) := Finset.univ.filter fun j => 2 ≤ j ∧ j ≠ 14
  have hplaces : places.card = 12 := by decide
  have hsub : s.entrySlots p ⊆ places := by
    intro j hj
    have hj' : 2 ≤ j ∧ s.slots p j ≠ none := by simpa [FsState.entrySlots] using hj
    refine Finset.mem_filter.mpr ⟨Finset.mem_univ _, hj'.1, ?_⟩
    rintro rfl
    exact hj'.2 (slots_last_none s p)
  unfold Tree.Full
  rw [hcard, ← hplaces]
  constructor
  · intro hle j hj
    by_cases hj2 : 2 ≤ j
    · have hmem : j ∈ s.entrySlots p := by
        rw [Finset.eq_of_subset_of_card_le hsub hle]
        exact Finset.mem_filter.mpr ⟨Finset.mem_univ _, hj2, hj⟩
      exact ((Finset.mem_filter.mp hmem).2).2
    · have hcases : j = 0 ∨ j = 1 := by omega
      rcases hcases with rfl | rfl
      · rw [(hI.entries p hu).dot]; simp
      · rw [(hI.entries p hu).dotdot]; simp
  · intro hall
    refine Finset.card_le_card fun j hj => ?_
    obtain ⟨-, hj2, hj14⟩ := Finset.mem_filter.mp hj
    exact Finset.mem_filter.mpr ⟨Finset.mem_univ _, hj2, hall j hj14⟩

end Full

/-! ## The changes -/

theorem Tree.ext_node {t t' : Tree} (hnode : ∀ pos v, t.node pos = some v ↔ t'.node pos = some v)
    (hinodes : t.inodes = t'.inodes) (hblocks : t.blocks = t'.blocks) : t = t' := by
  obtain ⟨node, inodes, blocks⟩ := t
  obtain ⟨node', inodes', blocks'⟩ := t'
  obtain rfl : inodes = inodes' := hinodes
  obtain rfl : blocks = blocks' := hblocks
  obtain rfl : node = node' := funext fun pos => Option.ext (hnode pos)
  rfl

theorem Agree.tree_eq {s s' : FsState} (hI : Inv s) (h : Agree s s') : s'.tree = s.tree := by
  have K : Keeps nothing s s' :=
    ⟨h.root, fun i hi _ => h.inode hi, fun i hi _ k hk => h.data _ (hI.blockUsed hi.live hk),
      fun d c e he _ => by rw [h.lookup hI, he]⟩
  have hplace : ∀ pos i, PlaceOf s' pos i ↔ PlaceOf s pos i := fun pos i => by
    unfold PlaceOf
    rw [h.resolve hI]
  refine Tree.ext_node (fun pos v => ?_) ?_ ?_
  · rw [node_eq_some_iff, node_eq_some_iff]
    refine exists_congr fun i => ?_
    rw [hplace]
    exact and_congr_right fun hi => by rw [K.nodeOf hI (hI.resolve_live hi.2) id]
  · rw [tree_inodes, tree_inodes]
    refine congrArg Finset.card (Finset.filter_congr fun i hi => ?_)
    rw [h.type (mem_inodes.mp (List.mem_toFinset.mp hi))]
  · rw [tree_blocks, tree_blocks]
    refine congrArg Finset.card (Finset.filter_congr fun b hb => ?_)
    rw [h.bits b (mem_blocks.mp (List.mem_toFinset.mp hb))]

theorem Same.tree_eq {s s' : FsState} (hI : Inv s) (h : Same s s') : s'.tree = s.tree :=
  h.agree.tree_eq hI

section Linked

variable {s s' : FsState} {n p : UInt32} {name : FileName} {v : Inode} {bs : List UInt32} {i : Fin 15}
  (hI : Inv s) (L : Linked s s' n p name v bs i) (hfree : s.lookup p name = none)
include hI L hfree

/-- In a directory that can be read `.` and `..` are not free. -/
theorem Linked.not_isDots (hu : s.UsableDir p) : ¬ IsDots name := by
  rintro (rfl | rfl)
  · rw [hI.lookup_dot hu] at hfree
    cases hfree
  · rw [hI.lookup_dotdot hu] at hfree
    cases hfree

/-- What the new state finds under a name is what the old one found, or the new inode. -/
theorem Linked.lookup_cases {d e : UInt32} {c : FileName} (hc : ¬ IsDots c)
    (h : s'.lookup d c = some e) :
    s.lookup d c = some e ∨ (d = p ∧ c = name ∧ e = n ∧ s.UsableDir p ∧ i ≠ 14) := by
  obtain ⟨hshort, hu', -⟩ := Inv.lookup_some h
  rcases L.usable_iff.mp hu' with ⟨rfl, hv⟩ | hu
  · -- a new directory has `.` and `..` only
    rw [lookup_fresh (fun _ => L.slots_new hv) hc] at h
    cases h
  by_cases hnew : d = p ∧ c = name
  · obtain ⟨rfl, rfl⟩ := hnew
    refine .inr ⟨rfl, rfl, L.eq_of_lookup hI hfree h, hu, fun hi => ?_⟩
    rw [(L.inv hI).lookup_eq hu' hshort, L.slots_lost hu hi, ← hI.lookup_eq hu hshort, hfree] at h
    cases h
  · rw [L.lookup_ne hI hu hshort fun hd hcn => hnew ⟨hd, hcn⟩] at h
    exact .inl h

/-- **A creation gives a place to the new inode**, unless there is no slot for its entry. -/
theorem Linked.placeOf_iff {pos : List FileName} {e : UInt32} : PlaceOf s' pos e ↔ PlaceOf s pos e ∨
    ∃ ds, pos = ds ++ [name] ∧ PlaceOf s ds p ∧ e = n ∧ s.UsableDir p ∧ i ≠ 14 := by
  have K : Keeps nothing s s' := L.keeps hI hfree
  have hold : ∀ {qs x}, PlaceOf s qs x → PlaceOf s' qs x := fun h => K.placeOf (fun _ h => h.elim) h id
  constructor
  · intro h
    induction pos using List.reverseRecOn generalizing e with
    | nil =>
      obtain rfl : e = 0 := Option.some.inj (h.2.symm.trans (placeOf_nil (L.inv hI)).2)
      exact .inl (placeOf_nil hI)
    | append_singleton qs c ih =>
      obtain ⟨d, hd, hc, hl⟩ := placeOf_concat.mp h
      rcases L.lookup_cases hI hfree hc hl with hl | ⟨rfl, rfl, he, hu, hi⟩
      · -- the directory was there: the new inode is not looked up in
        rcases ih hd with hd | ⟨ds, -, -, rfl, -⟩
        · exact .inl (placeOf_concat.mpr ⟨d, hd, hc, hl⟩)
        · exact absurd (Inv.lookup_some hl).2.1.isDir.live L.not_live
      · rcases ih hd with hd | ⟨ds, -, -, rfl, -⟩
        · exact .inr ⟨qs, rfl, hd, he, hu, hi⟩
        · exact absurd hu.isDir.live L.not_live
  · rintro (h | ⟨ds, rfl, hds, rfl, hu, hi⟩)
    · exact hold h
    · refine placeOf_concat.mpr ⟨p, hold hds, L.not_isDots hI hfree hu, ?_⟩
      exact L.lookup_new hI hu hi fun j _ => L.not_slot_of_free hI hu hfree j

/-- **A creation is an entry in the tree.** -/
theorem Linked.tree_eq (hU : NamesUnique s) {pos : List FileName} (hp : PlaceOf s pos p)
    (hblocks : (s'.nodeOf n).blocks = bs.length) :
    s'.tree = s.tree.enter pos name (s'.nodeOf n) := by
  have K : Keeps nothing s s' := L.keeps hI hfree
  have hvisible : s.tree.node pos = some .dir ∧ ¬ s.tree.Full pos ↔ s.UsableDir p ∧ i ≠ 14 := by
    rw [hp.node, Option.some.injEq, nodeOf_eq_dir_iff hI (hI.resolve_live hp.2)]
    refine and_congr_right fun hu => not_congr ?_
    rw [full_iff hI hU hu hp]
    refine ⟨fun hall => ?_, fun hi j hj hnone => ?_⟩
    · by_contra hi
      exact hall i hi L.empty
    · have := L.slot_le hnone
      omega
  have hnode : ∀ qs w, s'.tree.node qs = some w ↔ s.tree.node qs = some w ∨
      (qs = pos ++ [name] ∧ s'.nodeOf n = w ∧ s.UsableDir p ∧ i ≠ 14) := by
    intro qs w
    rw [node_eq_some_iff, node_eq_some_iff]
    constructor
    · rintro ⟨e, he, rfl⟩
      rcases (L.placeOf_iff hI hfree).mp he with he | ⟨ds, rfl, hds, rfl, hu, hi⟩
      · exact .inl ⟨e, he, (K.nodeOf hI (hI.resolve_live he.2) id).symm⟩
      · exact .inr ⟨by rw [hp.inj hI hds], rfl, hu, hi⟩
    · rintro (⟨e, he, rfl⟩ | ⟨rfl, rfl, hu, hi⟩)
      · exact ⟨e, (L.placeOf_iff hI hfree).mpr (.inl he), K.nodeOf hI (hI.resolve_live he.2) id⟩
      · exact ⟨n, (L.placeOf_iff hI hfree).mpr (.inr ⟨pos, rfl, hp, rfl, hu, hi⟩), rfl⟩
  refine Tree.ext_node (fun qs w => ?_) ?_ ?_
  · rw [hnode]
    unfold Tree.enter
    by_cases hv : s.UsableDir p ∧ i ≠ 14
    · simp only [if_pos (hvisible.mpr hv)]
      by_cases hq : qs = pos ++ [name]
      · rw [hq, hp.node_child hfree, Function.update_self]
        simp [hv]
      · rw [Function.update_of_ne hq]
        simp [hq]
    · simp only [if_neg (mt hvisible.mp hv)]
      exact or_iff_left fun h => hv h.2.2
  · rw [tree_inodes, Tree.enter_inodes, tree_inodes, ← L.card_freeNumbers, Nat.add_sub_cancel]
  · rw [tree_blocks, Tree.enter_blocks, tree_blocks, ← L.card_clearBlocks, hblocks,
      Nat.add_sub_cancel]

end Linked

section Removed

variable {s s' : FsState} {f p : UInt32} {c : FileName} {j : Fin 15} (hI : Inv s)
  (hU : NamesUnique s) (R : Removed s s' f p c j)
include hI hU R

theorem Removed.lookup_cases {d e : UInt32} {a : FileName} (h : s'.lookup d a = some e) :
    s.lookup d a = some e ∧ e ≠ f := by
  obtain ⟨hshort, hu', hf⟩ := Inv.lookup_some h
  have hu := R.usable_iff.mp hu'
  obtain ⟨k, hk⟩ := exists_slot_of_find hf
  have hks := ((R.slot_iff hI hu).mp hk).1
  exact ⟨by rw [hI.lookup_eq hu hshort, find_of_unique (hU d hu) hks], R.ne_of_slot hI hu hk⟩

/-- **A deletion takes the place of the file**, and no other. -/
theorem Removed.placeOf_iff {pos : List FileName} {e : UInt32} :
    PlaceOf s' pos e ↔ PlaceOf s pos e ∧ e ≠ f := by
  have K : Keeps (· = f) s s' := R.keeps hI rfl
  constructor
  · intro h
    induction pos using List.reverseRecOn generalizing e with
    | nil =>
      obtain rfl : e = 0 := Option.some.inj (h.2.symm.trans (placeOf_nil (R.inv hI)).2)
      exact ⟨placeOf_nil hI, R.ne_of_isDir hI.shape.rootDir.1⟩
    | append_singleton qs a ih =>
      obtain ⟨d, hd, ha, hl⟩ := placeOf_concat.mp h
      obtain ⟨hl, he⟩ := R.lookup_cases hI hU hl
      exact ⟨placeOf_concat.mpr ⟨d, (ih hd).1, ha, hl⟩, he⟩
  · rintro ⟨h, he⟩
    exact K.placeOf (fun i hi => hi ▸ R.file.not_isDir) h he

/-- **A deletion is a removal from the tree.** -/
theorem Removed.tree_eq {pos : List FileName} (hp : PlaceOf s pos f)
    (hblocks : (s.nodeOf f).blocks = (s.inodeTable f).pointers.length) :
    s'.tree = s.tree.remove pos (s.nodeOf f) := by
  have K : Keeps (· = f) s s' := R.keeps hI rfl
  refine Tree.ext_node (fun qs w => ?_) ?_ ?_
  · unfold Tree.remove
    dsimp only
    by_cases hq : qs = pos
    · rw [hq, Function.update_self]
      refine iff_of_false (fun h => ?_) (by simp)
      obtain ⟨e, he, -⟩ := node_eq_some h
      obtain ⟨he, hne⟩ := (R.placeOf_iff hI hU).mp he
      exact hne (Option.some.inj (he.2.symm.trans hp.2))
    · rw [Function.update_of_ne hq, node_eq_some_iff, node_eq_some_iff]
      refine exists_congr fun e => ?_
      rw [R.placeOf_iff hI hU]
      constructor
      · rintro ⟨⟨he, hne⟩, rfl⟩
        exact ⟨he, (K.nodeOf hI (hI.resolve_live he.2) hne).symm⟩
      · rintro ⟨he, rfl⟩
        have hne : e ≠ f := fun h => hq (he.inj hI (h ▸ hp))
        exact ⟨⟨he, hne⟩, K.nodeOf hI (hI.resolve_live he.2) hne⟩
  · rw [tree_inodes, R.card_freeNumbers]
    unfold Tree.remove
    rw [tree_inodes]
  · rw [tree_blocks, R.card_clearBlocks hI]
    unfold Tree.remove
    rw [tree_blocks, hblocks]

end Removed

end EphemeralOS
