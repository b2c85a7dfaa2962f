import EphemeralOS.Fs.Agree

/-!
# A creation keeps the invariant

`Linked` is a finished creation (`Created`) under the conditions its callers
establish: the parent is a directory, the name can be entered, and a file is
entered only under a name that is unused or a directory's. The lemmas say what
each view of the new state is in terms of the old one; `Linked.inv` puts them
together.
-/

namespace EphemeralOS

open Directory Ownership

namespace Taken

variable {s h : FsState} {n : UInt32} {v : Inode} {bs : List UInt32} (T : Taken s h n v bs)
include T

theorem mem_iff {b : UInt32} : b ∈ bs ↔ b ≠ 0 ∧ ∃ k, v.blocks k = b := by
  rw [← Inode.mem_pointers, T.pointers_eq]

theorem ptr_inj {k l : Fin 12} (hk : v.blocks k ≠ 0) (h : v.blocks k = v.blocks l) : k = l := by
  have hlt : ∀ j : Fin 12, v.blocks j ≠ 0 → (j : Nat) < bs.length := fun j hj => by
    by_contra hge
    rw [T.ptrs, List.getD_eq_default _ _ (by omega)] at hj
    exact hj rfl
  have h1 := hlt k hk
  have h2 := hlt l (h ▸ hk)
  rw [T.ptrs, T.ptrs, List.getD_eq_getElem _ _ h1, List.getD_eq_getElem _ _ h2] at h
  exact Fin.ext ((List.Nodup.getElem_inj_iff T.nodup).mp h)

theorem not_live : ¬ s.Live n := fun hl => hl.2 T.free

theorem ne_of_live {i : UInt32} (hi : s.Live i) : i ≠ n := fun e => T.not_live (e ▸ hi)

theorem inode_live {i : UInt32} (hi : s.Live i) : h.inodeTable i = s.inodeTable i :=
  T.inode_ne (T.ne_of_live hi)

theorem isFile_iff {j : UInt32} : h.IsFile j ↔ (j = n ∧ v.type = inodeTypeFile) ∨ s.IsFile j := by
  by_cases hj : j = n
  · subst hj
    have hn : ¬ s.IsFile j := fun hj => T.not_live hj.live
    simp [FsState.IsFile, T.inode, T.num] at hn ⊢
    exact fun e => absurd e hn
  · unfold FsState.IsFile
    rw [T.inode_ne hj]
    simp [hj]

theorem isDir_iff {j : UInt32} : h.IsDir j ↔ (j = n ∧ v.type = inodeTypeDir) ∨ s.IsDir j := by
  by_cases hj : j = n
  · subst hj
    have hn : ¬ s.IsDir j := fun hj => T.not_live hj.live
    simp [FsState.IsDir, T.inode, T.num] at hn ⊢
    exact fun e => absurd e hn
  · unfold FsState.IsDir
    rw [T.inode_ne hj]
    simp [hj]

theorem live_iff (hv : v.type ≠ inodeTypeFree) {j : UInt32} : h.Live j ↔ j = n ∨ s.Live j := by
  by_cases hj : j = n
  · rw [hj]
    exact iff_of_true ⟨T.num, T.inode ▸ hv⟩ (.inl rfl)
  · unfold FsState.Live
    rw [T.inode_ne hj]
    simp [hj]

theorem usable_iff {d : UInt32} : h.UsableDir d ↔
    (d = n ∧ v.type = inodeTypeDir ∧ ValidBlock (v.blocks 0)) ∨ s.UsableDir d := by
  by_cases hd : d = n
  · subst hd
    have hn : ¬ s.UsableDir d := fun hu => T.not_live hu.isDir.live
    refine ⟨fun hu => .inl ⟨rfl, T.inode ▸ hu.2⟩, ?_⟩
    rintro (⟨-, hv⟩ | hu)
    · exact ⟨T.num, by rw [T.inode]; exact hv⟩
    · exact absurd hu hn
  · unfold FsState.UsableDir
    rw [T.inode_ne hd]
    simp [hd]

/-- **Taking an inode and free blocks keeps the block ownership.** -/
theorem blocks (hB : Blocks s) (hv : v.type ≠ inodeTypeFree) : Blocks h where
  clean j hj hfree := by
    have hn : j ≠ n := fun e => hv (by rw [e, T.inode] at hfree; exact hfree)
    rw [T.inode_ne hn] at hfree ⊢
    exact hB.clean j hj hfree
  block0 := by rw [T.bits, hB.block0, Bool.or_true]
  owned := by
    have hlive : h.Live n := (T.live_iff hv).mpr (.inl rfl)
    refine hB.owned.acquire (K := fun x => x.1 = n) ?_ ?_ ?_ ?_ ?_
    · exact fun x hx => FsState.blockRef_congr (T.inode_ne hx)
    · rintro x rfl
      exact if_neg fun e => T.not_live e.1
    · rintro x b rfl hx hb
      obtain ⟨_, hk, h0⟩ := FsState.blockRef_eq_some.mp hx
      rw [T.inode] at hk
      exact T.not_mem hb.2 (T.mem_iff.mpr ⟨h0, _, hk⟩)
    · rintro ⟨_, k⟩ ⟨_, l⟩ b rfl rfl hx hy
      obtain ⟨_, hk, h0⟩ := FsState.blockRef_eq_some.mp hx
      obtain ⟨_, hl, _⟩ := FsState.blockRef_eq_some.mp hy
      simp only [T.inode] at hk hl
      rw [T.ptr_inj (hk ▸ h0) (hk.trans hl.symm)]
    · intro b
      constructor
      · rintro ⟨hv, hb⟩
        rw [T.bits, Bool.or_eq_true, decide_eq_true_eq] at hb
        rcases hb with hb | hb
        · obtain ⟨h0, k, hk⟩ := T.mem_iff.mp hb
          refine .inr ⟨(n, k), rfl, FsState.blockRef_eq_some.mpr ⟨hlive, ?_, h0⟩⟩
          rw [T.inode, hk]
        · exact .inl ⟨hv, hb⟩
      · rintro (⟨hv, hb⟩ | ⟨⟨_, k⟩, rfl, hx⟩)
        · exact ⟨hv, by rw [T.bits, hb, Bool.or_true]⟩
        · obtain ⟨_, hk, h0⟩ := FsState.blockRef_eq_some.mp hx
          simp only [T.inode] at hk
          have hmem := T.mem_iff.mpr ⟨h0, k, hk⟩
          exact ⟨(T.fresh b hmem).1, by rw [T.bits, decide_eq_true hmem, Bool.true_or]⟩

end Taken

structure Linked (s s' : FsState) (n p : UInt32) (name : List UInt8) (v : Inode)
    (bs : List UInt32) (i : Fin 15) : Prop extends Created s s' n p name v bs i where
  parentDir : s.IsDir p
  named : NameOk name
  parent : v.parentInode = p
  storedSuperblock : s'.storedSuperblock = s.storedSuperblock ∨ s'.storedSuperblock = s'.superblock
  kind : (v.type = inodeTypeDir ∧ ValidBlock (v.blocks 0) ∧ s'.slots n = dotSlots n p) ∨
    (v.type = inodeTypeFile ∧ FileBlocks v ∧
      (s.UsableDir p → ∀ e, find (s.slots p) name = some e → s.IsDir e))

namespace Linked

variable {s s' : FsState} {n p : UInt32} {name : List UInt8} {v : Inode} {bs : List UInt32}
  {i : Fin 15} (hI : Inv s) (L : Linked s s' n p name v bs i)

section Inodes

include L

theorem new_live : s'.Live n := by
  refine ⟨L.num, ?_⟩
  rw [L.inode]
  rcases L.kind with ⟨h, _⟩ | ⟨h, _⟩ <;> rw [h] <;> decide

theorem live_iff {j : UInt32} : s'.Live j ↔ j = n ∨ s.Live j :=
  L.toTaken.live_iff (L.inode ▸ L.new_live.2)

theorem usable_iff {d : UInt32} :
    s'.UsableDir d ↔ (d = n ∧ v.type = inodeTypeDir) ∨ s.UsableDir d := by
  have hblock : v.type = inodeTypeDir → ValidBlock (v.blocks 0) := fun hv => by
    rcases L.kind with ⟨_, hb, _⟩ | ⟨hf, _⟩
    · exact hb
    · rw [hf] at hv
      exact absurd hv (by decide)
  rw [L.toTaken.usable_iff]
  exact or_congr_left (and_congr_right fun _ => and_iff_left_of_imp hblock)

theorem rooted {j : UInt32} (hj : s.Rooted j) (hl : s.Live j) : s'.Rooted j := by
  induction hj with
  | root => exact .root
  | child hd _ ih =>
    have hp := L.inode_live hl
    refine .child (by rw [hp]; exact L.isDir_iff.mpr (.inr hd)) ?_
    rw [hp]
    exact ih hd.live

end Inodes

/-! ## Directories -/

include L in
theorem slots_parent (hp : s.UsableDir p) : s'.slots p =
    Function.update (Function.update (s.slots p) i (some (name, n))) 14 none := by
  have hp' : s'.UsableDir p := L.usable_iff.mpr (.inr hp)
  rw [hp'.slots_eq, L.inode_live hp.isDir.live, L.linked hp.2.2, slots_sectorOfDir,
    slots_update_entry _ _ L.named.noNul L.named.short]
  rfl

include L in
theorem slots_new (hv : v.type = inodeTypeDir) : s'.slots n = dotSlots n p := by
  rcases L.kind with ⟨_, _, h⟩ | ⟨hf, _⟩
  · exact h
  · rw [hf] at hv
    exact absurd hv (by decide)

include hI L

theorem slots_ne {d : UInt32} (hd : s.UsableDir d) (hdp : d ≠ p) : s'.slots d = s.slots d := by
  have hd' : s'.UsableDir d := L.usable_iff.mpr (.inr hd)
  have hb := (hI.blockUsed hd.isDir.live hd.2.2.1).2
  have hne : (s.inodeTable d).blocks 0 ≠ (s.inodeTable p).blocks 0 := fun e =>
    hdp (hI.block_inj hd.isDir.live L.parentDir.live hd.2.2.1 e).1
  rw [hd'.slots_eq, hd.slots_eq, L.inode_live hd.isDir.live, L.kept _ (L.not_mem hb) hne]

theorem slot_old {d : UInt32} (hd : s.UsableDir d) {j : Fin 15} {x : List UInt8 × UInt32}
    (h : s.slots d j = some x) : s'.slots d j = some x := by
  by_cases hdp : d = p
  · subst hdp
    have hi : j ≠ i := fun e => by rw [e, L.empty] at h; cases h
    have h14 : j ≠ 14 := fun e => by rw [e, FsState.slots, FsState.dirBlock, slots_last] at h; cases h
    rw [L.slots_parent hd, Function.update_of_ne h14, Function.update_of_ne hi, h]
  · rw [L.slots_ne hI hd hdp, h]

theorem slot_cases {d : UInt32} (hd : s.UsableDir d) {j : Fin 15} {c : List UInt8} {e : UInt32}
    (h : s'.slots d j = some (c, e)) :
    s.slots d j = some (c, e) ∨ (d = p ∧ j = i ∧ c = name ∧ e = n) := by
  by_cases hdp : d = p
  · subst hdp
    rw [L.slots_parent hd] at h
    by_cases h14 : j = 14
    · rw [h14, Function.update_self] at h; cases h
    rw [Function.update_of_ne h14] at h
    by_cases hi : j = i
    · rw [hi, Function.update_self] at h
      cases h
      exact .inr ⟨rfl, hi, rfl, rfl⟩
    · rw [Function.update_of_ne hi] at h
      exact .inl h
  · rw [L.slots_ne hI hd hdp] at h
    exact .inl h

/-- The slot taken is not one of the two first, which every directory has in use. -/
theorem two_le (hp : s.UsableDir p) : 2 ≤ i := by
  have hE := hI.entries p hp
  by_contra hlt
  have : i = 0 ∨ i = 1 := by omega
  rcases this with rfl | rfl
  · exact absurd (L.empty.symm.trans hE.dot) (by simp)
  · exact absurd (L.empty.symm.trans hE.dotdot) (by simp)

/-! ## The invariant -/

theorem blocks : Blocks s' := L.toTaken.blocks hI.blocks (L.inode ▸ L.new_live.2)

theorem shape : Shape s' where
  root := by rw [L.superblock]; exact hI.shape.root
  types j hj := by
    rw [L.isFile_iff, L.isDir_iff]
    rcases L.live_iff.mp hj with rfl | hj
    · rcases L.kind with ⟨h, _⟩ | ⟨h, _⟩
      · exact .inr (.inl ⟨rfl, h⟩)
      · exact .inl (.inl ⟨rfl, h⟩)
    · exact (hI.shape.types j hj).imp .inr .inr
  rootDir := by
    rw [L.inode_live hI.shape.rootDir.1.live, L.isDir_iff]
    exact ⟨.inr hI.shape.rootDir.1, hI.shape.rootDir.2⟩
  bin := by
    rw [L.inode_live hI.shape.bin.1.live, L.isDir_iff]
    exact ⟨.inr hI.shape.bin.1, hI.shape.bin.2⟩
  dirs d hd h1 := by
    rcases L.isDir_iff.mp hd with ⟨rfl, hv⟩ | hd
    · rcases L.kind with ⟨_, hb, _⟩ | ⟨hf, _⟩
      · rw [L.inode]; exact hb
      · rw [hf] at hv
        exact absurd hv (by decide)
    · rw [L.inode_live hd.live]; exact hI.shape.dirs d hd h1
  parents j hj := by
    rcases L.live_iff.mp hj with rfl | hj
    · rw [L.inode, L.parent, L.isDir_iff]; exact .inr L.parentDir
    · rw [L.inode_live hj, L.isDir_iff]; exact .inr (hI.shape.parents j hj)
  rooted j hj := by
    rcases L.live_iff.mp hj with rfl | hj
    · have hp := L.parentDir.live
      refine .child ?_ ?_
      · rw [L.inode, L.parent, L.isDir_iff]; exact .inr L.parentDir
      · rw [L.inode, L.parent]; exact L.rooted (hI.shape.rooted p hp) hp
    · exact L.rooted (hI.shape.rooted j hj) hj

theorem entriesOf_old {d : UInt32} (hd : s.UsableDir d) : EntriesOf s' d := by
  have hE := hI.entries d hd
  refine ⟨L.slot_old hI hd hE.dot, ?_, ?_, ?_, ?_⟩
  · rw [L.inode_live hd.isDir.live]; exact L.slot_old hI hd hE.dotdot
  · intro j c e hj h
    rcases L.slot_cases hI hd h with h | ⟨rfl, rfl, rfl, rfl⟩
    · obtain ⟨hc, he, h0, hp⟩ := hE.entry j c e hj h
      exact ⟨hc, L.live_iff.mpr (.inr he), h0, by rw [L.inode_live he]; exact hp⟩
    · exact ⟨L.named, L.new_live, (L.ne_of_live hI.shape.rootDir.1.live).symm,
        by rw [L.inode]; exact L.parent⟩
  · intro j k c c' e hj hk h1 h2
    rcases L.slot_cases hI hd h1 with h1 | ⟨rfl, rfl, rfl, rfl⟩ <;>
      rcases L.slot_cases hI hd h2 with h2 | ⟨_, rfl, rfl, h2⟩
    · exact hE.distinct j k c c' e hj hk h1 h2
    · exact absurd (hI.slot_live hd h1) (h2 ▸ L.not_live)
    · exact absurd (hI.slot_live hd h2) L.not_live
    · rfl
  · -- of two files of one name, one may be new: then the name was a directory's before
    intro j k c e e' hjk he he' h1 h2
    have hfirst : ∀ (l : Fin 15) (x : UInt32), v.type = inodeTypeFile → s.UsableDir p →
        s.slots p l = some (name, x) → ∃ m, m ≤ l ∧ ∃ y, s.slots p m = some (name, y) ∧ s.IsDir y := by
      intro l x hv hp hl
      rcases L.kind with ⟨hdir, _⟩ | ⟨_, _, hfind⟩
      · rw [hv] at hdir
        exact absurd hdir (by decide)
      cases hf : find (s.slots p) name with
      | none => exact absurd hl (find_eq_none_iff.mp hf l x)
      | some y =>
        obtain ⟨m, hm, hlt⟩ := find_eq_some_iff.mp hf
        refine ⟨m, ?_, y, hm, hfind hp y hf⟩
        by_contra hgt
        exact hlt l (lt_of_not_ge hgt) x hl
    rcases L.slot_cases hI hd h1 with h1 | ⟨hdp, hj, hc, he1⟩ <;>
      rcases L.slot_cases hI hd h2 with h2 | ⟨hdp', hk, hc', he2⟩
    · have hold : ∀ x, s.Live x → s'.IsFile x → s.IsFile x := fun x hx hf =>
        (L.isFile_iff.mp hf).resolve_left fun h => L.ne_of_live hx h.1
      obtain ⟨l, hl, x, hx, hxd⟩ := hE.order j k c e e' hjk (hold e (hI.slot_live hd h1) he)
        (hold e' (hI.slot_live hd h2) he') h1 h2
      exact ⟨l, hl, x, L.slot_old hI hd hx, L.isDir_iff.mpr (.inr hxd)⟩
    · subst hdp' hc' he2
      obtain ⟨m, hm, y, hy, hyd⟩ := hfirst j e (L.inode ▸ he'.2) hd h1
      exact ⟨m, lt_of_le_of_lt hm hjk, y, L.slot_old hI hd hy, L.isDir_iff.mpr (.inr hyd)⟩
    · subst hdp hc he1
      obtain ⟨m, hm, y, hy, hyd⟩ := hfirst k e' (L.inode ▸ he.2) hd h2
      refine ⟨m, lt_of_le_of_ne hm ?_, y, L.slot_old hI hd hy, L.isDir_iff.mpr (.inr hyd)⟩
      rintro rfl
      rw [hy] at h2
      cases h2
      exact he'.not_isDir (L.isDir_iff.mpr (.inr hyd))
    · exact absurd (hj.trans hk.symm) (ne_of_lt hjk)

omit hI in
theorem entriesOf_new (hv : v.type = inodeTypeDir) : EntriesOf s' n := by
  have hslots := L.slots_new hv
  refine ⟨by rw [hslots]; rfl, by rw [hslots, L.inode, L.parent]; rfl, ?_, ?_, ?_⟩
  · intro j c e hj h
    rw [hslots, dotSlots_of_two_le hj] at h; cases h
  · intro j k c c' e hj _ h
    rw [hslots, dotSlots_of_two_le hj] at h; cases h
  · intro j k c e e' _ he _ h
    rw [hslots] at h
    have hd : s'.IsDir e := L.isDir_iff.mpr <| (dotSlots_leads h).imp (⟨·, hv⟩) fun e => by
      rw [e]
      exact L.parentDir
    exact absurd hd he.not_isDir

/-- **A creation keeps the invariant.** -/
theorem inv : Inv s' where
  perfect := L.perfect hI.perfect
  blocks := L.blocks hI
  shape := L.shape hI
  entries d hd := by
    rcases L.usable_iff.mp hd with ⟨rfl, hv⟩ | hd
    · exact L.entriesOf_new hv
    · exact L.entriesOf_old hI hd
  files j hj := by
    rcases L.isFile_iff.mp hj with ⟨rfl, hv⟩ | hj
    · rcases L.kind with ⟨hdir, _⟩ | ⟨_, hb, _⟩
      · rw [hdir] at hv
        exact absurd hv (by decide)
      · rw [L.inode]; exact hb
    · rw [L.inode_live hj.live]; exact hI.files j hj

end Linked

/-! ## Directories and files made -/

section Made

variable {s s' : FsState} {n p : UInt32} {name : List UInt8} {i : Fin 15}

theorem slots_newDirBlock (self parent : UInt32) :
    slotsOf (dirOfSector (sectorOfDir (newDirBlock self parent))) = dotSlots self parent := by
  rw [slots_sectorOfDir]
  funext j
  by_cases h14 : j = 14
  · rw [h14, Function.update_self]; rfl
  rw [Function.update_of_ne h14]
  unfold dotSlots
  by_cases h0 : j = 0
  · rw [if_pos h0, slotsOf_eq_some, h0]
    exact ⟨rfl, CArray.cstr_strcpy _ (by decide) (by decide), rfl⟩
  by_cases h1 : j = 1
  · rw [if_neg h0, if_pos h1, slotsOf_eq_some, h1]
    exact ⟨rfl, CArray.cstr_strcpy _ (by decide) (by decide), rfl⟩
  rw [if_neg h0, if_neg h1, slotsOf_eq_none]
  simp only [newDirBlock, if_neg h0, if_neg h1]
  decide

theorem MadeDir.isLinked {b : UInt32} (M : MadeDir s s' n p name b i) (hp : s.IsDir p)
    (hname : NameOk name) : Linked s s' n p name (dirInode p b) [b] i :=
  { M with
    parentDir := hp
    named := hname
    parent := rfl
    storedSuperblock := .inl M.storedSuperblock
    kind := by
      have hb : ValidBlock b := (M.fresh b List.mem_cons_self).1
      have hu : s'.UsableDir n := ⟨M.num, by rw [M.inode]; rfl, by rw [M.inode]; exact hb⟩
      refine .inl ⟨rfl, hb, ?_⟩
      rw [hu.slots_eq, M.inode, show (dirInode p b).blocks 0 = b from rfl, M.content,
        slots_newDirBlock] }

theorem MadeFile.fileBlocks {data : Memory} {size : UInt32} {bs : List UInt32}
    (M : MadeFile s s' n p name data size bs i) (hsize : size ≤ fsMaxFileSize) :
    FileBlocks (fileInode p size bs) := by
  refine ⟨hsize, fun k => ?_⟩
  have hlen : bs.length = min 12 ((size.toNat + 511) / 512) :=
    M.count.trans (toNat_blocksNeeded hsize)
  show bs.getD k 0 ≠ 0 ↔ (k : Nat) < (size.toNat + 511) / 512
  by_cases hk : (k : Nat) < bs.length
  · rw [List.getD_eq_getElem _ _ hk]
    exact iff_of_true (M.fresh _ (List.getElem_mem hk)).1.1 (by omega)
  · rw [List.getD_eq_default _ _ (by omega)]
    exact iff_of_false (fun h => h rfl) (by omega)

theorem MadeFile.isLinked {data : Memory} {size : UInt32} {bs : List UInt32}
    (M : MadeFile s s' n p name data size bs i) (hp : s.IsDir p) (hname : NameOk name)
    (hsize : size ≤ fsMaxFileSize)
    (hfind : s.UsableDir p → ∀ e, find (s.slots p) name = some e → s.IsDir e) :
    Linked s s' n p name (fileInode p size bs) bs i :=
  { M with
    parentDir := hp
    named := hname
    parent := rfl
    storedSuperblock := .inr M.storedSuperblock
    kind := .inr ⟨rfl, M.fileBlocks hsize, hfind⟩ }

end Made

end EphemeralOS
