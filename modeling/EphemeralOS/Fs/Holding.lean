import EphemeralOS.Lib.Ownership
import EphemeralOS.Fs.View

/-!
# Allocation and rollback

A creation takes an inode, then blocks one at a time, and gives everything back
when it runs out or finds no directory slot. `Holding s h n v bs` is the state
`h` on the way, started in `s`: the inode `n`, free in `s`, is now `v` and holds
the blocks `bs`, which were free in `s`; nothing else has changed but the
contents of these blocks. Every step of a creation keeps `Holding`, and giving
up returns to `s` up to what no operation observes (`Same`, `Holding.abort`).
-/

namespace EphemeralOS

open Directory

/-- An inode without the stale parent number of a free one. -/
def Inode.visible (v : Inode) : Inode :=
  if v.type = inodeTypeFree then { v with parentInode := 0 } else v

theorem Inode.visible_eq_iff {v w : Inode} : v.visible = w.visible ↔
    v.type = w.type ∧ v.size = w.size ∧ v.blocks = w.blocks ∧
      (v.type ≠ inodeTypeFree → v.parentInode = w.parentInode) := by
  obtain ⟨vt, vs, vb, vp⟩ := v
  obtain ⟨wt, ws, wb, wp⟩ := w
  by_cases hv : vt = inodeTypeFree <;> by_cases hw : wt = inodeTypeFree <;>
    simp [Inode.visible, hv, hw]
  · exact fun h => absurd h.symm hw

theorem Inode.eq_of_visible {v w : Inode} (h : v.visible = w.visible)
    (hv : v.type ≠ inodeTypeFree) : v = w := by
  obtain ⟨h1, h2, h3, h4⟩ := Inode.visible_eq_iff.mp h
  replace h4 := h4 hv
  obtain ⟨vt, vs, vb, vp⟩ := v
  obtain ⟨wt, ws, wb, wp⟩ := w
  simp only at h1 h2 h3 h4
  rw [h1, h2, h3, h4]

/-- The same state up to stale parent numbers of free inodes and the contents of free blocks. -/
structure Same (s s' : FsState) : Prop where
  superblock : s'.superblock = s.superblock
  table : ∀ i, (s'.inodeTable i).visible = (s.inodeTable i).visible
  bits : ∀ b, s'.bit b = s.bit b
  data : ∀ b, s.bit b = true → s'.data b = s.data b
  low : ∀ x, x < fsDataStartSector → s'.disk.sectors x = s.disk.sectors x
  faults : s'.disk.faults = s.disk.faults

theorem Same.refl (s : FsState) : Same s s :=
  ⟨rfl, fun _ => rfl, fun _ => rfl, fun _ _ => rfl, fun _ _ => rfl, rfl⟩

/-! ## Freeing an inode -/

/-- The blocks that the pointers `ks` of an inode name. -/
def Inode.pointersAt (v : Inode) (ks : List (Fin 12)) : List UInt32 :=
  (ks.map v.blocks).filter (· ≠ 0)

def Inode.pointers (v : Inode) : List UInt32 := v.pointersAt (List.finRange 12)

theorem Inode.mem_pointers {v : Inode} {b : UInt32} :
    b ∈ v.pointers ↔ b ≠ 0 ∧ ∃ k, v.blocks k = b := by
  simp [Inode.pointers, Inode.pointersAt, and_comm]

theorem test_foldl_clear (bm : UInt32 → UInt8) (ps : List UInt32) (b : UInt32) :
    Bits.test (ps.foldl Bits.clear bm) b = (decide (b ∉ ps) && Bits.test bm b) := by
  induction ps generalizing bm with
  | nil => simp
  | cons p ps ih =>
    rw [List.foldl_cons, ih, Bits.test_clear]
    by_cases h1 : b = p <;> by_cases h2 : b ∈ ps <;> simp [h1, h2]

theorem Inode.pointersAt_cons_zero {v : Inode} {k : Fin 12} (ks : List (Fin 12))
    (h : v.blocks k = 0) : v.pointersAt (k :: ks) = v.pointersAt ks := by
  simp [Inode.pointersAt, h]

theorem Inode.pointersAt_cons {v : Inode} {k : Fin 12} (ks : List (Fin 12))
    (h : v.blocks k ≠ 0) : v.pointersAt (k :: ks) = v.blocks k :: v.pointersAt ks := by
  simp [Inode.pointersAt, h]

theorem Inode.pointersAt_congr {v w : Inode} {ks : List (Fin 12)}
    (h : ∀ k ∈ ks, w.blocks k = v.blocks k) : w.pointersAt ks = v.pointersAt ks := by
  rw [Inode.pointersAt, Inode.pointersAt, List.map_congr_left h]

theorem freeInodeBlocks_eq (n : UInt32) :
    ∀ (ks : List (Fin 12)) (s : FsState), ks.Nodup → (∀ k, (s.inodeTable n).blocks k < fsMaxBlocks) →
      freeInodeBlocks n ks s = { s with
        inodeTable := Function.update s.inodeTable n { s.inodeTable n with
          blocks := fun k => if k ∈ ks then 0 else (s.inodeTable n).blocks k }
        blockBitmap := ((s.inodeTable n).pointersAt ks).foldl Bits.clear s.blockBitmap
        superblock := { s.superblock with
          freeBlocks := s.superblock.freeBlocks +
            UInt32.ofNat ((s.inodeTable n).pointersAt ks).length } }
  | [], s, _, _ => by
    simp [freeInodeBlocks, Inode.pointersAt]
  | k :: ks, s, hnd, hlt => by
    obtain ⟨hk, hnd⟩ := List.nodup_cons.mp hnd
    have hext : ∀ j, (if j ∈ k :: ks then (0 : UInt32) else (s.inodeTable n).blocks j) =
        if j ∈ ks then 0 else if (j : Nat) = k then 0 else (s.inodeTable n).blocks j := by
      intro j
      have : (j : Nat) = k ↔ j = k := Fin.ext_iff.symm
      by_cases h1 : j ∈ ks <;> by_cases h2 : j = k <;> simp [h1, h2, this]
    by_cases hb : (s.inodeTable n).blocks k = 0
    · have hp := Inode.pointersAt_cons_zero ks hb
      have hz : ∀ j : Fin 12, (if (j : Nat) = k then 0 else (s.inodeTable n).blocks j) =
          (s.inodeTable n).blocks j := by
        intro j
        split
        · next h => rw [Fin.ext h, hb]
        · rfl
      simp only [freeInodeBlocks, hb, ne_eq, not_true, if_false, hp, hext, hz]
      exact freeInodeBlocks_eq n ks s hnd hlt
    · have hp := Inode.pointersAt_cons ks hb
      let w : Inode := { s.inodeTable n with
        blocks := fun j => if (j : Nat) = k then 0 else (s.inodeTable n).blocks j }
      let s1 := (s.markBlockFree ((s.inodeTable n).blocks k)).setInodeBlock n k 0
      have hs1 : s1 = { s with
          inodeTable := Function.update s.inodeTable n w
          blockBitmap := Bits.clear s.blockBitmap ((s.inodeTable n).blocks k)
          superblock := { s.superblock with freeBlocks := s.superblock.freeBlocks + 1 } } := by
        simp only [s1, s.markBlockFree_of_lt (hlt k)]
        rfl
      have hw : s1.inodeTable n = w := by rw [hs1]; exact Function.update_self ..
      have hpw : w.pointersAt ks = (s.inodeTable n).pointersAt ks :=
        Inode.pointersAt_congr fun j hj => if_neg fun e => by
          rw [Fin.ext e] at hj
          exact hk hj
      have hw0 : ∀ j, w.blocks j < fsMaxBlocks := by
        intro j
        simp only [w]
        split
        · decide
        · exact hlt j
      have hcount : s.superblock.freeBlocks + 1 +
          UInt32.ofNat ((s.inodeTable n).pointersAt ks).length =
          s.superblock.freeBlocks +
            UInt32.ofNat ((s.inodeTable n).pointersAt (k :: ks)).length := by
        rw [hp, List.length_cons, UInt32.ofNat_add, UInt32.add_assoc]
        congr 1
        exact UInt32.add_comm ..
      have ih := freeInodeBlocks_eq n ks s1 hnd (by rw [hw]; exact hw0)
      have hstep : freeInodeBlocks n (k :: ks) s = freeInodeBlocks n ks s1 := by
        simp only [freeInodeBlocks, ne_eq, hb, not_false_eq_true, if_true, s1]
      rw [hstep, ih, hw, hpw, hs1]
      simp only [Function.update_idem, hcount, hext, hp, List.foldl_cons, w]

/-- **`free_inode`**: the inode becomes free, and the bits of the blocks it held are cleared. -/
theorem freeInode_eq {n : UInt32} {s : FsState} (hn : n < fsMaxInodes)
    (hlt : ∀ k, (s.inodeTable n).blocks k < fsMaxBlocks) :
    freeInode n s = { s with
      inodeTable := Function.update s.inodeTable n
        ⟨inodeTypeFree, 0, fun _ => 0, (s.inodeTable n).parentInode⟩
      blockBitmap := (s.inodeTable n).pointers.foldl Bits.clear s.blockBitmap
      superblock := { s.superblock with
        freeInodes := s.superblock.freeInodes + 1
        freeBlocks := s.superblock.freeBlocks + UInt32.ofNat (s.inodeTable n).pointers.length } } := by
  unfold freeInode
  rw [if_neg (UInt32.not_le.mpr hn),
    freeInodeBlocks_eq n (List.finRange 12) s (List.nodup_finRange 12) hlt]
  simp [FsState.setInode, Inode.pointers]

def FsState.clearBlocks (s : FsState) : Finset UInt32 :=
  (indices 512).toFinset.filter fun b => s.bit b = false

def FsState.freeNumbers (s : FsState) : Finset UInt32 :=
  (indices 200).toFinset.filter fun i => (s.inodeTable i).type = inodeTypeFree

def CleanFree (s : FsState) : Prop :=
  ∀ i, i < fsMaxInodes → (s.inodeTable i).type = inodeTypeFree →
    (s.inodeTable i).size = 0 ∧ ∀ k, (s.inodeTable i).blocks k = 0

theorem mem_inodes {i : UInt32} : i ∈ indices 200 ↔ i < fsMaxInodes := by
  rw [mem_indices (by omega), lt_fsMaxInodes]

theorem mem_blocks {b : UInt32} : b ∈ indices 512 ↔ b < fsMaxBlocks := by
  rw [mem_indices (by omega), lt_fsMaxBlocks]

theorem mem_clearBlocks {s : FsState} {b : UInt32} :
    b ∈ s.clearBlocks ↔ b < fsMaxBlocks ∧ s.bit b = false := by
  simp [FsState.clearBlocks, mem_blocks]

theorem mem_freeNumbers {s : FsState} {i : UInt32} :
    i ∈ s.freeNumbers ↔ i < fsMaxInodes ∧ (s.inodeTable i).type = inodeTypeFree := by
  simp [FsState.freeNumbers, mem_inodes]

/-! ## Holding -/

/-- `h` has, compared with `s`, the inode `n` and the blocks `bs` taken, the inode being `v`. -/
structure Taken (s h : FsState) (n : UInt32) (v : Inode) (bs : List UInt32) : Prop where
  num : n < fsMaxInodes
  free : (s.inodeTable n).type = inodeTypeFree
  clean : (s.inodeTable n).size = 0 ∧ ∀ k, (s.inodeTable n).blocks k = 0
  table : h.inodeTable = Function.update s.inodeTable n v
  ptrs : ∀ k, v.blocks k = bs.getD k 0
  len : bs.length ≤ 12
  nodup : bs.Nodup
  fresh : ∀ b ∈ bs, ValidBlock b ∧ s.bit b = false
  bits : ∀ b, h.bit b = (decide (b ∈ bs) || s.bit b)
  superblock : h.superblock = { s.superblock with
    freeInodes := s.superblock.freeInodes - 1
    freeBlocks := s.superblock.freeBlocks - UInt32.ofNat bs.length }
  faults : h.disk.faults = s.disk.faults

/-- A creation on the way: only the contents of the blocks taken have changed. -/
structure Holding (s h : FsState) (n : UInt32) (v : Inode) (bs : List UInt32) : Prop
    extends Taken s h n v bs where
  sectors : ∀ x, (∀ b ∈ bs, x ≠ fsDataStartSector + b.toNat) → h.disk.sectors x = s.disk.sectors x

namespace Taken

variable {s h : FsState} {n : UInt32} {v : Inode} {bs : List UInt32}

theorem inode (H : Taken s h n v bs) : h.inodeTable n = v := by rw [H.table, Function.update_self]

theorem inode_ne (H : Taken s h n v bs) {i : UInt32} (hi : i ≠ n) :
    h.inodeTable i = s.inodeTable i := by rw [H.table, Function.update_of_ne hi]

theorem perfect (H : Taken s h n v bs) (hs : s.disk.Perfect) : h.disk.Perfect := H.faults.trans hs

theorem not_mem (H : Taken s h n v bs) {b : UInt32} (hb : s.bit b = true) : b ∉ bs := fun hm => by
  rw [(H.fresh b hm).2] at hb; cases hb

theorem pointers_eq (H : Taken s h n v bs) : v.pointers = bs := by
  have hmap : (List.finRange 12).map v.blocks = bs ++ List.replicate (12 - bs.length) 0 := by
    apply List.ext_getElem
    · have := H.len; simp; omega
    · intro i h1 h2
      rw [List.getElem_map, H.ptrs, List.getElem_finRange]
      by_cases hi : i < bs.length
      · rw [List.getElem_append_left hi]; simp [hi]
      · rw [List.getElem_append_right (by omega)]; simp [hi]
  have hbs : bs.filter (· ≠ 0) = bs :=
    List.filter_eq_self.mpr fun b hb => decide_eq_true (H.fresh b hb).1.1
  rw [Inode.pointers, Inode.pointersAt, hmap, List.filter_append, hbs,
    List.filter_eq_nil_iff.mpr (fun b hb => by simp [List.eq_of_mem_replicate hb]), List.append_nil]

theorem blocks_lt (H : Taken s h n v bs) (k : Fin 12) : v.blocks k < fsMaxBlocks := by
  rw [H.ptrs]
  by_cases hk : (k : Nat) < bs.length
  · rw [List.getD_eq_getElem _ _ hk]; exact (H.fresh _ (List.getElem_mem hk)).1.2
  · rw [List.getD_eq_default _ _ (by omega)]; decide

theorem length_le (H : Taken s h n v bs) : bs.length ≤ s.clearBlocks.card := by
  rw [← List.toFinset_card_of_nodup H.nodup]
  refine Finset.card_le_card fun b hb => ?_
  have := H.fresh b (List.mem_toFinset.mp hb)
  exact mem_clearBlocks.mpr ⟨this.1.2, this.2⟩

end Taken

namespace Holding

variable {s h : FsState} {n : UInt32} {v : Inode} {bs : List UInt32}

theorem data (H : Holding s h n v bs) {b : UInt32} (hb : b ∉ bs) : h.data b = s.data b :=
  H.sectors _ fun _ hc e => hb (dataSector_inj e ▸ hc)

theorem low (H : Holding s h n v bs) {x : Nat} (hx : x < fsDataStartSector) :
    h.disk.sectors x = s.disk.sectors x := H.sectors x fun b _ => by omega

theorem setInode (H : Holding s h n v bs) {w : Inode} (hw : w.blocks = v.blocks) :
    Holding s (h.setInode n w) n w bs :=
  { H with
    table := by simp only [FsState.setInode, H.table, Function.update_idem]
    ptrs := fun k => by rw [hw]; exact H.ptrs k }

theorem setBuffer (H : Holding s h n v bs) (sec : Sector) :
    Holding s { h with sectorBuffer := sec } n v bs := { H with }

theorem write (H : Holding s h n v bs) {b : UInt32} (hb : b ∈ bs) (sec : Sector) :
    Holding s (writeInodeBlock b sec h) n v bs :=
  { H with
    table := by rw [writeInodeBlock_inodeTable]; exact H.table
    bits := fun x => by rw [writeInodeBlock_bit]; exact H.bits x
    superblock := by rw [writeInodeBlock_superblock]; exact H.superblock
    sectors := fun x hx => by
      rw [writeInodeBlock_sectors, if_neg fun e => hx b hb e.2]; exact H.sectors x hx
    faults := by rw [writeInodeBlock_faults]; exact H.faults }

/-- **Giving up**: the inode and the blocks go back. -/
theorem abort (H : Holding s h n v bs) : Same s (freeInode n h) := by
  rw [freeInode_eq H.num (by rw [H.inode]; exact H.blocks_lt), H.inode, H.pointers_eq]
  refine ⟨?_, fun i => ?_, fun b => ?_, fun b hb => ?_, fun x hx => H.low hx, H.faults⟩
  · simp only [H.superblock, UInt32.sub_add_cancel]
  · show (Function.update h.inodeTable n _ i).visible = _
    by_cases hi : i = n
    · subst hi
      rw [Function.update_self, Inode.visible_eq_iff]
      exact ⟨H.free.symm, H.clean.1.symm, funext fun k => (H.clean.2 k).symm,
        fun h => absurd rfl h⟩
    · rw [Function.update_of_ne hi, H.inode_ne hi]
  · show Bits.test (bs.foldl Bits.clear h.blockBitmap) b = s.bit b
    rw [test_foldl_clear]
    show (decide (b ∉ bs) && h.bit b) = s.bit b
    rw [H.bits]
    by_cases hb : b ∈ bs
    · simp [hb, (H.fresh b hb).2]
    · simp [hb]
  · exact H.data (H.not_mem hb)

end Holding

/-! ## Allocating -/

theorem allocateInode_cases (s : FsState) (hclean : CleanFree s) :
    (allocateInode s = (noNumber, s) ∧ s.freeNumbers = ∅) ∨
    ∃ n h, allocateInode s = (n, h) ∧ Holding s h n ⟨inodeTypeFile, 0, fun _ => 0, 0⟩ [] := by
  unfold allocateInode
  cases hf : (indices 200).find? fun i => (s.inodeTable i).type = inodeTypeFree with
  | none =>
    refine .inl ⟨rfl, Finset.eq_empty_of_forall_notMem fun i hi => ?_⟩
    obtain ⟨hi, hfree⟩ := mem_freeNumbers.mp hi
    exact List.find?_eq_none.mp hf i (mem_inodes.mpr hi) (decide_eq_true hfree)
  | some n =>
    have hfree : (s.inodeTable n).type = inodeTypeFree := by simpa using List.find?_some hf
    have hn : n < fsMaxInodes := mem_inodes.mp (List.mem_of_find?_eq_some hf)
    exact .inr ⟨n, _, rfl, {
      num := hn
      free := hfree
      clean := hclean n hn hfree
      table := rfl
      ptrs := fun _ => rfl
      len := by simp
      nodup := List.nodup_nil
      fresh := fun _ hb => nomatch hb
      bits := fun b => by simp; rfl
      superblock := by simp
      sectors := fun _ _ => rfl
      faults := rfl }⟩

theorem sub_count_succ (a : UInt32) (n : Nat) :
    a - UInt32.ofNat n - 1 = a - UInt32.ofNat (n + 1) := by
  rw [UInt32.ofNat_add]
  have : UInt32.ofNat 1 = 1 := rfl
  grind

theorem Holding.taken {s h : FsState} {n : UInt32} {v : Inode} {bs : List UInt32}
    (H : Holding s h n v bs) (hlen : bs.length < 12) {b : UInt32} (hvalid : ValidBlock b)
    (hnew : b ∉ bs) (hclear : s.bit b = false) :
    Holding s ((h.markBlockUsed b).setInodeBlock n bs.length b) n
      { v with blocks := fun j => if (j : Nat) = bs.length then b else v.blocks j }
      (bs ++ [b]) := by
  have hmark : ((h.markBlockUsed b).inodeTable n) = v := by
    rw [h.markBlockUsed_of_lt hvalid.2]; exact H.inode
  have hset : (h.markBlockUsed b).setInodeBlock n bs.length b = (h.markBlockUsed b).setInode n
      { v with blocks := fun j => if (j : Nat) = bs.length then b else v.blocks j } := by
    unfold FsState.setInodeBlock; rw [hmark]
  rw [hset, h.markBlockUsed_of_lt hvalid.2]
  exact {
    num := H.num
    free := H.free
    clean := H.clean
    table := by simp only [FsState.setInode, H.table, Function.update_idem]
    ptrs := fun k => by
      show (if (k : Nat) = bs.length then b else v.blocks k) = _
      by_cases hk : (k : Nat) = bs.length
      · simp [hk]
      · rw [if_neg hk, H.ptrs]
        rcases Nat.lt_or_ge k bs.length with hlt | hge
        · rw [List.getD_append _ _ _ _ hlt]
        · rw [List.getD_eq_default _ _ hge, List.getD_eq_default _ _ (by simp; omega)]
    len := by simp; omega
    nodup := by
      rw [List.nodup_append]
      exact ⟨H.nodup, by simp, fun a ha c hc e => hnew (by
        rw [List.mem_singleton] at hc; rw [← hc, ← e]; exact ha)⟩
    fresh := fun c hc => by
      rcases List.mem_append.mp hc with hc | hc
      · exact H.fresh c hc
      · rw [List.mem_singleton.mp hc]; exact ⟨hvalid, hclear⟩
    bits := fun c => by
      show Bits.test (Bits.set h.blockBitmap b) c = _
      rw [Bits.test_set]
      show (decide (c = b) || h.bit c) = _
      rw [H.bits]
      by_cases h1 : c = b <;> by_cases h2 : c ∈ bs <;> simp [h1, h2]
    superblock := by
      simp only [FsState.setInode, H.superblock, List.length_append, List.length_singleton,
        sub_count_succ]
    sectors := fun x hx => H.sectors x fun c hc => hx c (List.mem_append_left _ hc)
    faults := H.faults }

/-- **`allocate_block` on the way of a creation.** It fails when the blocks held are all that were
free; else the block it takes, entered in the inode, joins them. -/
theorem Holding.allocateBlock_cases {s h : FsState} {n : UInt32} {v : Inode} {bs : List UInt32}
    (H : Holding s h n v bs) (h0 : s.bit 0 = true) (hlen : bs.length < 12) :
    (allocateBlock h = (noNumber, h) ∧ s.clearBlocks.card ≤ bs.length) ∨
    ∃ b h', allocateBlock h = (b, h') ∧ b < fsMaxBlocks ∧
      Holding s (h'.setInodeBlock n bs.length b) n
        { v with blocks := fun j => if (j : Nat) = bs.length then b else v.blocks j }
        (bs ++ [b]) := by
  unfold allocateBlock
  cases hf : (indices 512).find? h.isBlockFree with
  | none =>
    refine .inl ⟨rfl, ?_⟩
    rw [← List.toFinset_card_of_nodup H.nodup]
    refine Finset.card_le_card fun b hb => ?_
    obtain ⟨hb, hclear⟩ := mem_clearBlocks.mp hb
    have := List.find?_eq_none.mp hf b (mem_blocks.mpr hb)
    rw [FsState.isBlockFree_eq, H.bits] at this
    simpa [hb, hclear] using this
  | some b =>
    obtain ⟨hb, hbit⟩ := FsState.isBlockFree_eq.mp (List.find?_some hf)
    have hbs : b ∉ bs ∧ s.bit b = false := by
      rw [H.bits] at hbit
      simpa using hbit
    have hvalid : ValidBlock b := by
      refine ⟨fun e => ?_, hb⟩
      rw [e, h0] at hbs
      cases hbs.2
    exact .inr ⟨b, h.markBlockUsed b, rfl, hb, H.taken hlen hvalid hbs.1 hbs.2⟩

/-! ## Entering a directory -/

section Link

variable {s : FsState}

/-- A directory block read from the disk always has a slot that is not in use: its last one. -/
theorem addEntry_dirBlock (s : FsState) (p : UInt32) (name : List UInt8) (n : UInt32) :
    ∃ i, s.slots p i = none ∧ (∀ j, j < i → s.slots p j ≠ none) ∧
      addEntry (s.dirBlock p) name n = some (Function.update (s.dirBlock p) i
        ⟨(s.dirBlock p i).name.strcpy name, n, 1⟩) := by
  unfold addEntry
  have hlast : (s.dirBlock p 14).inUse ≠ 1 := slotsOf_eq_none.mp (slots_last _)
  cases hf : firstSlot (s.dirBlock p) fun e => e.inUse ≠ 1 with
  | none =>
    have := first_eq_none_iff.mp hf 14
    simp only [decide_eq_false_iff_not, not_not] at this
    exact absurd this hlast
  | some i =>
    obtain ⟨hi, hlt⟩ := first_eq_some_iff.mp hf
    refine ⟨i, slotsOf_eq_none.mpr (by simpa using hi), fun j hj hnone => ?_, rfl⟩
    have := hlt j hj
    simp only [decide_eq_false_iff_not, not_not] at this
    exact slotsOf_eq_none.mp hnone this

/-- `linkEntry` on a perfect disk. It never finds the directory full. -/
theorem linkEntry_eq (hs : s.disk.Perfect) (p : UInt32) (name : List UInt8) (n : UInt32) :
    ∃ i, s.slots p i = none ∧ (∀ j, j < i → s.slots p j ≠ none) ∧
      linkEntry p name n s = (true, writeInodeBlock ((s.inodeTable p).blocks 0)
        (sectorOfDir (Function.update (s.dirBlock p) i
          ⟨(s.dirBlock p i).name.strcpy name, n, 1⟩)) s) := by
  obtain ⟨i, h1, h2, h3⟩ := addEntry_dirBlock s p name n
  refine ⟨i, h1, h2, ?_⟩
  unfold linkEntry
  rw [FsM.bind_gets, FsM.bind_eq (readDirBlock_eq hs p), h3]
  rfl

/-- A finished creation: the inode `n` holding `bs` is `v`, entered as `name` in slot `i` of
directory `p`; the tables are on the disk. -/
structure Created (s s' : FsState) (n p : UInt32) (name : List UInt8) (v : Inode)
    (bs : List UInt32) (i : Fin 15) : Prop extends Taken s s' n v bs where
  kept : ∀ b, b ∉ bs → b ≠ (s.inodeTable p).blocks 0 → s'.data b = s.data b
  empty : s.slots p i = none
  before : ∀ j, j < i → s.slots p j ≠ none
  linked : ValidBlock ((s.inodeTable p).blocks 0) → s'.data ((s.inodeTable p).blocks 0) =
    sectorOfDir (Function.update (s.dirBlock p) i ⟨(s.dirBlock p i).name.strcpy name, n, 1⟩)
  storedTable : s'.storedTable = s'.tableObject
  storedBitmap : s'.storedBitmap = s'.bitmapObject

theorem Created.syncSuperblock {s s' : FsState} {n p : UInt32} {name : List UInt8} {v : Inode}
    {bs : List UInt32} {i : Fin 15} (C : Created s s' n p name v bs i) :
    Created s (syncSuperblock s') n p name v bs i :=
  { C with
    kept := fun b h1 h2 => (syncSuperblock_data s' b).trans (C.kept b h1 h2)
    linked := fun hb => (syncSuperblock_data s' _).trans (C.linked hb)
    storedTable := (syncSuperblock_storedTable s').trans (C.storedTable.trans (tableObject_congr rfl))
    storedBitmap :=
      (syncSuperblock_storedBitmap s').trans (C.storedBitmap.trans (bitmapObject_congr rfl)) }

/-- **A creation is finished** by entering the inode in its parent, whose block is in use, and
syncing the inode table and the bitmap. -/
theorem Holding.link {s h : FsState} {n p : UInt32} {v : Inode} {bs : List UInt32}
    (H : Holding s h n v bs) (hs : s.disk.Perfect) (hpn : p ≠ n)
    (hp : ValidBlock ((s.inodeTable p).blocks 0) → s.bit ((s.inodeTable p).blocks 0) = true)
    (name : List UInt8) :
    ∃ t i, linkEntry p name n h = (true, t) ∧
      Created s (syncBlockBitmap (syncInodeTable t)) n p name v bs i ∧
      (∀ b ∈ bs, (syncBlockBitmap (syncInodeTable t)).data b = h.data b) ∧
      (syncBlockBitmap (syncInodeTable t)).storedSuperblock = s.storedSuperblock := by
  have hinode : h.inodeTable p = s.inodeTable p := H.inode_ne hpn
  have hnot : (s.inodeTable p).blocks 0 ∉ bs := by
    intro hm
    exact H.not_mem (hp (H.fresh _ hm).1) hm
  have hdir : h.dirBlock p = s.dirBlock p := by
    simp only [FsState.dirBlock, hinode, H.data hnot]
  have hslots : h.slots p = s.slots p := by simp only [FsState.slots, hdir]
  obtain ⟨i, h1, h2, h3⟩ := linkEntry_eq (H.perfect hs) p name n
  rw [hslots] at h1 h2
  rw [hinode, hdir] at h3
  refine ⟨_, i, h3, ?_, fun b hb => ?_, ?_⟩
  · exact { H.toTaken with
      table := by simpa using H.table
      bits := fun b => by simpa [FsState.bit] using H.bits b
      superblock := by simpa using H.superblock
      faults := by simpa using H.faults
      kept := fun b hb hne => by
        simp only [syncBlockBitmap_data, syncInodeTable_data]
        rw [writeInodeBlock_data, if_neg fun e => hne e.2, H.data hb]
      empty := h1
      before := h2
      linked := fun hv => by
        simp only [syncBlockBitmap_data, syncInodeTable_data]
        rw [writeInodeBlock_data, if_pos ⟨hv, rfl⟩]
      storedTable := by
        rw [syncBlockBitmap_storedTable, syncInodeTable_storedTable]
        exact tableObject_congr rfl
      storedBitmap := by
        rw [syncBlockBitmap_storedBitmap]
        exact bitmapObject_congr rfl }
  · have hne : b ≠ (s.inodeTable p).blocks 0 := fun e => hnot (e ▸ hb)
    simp only [syncBlockBitmap_data, syncInodeTable_data]
    rw [writeInodeBlock_data, if_neg fun e => hne e.2]
  · rw [syncBlockBitmap_storedSuperblock, syncInodeTable_storedSuperblock]
    exact storedSuperblock_congr
      ((writeInodeBlock_meta _ _ _ (by decide)).trans (H.low (by decide)))

end Link

end EphemeralOS
