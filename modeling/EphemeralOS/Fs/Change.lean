import EphemeralOS.Fs.Replace
import Mathlib.Logic.Relation

/-!
# Elementary changes

Every operation is a sequence of elementary changes (`Changes`): nothing that
shows, one inode made, one file deleted. What each change keeps, every operation
keeps (`Changes.preserves`): the invariant, the counters of the superblock
(`Counters`), and the agreement of memory and disk (`Synced`).
-/

namespace EphemeralOS

open Directory Ownership

/-- One change. `made` are the sizes of the files it may make, `gone` the files it may delete. -/
inductive Change (made gone : UInt32 → Prop) (s s' : FsState) : Prop
  | same : Same s s' → Change made gone s s'
  | linked {n p : UInt32} {name : List UInt8} {v : Inode} {bs : List UInt32} {i : Fin 15} :
      (v.type = inodeTypeFile → made v.size) → Linked s s' n p name v bs i → Change made gone s s'
  | removed {f p : UInt32} {c : List UInt8} {j : Fin 15} : gone f → Removed s s' f p c j →
      Change made gone s s'

abbrev Changes (made gone : UInt32 → Prop) : FsState → FsState → Prop :=
  Relation.ReflTransGen (Change made gone)

abbrev nothing : UInt32 → Prop := fun _ => False

section Preserves

variable {made gone : UInt32 → Prop} {s s' : FsState}

theorem Change.inv (hI : Inv s) (h : Change made gone s s') : Inv s' := by
  cases h with
  | same h => exact h.agree.inv hI
  | linked _ L => exact L.inv hI
  | removed _ R => exact R.inv hI

theorem Change.mono {made' gone' : UInt32 → Prop} (hm : ∀ n, made n → made' n)
    (hg : ∀ f, gone f → gone' f) (h : Change made gone s s') : Change made' gone' s s' := by
  cases h with
  | same h => exact .same h
  | linked hv L => exact .linked (fun e => hm _ (hv e)) L
  | removed hf R => exact .removed (hg _ hf) R

theorem Changes.mono {made' gone' : UInt32 → Prop} (hm : ∀ n, made n → made' n)
    (hg : ∀ f, gone f → gone' f) (h : Changes made gone s s') : Changes made' gone' s s' :=
  Relation.ReflTransGen.mono (fun _ _ hc => Change.mono hm hg hc) _ _ h

/-- **What every change keeps in states of the invariant, every sequence of changes keeps.** -/
theorem Changes.preserves {P : FsState → Prop}
    (hP : ∀ t t', Inv t → P t → Change made gone t t' → P t') (hI : Inv s) (hs : P s)
    (h : Changes made gone s s') : Inv s' ∧ P s' := by
  induction h with
  | refl => exact ⟨hI, hs⟩
  | tail _ hstep ih => exact ⟨hstep.inv ih.1, hP _ _ ih.1 ih.2 hstep⟩

end Preserves

/-! ## The operations are sequences of changes -/

theorem Mkdirs.changes {s s' : FsState} {cs : List (List UInt8)} {q : Option UInt32}
    (M : Mkdirs s cs q s') : Changes nothing nothing s s' := by
  induction M with
  | found | rejected => exact .refl
  | orphaned _ _ _ _ ih => exact ih
  | refused _ _ _ hsame _ ih => exact ih.tail (.same hsame)
  | made _ hname _ hp hmade ih =>
    exact ih.tail (.linked (fun h => absurd h (show inodeTypeDir ≠ inodeTypeFile by decide))
      (hmade.isLinked hp hname))

theorem Making.changes {s s' : FsState} {p : UInt32} {c : List UInt8} {data : Memory}
    {size : UInt32} {r : Int} (M : Making s p c data size r s') :
    Changes (· = size) nothing s s' := by
  cases M with
  | failed hsame _ => exact .single (.same hsame)
  | made _ L => exact .single (.linked (fun _ => rfl) L)

theorem Cleared.changes {s s' : FsState} {p : UInt32} {c : List UInt8} (C : Cleared s p c s') :
    Changes nothing (fun f => s.lookup p c = some f) s s' := by
  cases C with
  | deleted hf R => exact .single (.removed hf R)
  | kept => exact .refl

theorem fsCreateDir_changes {s : FsState} (hI : Inv s) {path : List UInt8}
    (h0 : ∀ c ∈ comps path, 0 ∉ c) : Changes nothing nothing s (fsCreateDir path s).2 := by
  obtain ⟨r, q, s', hrun, M, -⟩ := fsCreateDir_mkdirs hI h0
  rw [hrun]
  exact M.changes

theorem fsDeleteFile_changes {s : FsState} (hI : Inv s) (path : List UInt8) :
    Changes nothing (fun f => s.resolve (comps path) = some f) s (fsDeleteFile path s).2 := by
  rcases fsDeleteFile_cases hI path with hrun | ⟨s', f, p, c, j, hrun, hf, R⟩
  · rw [hrun]
  · rw [hrun]
    exact .single (.removed hf R)

/-- `fs_create_file` deletes at most what its path leads to once the parents have been made. -/
theorem fsCreateFile_changes {s : FsState} (hI : Inv s) {path : List UInt8}
    (h0 : ∀ c ∈ comps path, 0 ∉ c) (data : Memory) (size : UInt32) :
    Changes (· = size)
      (fun f => (fsCreateDir (splitPath path).1 s).2.resolve (comps path) = some f) s
      (fsCreateFile path data size s).2 := by
  rcases fsCreateFile_cases hI h0 data size with ⟨hrun, -⟩ | ⟨ds, c, q, s1, hpath, hc, hsize, M, hs1, h⟩
  · rw [hrun]
  have hparents : Changes (· = size)
      (fun f => (fsCreateDir (splitPath path).1 s).2.resolve (comps path) = some f) s s1 :=
    M.changes.mono (fun _ h => h.elim) fun _ h => h.elim
  rcases h with ⟨rfl, hrun⟩ | ⟨p, rfl, hrun⟩
  · rw [hrun]
    exact hparents
  rw [hrun]
  rcases replaceFile_cases (M.inv hI) hpath hc M.resolve data hsize with
    ⟨_, hrun⟩ | ⟨_, s2, r, s', C, hM, hrun⟩
  · rw [hrun]
    exact hparents
  · rw [hrun]
    refine (hparents.trans (C.changes.mono (fun _ h => h.elim) fun f hf => ?_)).trans
      (hM.changes.mono (fun _ h => h) fun _ h => h.elim)
    rw [← hs1, hpath, resolve_concat, M.resolve]
    exact hf

/-! ## Counters -/

structure Counters (s : FsState) : Prop where
  blocks : s.superblock.freeBlocks.toNat = s.clearBlocks.card
  inodes : s.superblock.freeInodes.toNat = s.freeNumbers.card

theorem card_indices {n : Nat} (hn : n ≤ 2 ^ 32) : (indices n).toFinset.card = n := by
  rw [List.toFinset_card_of_nodup (nodup_indices hn), indices, List.length_map, List.length_range]

theorem card_clearBlocks_le (s : FsState) : s.clearBlocks.card ≤ 512 :=
  (Finset.card_filter_le _ _).trans (card_indices (by omega)).le

theorem card_freeNumbers_le (s : FsState) : s.freeNumbers.card ≤ 200 :=
  (Finset.card_filter_le _ _).trans (card_indices (by omega)).le

theorem Same.clearBlocks {s s' : FsState} (h : Same s s') : s'.clearBlocks = s.clearBlocks := by
  unfold FsState.clearBlocks
  simp only [h.bits]

theorem Same.freeNumbers {s s' : FsState} (h : Same s s') : s'.freeNumbers = s.freeNumbers := by
  unfold FsState.freeNumbers
  simp only [fun i => (Inode.visible_eq_iff.mp (h.table i)).1]

theorem clearBlocks_congr {s s' : FsState} (h : s'.blockBitmap = s.blockBitmap) :
    s'.clearBlocks = s.clearBlocks := by
  unfold FsState.clearBlocks FsState.bit
  rw [h]

theorem freeNumbers_congr {s s' : FsState} (h : s'.inodeTable = s.inodeTable) :
    s'.freeNumbers = s.freeNumbers := by
  unfold FsState.freeNumbers
  rw [h]

section Count

variable {s s' : FsState}

theorem Taken.card_clearBlocks {n : UInt32} {v : Inode} {bs : List UInt32}
    (T : Taken s s' n v bs) : s'.clearBlocks.card + bs.length = s.clearBlocks.card := by
  refine card_acquire T.nodup (fun b hb => ?_) fun b _ => ?_
  · obtain ⟨hv, hbit⟩ := T.fresh b hb
    exact ⟨List.mem_toFinset.mpr (mem_blocks.mpr hv.2), hbit⟩
  · rw [T.bits, Bool.or_eq_false_iff, decide_eq_false_iff_not, and_comm]

theorem Linked.card_freeNumbers {n p : UInt32} {name : List UInt8} {v : Inode} {bs : List UInt32}
    {i : Fin 15} (L : Linked s s' n p name v bs i) :
    s'.freeNumbers.card + 1 = s.freeNumbers.card := by
  refine card_acquire (List.nodup_singleton n) (fun j hj => ?_) fun j _ => ?_
  · rw [List.mem_singleton.mp hj]
    exact ⟨List.mem_toFinset.mpr (mem_inodes.mpr L.num), L.free⟩
  · by_cases hj : j = n
    · subst hj
      simp [L.new_live.2]
    · rw [L.inode_ne hj]
      simp [hj]

variable {f p : UInt32} {c : List UInt8} {j : Fin 15}

theorem Inv.pointers_nodup (hI : Inv s) {i : UInt32} (hi : s.Live i) :
    (s.inodeTable i).pointers.Nodup := by
  unfold Inode.pointers Inode.pointersAt
  rw [List.filter_map]
  refine List.Nodup.map_on (fun k hk l _ h => ?_) ((List.nodup_finRange 12).filter _)
  have h0 : (s.inodeTable i).blocks k ≠ 0 := by simpa using (List.mem_filter.mp hk).2
  exact (hI.block_inj hi hi h0 h).2

theorem Inv.pointers_used (hI : Inv s) {i : UInt32} (hi : s.Live i) {b : UInt32}
    (hb : b ∈ (s.inodeTable i).pointers) : s.BlockUsed b := by
  obtain ⟨h0, k, rfl⟩ := Inode.mem_pointers.mp hb
  exact hI.blockUsed hi h0

theorem Removed.card_clearBlocks (hI : Inv s) (R : Removed s s' f p c j) :
    s'.clearBlocks.card = s.clearBlocks.card + (s.inodeTable f).pointers.length := by
  refine card_release (hI.pointers_nodup R.file.live) (fun b hb => ?_) fun b _ => ?_
  · obtain ⟨hv, hbit⟩ := hI.pointers_used R.file.live hb
    exact ⟨List.mem_toFinset.mpr (mem_blocks.mpr hv.2), by rw [hbit]; decide⟩
  · rw [R.bits, Bool.and_eq_false_iff, decide_eq_false_iff_not, not_not, or_comm]

theorem Removed.card_freeNumbers (R : Removed s s' f p c j) :
    s'.freeNumbers.card = s.freeNumbers.card + 1 := by
  refine card_release (List.nodup_singleton f) (fun i hi => ?_) fun i _ => ?_
  · rw [List.mem_singleton.mp hi]
    exact ⟨List.mem_toFinset.mpr (mem_inodes.mpr R.file.1), R.file.live.2⟩
  · by_cases hi : i = f
    · subst hi
      simp [R.freed.inode]
    · rw [R.inode_ne hi]
      simp [hi]

end Count

theorem toNat_sub_ofNat {a : UInt32} {n : Nat} (h : n ≤ a.toNat) :
    (a - UInt32.ofNat n).toNat = a.toNat - n := by
  have ha := a.toNat_lt
  have hn : (UInt32.ofNat n).toNat = n := by
    rw [UInt32.toNat_ofNat', Nat.mod_eq_of_lt (by omega)]
  rw [UInt32.toNat_sub_of_le _ _ (UInt32.le_iff_toNat_le.mpr (by omega)), hn]

theorem toNat_add_ofNat {a : UInt32} {n : Nat} (h : a.toNat + n < 2 ^ 32) :
    (a + UInt32.ofNat n).toNat = a.toNat + n := by
  rw [UInt32.toNat_add, UInt32.toNat_ofNat', Nat.mod_eq_of_lt (show n < 2 ^ 32 by omega),
    Nat.mod_eq_of_lt h]

/-- **Every change keeps the counters right.** -/
theorem Counters.change {made gone : UInt32 → Prop} {s s' : FsState} (hI : Inv s) (hC : Counters s)
    (h : Change made gone s s') : Counters s' := by
  have hb := hC.blocks
  have hi := hC.inodes
  cases h with
  | same h => exact ⟨by rw [h.superblock, h.clearBlocks, hb], by rw [h.superblock, h.freeNumbers, hi]⟩
  | linked _ L =>
    have hb' := L.card_clearBlocks
    have hi' := L.card_freeNumbers
    constructor
    · rw [L.superblock, toNat_sub_ofNat (by omega)]
      omega
    · have := toNat_sub_ofNat (a := s.superblock.freeInodes) (n := 1) (by omega)
      rw [L.superblock]
      exact this.trans (by omega)
  | removed _ R =>
    have hb' := R.card_clearBlocks hI
    have hi' := R.card_freeNumbers
    have hbl := card_clearBlocks_le s'
    have hil := card_freeNumbers_le s'
    constructor
    · rw [R.superblock, toNat_add_ofNat (by omega)]
      omega
    · have := toNat_add_ofNat (a := s.superblock.freeInodes) (n := 1) (by omega)
      rw [R.superblock]
      exact this.trans (by omega)

/-- Bit `b` of the bitmap on the disk. -/
def FsState.storedBit (s : FsState) (b : UInt32) : Bool :=
  Bits.test (fun i => if h : i.toNat < 64 then s.storedBitmap ⟨i.toNat, h⟩ else 0) b

/-- The tables on the disk are those in memory, up to what no operation observes. -/
structure Synced (s : FsState) : Prop where
  root : s.storedSuperblock.rootInode = 0
  table : ∀ i, (s.storedTable i).visible = (s.tableObject i).visible
  bits : ∀ b, b < fsMaxBlocks → s.storedBit b = s.bit b

theorem byte_lt {b : UInt32} (hb : b < fsMaxBlocks) : (b / 8).toNat < 64 := by
  have := lt_fsMaxBlocks.mp hb
  rw [UInt32.toNat_div, show (8 : UInt32).toNat = 8 from rfl]
  omega

theorem Synced.of_stored {s : FsState} (hroot : s.storedSuperblock.rootInode = 0)
    (htable : s.storedTable = s.tableObject) (hbitmap : s.storedBitmap = s.bitmapObject) :
    Synced s where
  root := hroot
  table i := by rw [htable]
  bits b hb := by
    simp only [FsState.storedBit, FsState.bit, Bits.test, dif_pos (byte_lt hb), hbitmap,
      FsState.bitmapObject, UInt32.ofNat_toNat]

/-- **Every change keeps memory and disk in sync.** -/
theorem Synced.change {made gone : UInt32 → Prop} {s s' : FsState} (hI : Inv s) (hS : Synced s)
    (h : Change made gone s s') : Synced s' := by
  cases h with
  | same h =>
    obtain ⟨hsuper, htable, hbitmap⟩ := stored_congr h.low
    refine ⟨by rw [hsuper, hS.root], fun i => ?_, fun b hb => ?_⟩
    · rw [htable, hS.table i]
      exact (h.table _).symm
    · unfold FsState.storedBit
      rw [hbitmap, h.bits]
      exact hS.bits b hb
  | linked _ L =>
    refine .of_stored ?_ L.storedTable L.storedBitmap
    rcases L.storedSuperblock with h | h
    · rw [h, hS.root]
    · rw [h, L.superblock]; exact hI.shape.root
  | removed _ R =>
    refine .of_stored ?_ R.storedTable R.storedBitmap
    rw [R.storedSuperblock, hS.root]

end EphemeralOS
