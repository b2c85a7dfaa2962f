import Mathlib.Algebra.Group.Nat.Defs
import EphemeralOS.Kernel.Memory
import EphemeralOS.Lib.Moves

/-!
# Copying bytes

`memcpy`, `memmove` and `strncpy` of `kernel/string.c` in the address space,
where source and destination may overlap. Their loops make `Moves`: forwards
from the first byte, or backwards from the last. `memmove` takes the order in
which every byte is read before it is written (`memmove_copies`).

When `strncpy` comes to the end of the string, its first loop writes the NUL
without counting it, so that one zero too many follows (`strncpy_iff`).
-/

namespace EphemeralOS

/-- The bytes of the address space, and the addresses that have been written. -/
structure Ram where
  cells : UInt32 → UInt8
  written : List UInt32

def Ram.store (a : UInt32) (b : UInt8) (m : Ram) : Ram :=
  ⟨Function.update m.cells a b, m.written ++ [a]⟩

/-- `while (n--) *d++ = *s++;` -/
def copyForward : UInt32 → UInt32 → Nat → Ram → Ram
  | _, _, 0, m => m
  | d, s, n + 1, m => copyForward (d + 1) (s + 1) n (m.store d (m.cells s))

/-- `while (n--) *--d = *--s;` -/
def copyBackward : UInt32 → UInt32 → Nat → Ram → Ram
  | _, _, 0, m => m
  | d, s, n + 1, m => copyBackward (d - 1) (s - 1) n (m.store (d - 1) (m.cells (s - 1)))

def memcpy (dest src n : UInt32) (m : Ram) : UInt32 × Ram := (dest, copyForward dest src n.toNat m)

def memmove (dest src n : UInt32) (m : Ram) : UInt32 × Ram :=
  (dest, if dest < src then copyForward dest src n.toNat m
    else copyBackward (dest + n) (src + n) n.toNat m)

/-- `while (n && (*dest++ = *src++)) n--;`: `dest` and `n` after it. -/
def strncpyCopy : UInt32 → UInt32 → Nat → Ram → UInt32 × Nat × Ram
  | dest, _, 0, m => (dest, 0, m)
  | dest, src, n + 1, m =>
    let c := m.cells src
    let m := m.store dest c
    if c ≠ 0 then strncpyCopy (dest + 1) (src + 1) n m else (dest + 1, n + 1, m)

/-- `while (n--) *dest++ = 0;` -/
def strncpyFill : UInt32 → Nat → Ram → Ram
  | _, 0, m => m
  | dest, n + 1, m => strncpyFill (dest + 1) n (m.store dest 0)

def strncpy (dest src n : UInt32) (m : Ram) : UInt32 × Ram :=
  let (d, k, m) := strncpyCopy dest src n.toNat m
  (dest, strncpyFill d k m)

/-! ## Their moves -/

theorem addr_inj {p : UInt32} {i j : Nat} (hi : i < 2 ^ 32) (hj : j < 2 ^ 32) :
    p + UInt32.ofNat i = p + UInt32.ofNat j ↔ i = j := by
  rw [UInt32.add_right_inj, ← UInt32.toNat_inj, UInt32.toNat_ofNat', UInt32.toNat_ofNat',
    Nat.mod_eq_of_lt hi, Nat.mod_eq_of_lt hj]

theorem addr_succ (p : UInt32) (i : Nat) : p + 1 + UInt32.ofNat i = p + UInt32.ofNat (i + 1) := by
  rw [UInt32.ofNat_add, UInt32.add_assoc, UInt32.add_comm 1]
  rfl

theorem addr_pred (p : UInt32) (i : Nat) : p + UInt32.ofNat (i + 1) - 1 = p + UInt32.ofNat i := by
  rw [UInt32.ofNat_add, ← UInt32.add_assoc]
  exact UInt32.add_sub_cancel _ _

/-- The `n` bytes from `p` on. -/
def addrs (p : UInt32) (n : Nat) : List UInt32 := (List.range n).map fun i => p + UInt32.ofNat i

theorem mem_addrs {p a : UInt32} {n : Nat} :
    a ∈ addrs p n ↔ ∃ i < n, a = p + UInt32.ofNat i := by
  simp [addrs, eq_comm]

theorem ofNat_lt {i : Nat} {n : UInt32} (hi : i < n.toNat) : UInt32.ofNat i < n := by
  rw [UInt32.lt_iff_toNat_lt, UInt32.toNat_ofNat']
  exact Nat.lt_of_le_of_lt (Nat.mod_le _ _) hi

theorem mem_addrs_toNat {p a n : UInt32} : a ∈ addrs p n.toNat ↔ ∃ i, i < n ∧ a = p + i := by
  rw [mem_addrs]
  constructor
  · rintro ⟨i, hi, rfl⟩
    exact ⟨UInt32.ofNat i, ofNat_lt hi, rfl⟩
  · rintro ⟨i, hi, rfl⟩
    exact ⟨i.toNat, UInt32.lt_iff_toNat_lt.mp hi, by rw [UInt32.ofNat_toNat]⟩

/-- The moves of `n` bytes from `s` on to `d`. -/
def moves (d s : UInt32) (n : Nat) : List (UInt32 × UInt32) :=
  (List.range n).map fun i => (s + UInt32.ofNat i, d + UInt32.ofNat i)

theorem mem_moves {d s n i : UInt32} (hi : i < n) : (s + i, d + i) ∈ moves d s n.toNat := by
  refine List.mem_map.mpr ⟨i.toNat, List.mem_range.mpr (UInt32.lt_iff_toNat_lt.mp hi), ?_⟩
  rw [UInt32.ofNat_toNat]

theorem addrs_cons (p : UInt32) (n : Nat) : addrs p (n + 1) = p :: addrs (p + 1) n := by
  rw [addrs, addrs, List.range_succ_eq_map, List.map_cons, List.map_map]
  simp only [Function.comp_def, addr_succ]
  rw [show p + UInt32.ofNat 0 = p from UInt32.add_zero p]

theorem addrs_nodup (p : UInt32) {n : Nat} (hn : n ≤ 2 ^ 32) : (addrs p n).Nodup := by
  refine List.Nodup.map_on (fun i hi j hj heq => ?_) List.nodup_range
  rw [List.mem_range] at hi hj
  exact (addr_inj (by omega) (by omega)).mp heq

theorem map_snd_moves (d s : UInt32) (n : Nat) : (moves d s n).map Prod.snd = addrs d n := by
  rw [moves, List.map_map]
  rfl

theorem nodup_moves (d s : UInt32) {n : Nat} (hn : n ≤ 2 ^ 32) :
    ((moves d s n).map Prod.snd).Nodup := by
  rw [map_snd_moves]
  exact addrs_nodup d hn

theorem moves_cons (d s : UInt32) (n : Nat) :
    moves d s (n + 1) = (s, d) :: moves (d + 1) (s + 1) n := by
  rw [moves, moves, List.range_succ_eq_map, List.map_cons, List.map_map]
  simp only [Function.comp_def, addr_succ]
  rw [show s + UInt32.ofNat 0 = s from UInt32.add_zero s,
    show d + UInt32.ofNat 0 = d from UInt32.add_zero d]

theorem moves_concat (d s : UInt32) (n : Nat) :
    moves d s (n + 1) = moves d s n ++ [(s + UInt32.ofNat n, d + UInt32.ofNat n)] := by
  rw [moves, List.range_succ, List.map_append]
  rfl

theorem copyForward_eq (d s : UInt32) (n : Nat) (m : Ram) : copyForward d s n m =
    ⟨Moves.run (moves d s n) m.cells, m.written ++ addrs d n⟩ := by
  induction n generalizing d s m with
  | zero =>
    change m = ⟨m.cells, m.written ++ []⟩
    rw [List.append_nil]
  | succ n ih =>
    rw [copyForward, ih, moves_cons, Moves.run_cons, addrs_cons]
    simp only [Ram.store, List.append_assoc, List.singleton_append]

theorem copyBackward_cells (d s : UInt32) (n : Nat) (m : Ram) :
    (copyBackward (d + UInt32.ofNat n) (s + UInt32.ofNat n) n m).cells =
      Moves.run (moves d s n).reverse m.cells := by
  induction n generalizing m with
  | zero => rfl
  | succ n ih =>
    rw [copyBackward, addr_pred, addr_pred, ih, moves_concat, List.reverse_concat, Moves.run_cons]
    rfl

/-! ## `memcpy` -/

/-- The memory from an address on. -/
def Ram.from (p : UInt32) (m : Ram) : Memory := fun a => m.cells (p + UInt32.ofNat a)

/-- Between objects that do not overlap, `memcpy` stores the bytes of the source. -/
theorem memcpy_store (m : Ram) {dest src n : UInt32}
    (hdisjoint : ∀ i j, i < n.toNat → j < n.toNat →
      dest + UInt32.ofNat i ≠ src + UInt32.ofNat j) {a : Nat} (ha : a < 2 ^ 32) :
    (memcpy dest src n m).2.from dest a =
      (m.from dest).store 0 ((m.from src).bytes 0 n.toNat) a := by
  have hn := n.toNat_lt
  change (copyForward dest src n.toNat m).cells (dest + UInt32.ofNat a) = _
  rw [copyForward_eq, store_apply, Memory.length_bytes]
  simp only
  by_cases hin : a < n.toNat
  · have hsafe : (moves dest src n.toNat).Pairwise fun earlier later => earlier.2 ≠ later.1 := by
      rw [moves, List.pairwise_map]
      refine List.pairwise_lt_range.imp_of_mem fun hi hj _ => ?_
      exact hdisjoint _ _ (List.mem_range.mp hi) (List.mem_range.mp hj)
    have hmem : (src + UInt32.ofNat a, dest + UInt32.ofNat a) ∈ moves dest src n.toNat :=
      List.mem_map.mpr ⟨a, List.mem_range.mpr hin, rfl⟩
    have hread : ((m.from src).bytes 0 n.toNat).getD a 0 = m.cells (src + UInt32.ofNat a) := by
      rw [List.getD_eq_getElem _ _ (by rwa [Memory.length_bytes])]
      simp [Memory.bytes, Ram.from]
    rw [if_pos (by omega), Nat.sub_zero, hread]
    exact Moves.run_copies (nodup_moves dest src hn.le) hsafe m.cells _ hmem
  · rw [if_neg (by omega)]
    refine Moves.run_of_notMem (fun hmem => ?_) m.cells
    rw [map_snd_moves] at hmem
    obtain ⟨i, hi, heq⟩ := mem_addrs.mp hmem
    have := (addr_inj ha (by omega)).mp heq
    omega

/-! ## `memmove` -/

section Memmove

variable {dest src : UInt32} {n : Nat} (hdest : dest.toNat + n ≤ 2 ^ 32)
  (hsrc : src.toNat + n ≤ 2 ^ 32)

include hdest hsrc

theorem addr_ne {i j : Nat} (hi : i < n) (hj : j < n) (hne : dest.toNat + i ≠ src.toNat + j) :
    dest + UInt32.ofNat i ≠ src + UInt32.ofNat j := by
  intro heq
  have hnat := congrArg UInt32.toNat heq
  rw [UInt32.toNat_add, UInt32.toNat_add, UInt32.toNat_ofNat', UInt32.toNat_ofNat'] at hnat
  omega

/-- Below the source, the first byte goes first. -/
theorem moves_safe (h : dest < src) :
    (moves dest src n).Pairwise fun earlier later => earlier.2 ≠ later.1 := by
  have hlt := UInt32.lt_iff_toNat_lt.mp h
  rw [moves, List.pairwise_map]
  refine List.pairwise_lt_range.imp_of_mem fun hi hj hij => ?_
  rw [List.mem_range] at hi hj
  exact addr_ne hdest hsrc hi hj (by omega)

/-- Above it, the last one does. -/
theorem moves_reverse_safe (h : ¬ dest < src) :
    (moves dest src n).reverse.Pairwise fun earlier later => earlier.2 ≠ later.1 := by
  have hle := mt UInt32.lt_iff_toNat_lt.mpr h
  rw [List.pairwise_reverse, moves, List.pairwise_map]
  refine List.pairwise_lt_range.imp_of_mem fun hi hj hij => ?_
  rw [List.mem_range] at hi hj
  exact addr_ne hdest hsrc hj hi (by omega)

end Memmove

/-- The moves that `memmove` makes. -/
def memmoveMoves (dest src n : UInt32) : List (UInt32 × UInt32) :=
  if dest < src then moves dest src n.toNat else (moves dest src n.toNat).reverse

theorem memmove_cells (dest src n : UInt32) (m : Ram) :
    (memmove dest src n m).2.cells = Moves.run (memmoveMoves dest src n) m.cells := by
  simp only [memmove, memmoveMoves]
  split
  · rw [copyForward_eq]
  · have hback := copyBackward_cells dest src n.toNat m
    rwa [UInt32.ofNat_toNat] at hback

theorem map_snd_memmoveMoves (dest src n : UInt32) :
    ((memmoveMoves dest src n).map Prod.snd).Perm (addrs dest n.toNat) := by
  rw [memmoveMoves]
  split
  · rw [map_snd_moves]
  · rw [List.map_reverse, map_snd_moves]
    exact List.reverse_perm _

/-- **`memmove` copies what was there before, whatever the overlap.** -/
theorem memmove_copies (m : Ram) (dest src n : UInt32) (hdest : dest.toNat + n.toNat ≤ 2 ^ 32)
    (hsrc : src.toNat + n.toNat ≤ 2 ^ 32) :
    (∀ i, i < n → (memmove dest src n m).2.cells (dest + i) = m.cells (src + i)) ∧
      ∀ a, (∀ i, i < n → a ≠ dest + i) → (memmove dest src n m).2.cells a = m.cells a := by
  have hperm := map_snd_memmoveMoves dest src n
  have hnodup := hperm.nodup_iff.mpr (addrs_nodup dest n.toNat_lt.le)
  have hsafe : (memmoveMoves dest src n).Pairwise fun earlier later => earlier.2 ≠ later.1 := by
    rw [memmoveMoves]
    split
    · next h => exact moves_safe hdest hsrc h
    · next h => exact moves_reverse_safe hdest hsrc h
  rw [memmove_cells]
  constructor
  · intro i hi
    have hmem : (src + i, dest + i) ∈ memmoveMoves dest src n := by
      rw [memmoveMoves]
      split
      · exact mem_moves hi
      · exact List.mem_reverse.mpr (mem_moves hi)
    exact Moves.run_copies hnodup hsafe m.cells _ hmem
  · intro a ha
    refine Moves.run_of_notMem (fun hmem => ?_) m.cells
    obtain ⟨i, hi, rfl⟩ := mem_addrs_toNat.mp (hperm.mem_iff.mp hmem)
    exact ha i hi rfl

/-- A memory in which each byte is the low byte of its address. -/
def sampleRam : Ram := ⟨UInt32.toUInt8, []⟩

/-- Four bytes moved up by one. -/
theorem sampleRam_memmove :
    (∀ i, i < 4 → (memmove 17 16 4 sampleRam).2.cells (17 + i) = sampleRam.cells (16 + i)) ∧
      ∀ a, (∀ i, i < 4 → a ≠ 17 + i) →
        (memmove 17 16 4 sampleRam).2.cells a = sampleRam.cells a :=
  memmove_copies sampleRam 17 16 4 (by decide) (by decide)

/-! ## `strncpy` -/

structure HoldsStr (cells : UInt32 → UInt8) (p : UInt32) (str : List UInt8) : Prop where
  noNul : 0 ∉ str
  bytes : ∀ i, i ≤ str.length → cells (p + UInt32.ofNat i) = str.getD i 0

/-- What `strncpy` has to do: write `n` bytes and no others, those of the string and then zeros. -/
structure Strncpied (cells : UInt32 → UInt8) (dest : UInt32) (str : List UInt8) (n : UInt32)
    (m : Ram) : Prop where
  written : ∀ a, a ∈ m.written ↔ ∃ i, i < n ∧ a = dest + i
  bytes : ∀ i, i < n → m.cells (dest + i) = str.getD i.toNat 0
  kept : ∀ a, (∀ i, i < n → a ≠ dest + i) → m.cells a = cells a

/-- The byte that round `i` copies. -/
def copied (d s : UInt32) (cells : UInt32 → UInt8) (i : Nat) : UInt8 :=
  Moves.run (moves d s i) cells (s + UInt32.ofNat i)

theorem copied_succ (d s : UInt32) (cells : UInt32 → UInt8) (i : Nat) : copied d s cells (i + 1) =
    copied (d + 1) (s + 1) (Function.update cells d (cells s)) i := by
  rw [copied, copied, moves_cons, Moves.run_cons, addr_succ]

/-- The first loop ends when `n` bytes other than NUL have been copied, or with a NUL that is not
counted. -/
theorem strncpyCopy_cases (d s : UInt32) (n : Nat) (m : Ram) :
    (strncpyCopy d s n m = (d + UInt32.ofNat n, 0, copyForward d s n m) ∧
      ∀ i, i < n → copied d s m.cells i ≠ 0) ∨
    ∃ k, k < n ∧ copied d s m.cells k = 0 ∧
      strncpyCopy d s n m = (d + UInt32.ofNat (k + 1), n - k, copyForward d s (k + 1) m) := by
  induction n generalizing d s m with
  | zero =>
    refine .inl ⟨?_, fun i hi => absurd hi (Nat.not_lt_zero i)⟩
    rw [strncpyCopy, show d + UInt32.ofNat 0 = d from UInt32.add_zero d]
    rfl
  | succ n ih =>
    have hfirst : copied d s m.cells 0 = m.cells s := congrArg m.cells (UInt32.add_zero s)
    by_cases hc : m.cells s = 0
    · refine .inr ⟨0, Nat.succ_pos n, hfirst.trans hc, ?_⟩
      simp only [strncpyCopy]
      rw [if_neg (not_not_intro hc)]
      rfl
    have hrun : strncpyCopy d s (n + 1) m =
        strncpyCopy (d + 1) (s + 1) n (m.store d (m.cells s)) := by
      simp only [strncpyCopy]
      rw [if_pos hc]
    rcases ih (d + 1) (s + 1) (m.store d (m.cells s)) with ⟨heq, hne⟩ | ⟨k, hk, hzero, heq⟩
    · refine .inl ⟨?_, fun i hi => ?_⟩
      · rw [hrun, heq, addr_succ]
        rfl
      · cases i with
        | zero => rwa [hfirst]
        | succ i =>
          rw [copied_succ]
          exact hne i (Nat.lt_of_succ_lt_succ hi)
    · refine .inr ⟨k + 1, Nat.succ_lt_succ hk, ?_, ?_⟩
      · rw [copied_succ]
        exact hzero
      · rw [hrun, heq, addr_succ, Nat.add_sub_add_right]
        rfl

theorem strncpyFill_written (d : UInt32) (n : Nat) (m : Ram) :
    (strncpyFill d n m).written = m.written ++ addrs d n := by
  induction n generalizing d m with
  | zero => exact (List.append_nil _).symm
  | succ n ih =>
    rw [strncpyFill, ih, addrs_cons]
    simp only [Ram.store, List.append_assoc, List.singleton_append]

theorem run_moves_copied (d s : UInt32) (cells : UInt32 → UInt8) {n i : Nat} (hi : i < n)
    (hn : n ≤ 2 ^ 32) :
    Moves.run (moves d s n) cells (d + UInt32.ofNat i) = copied d s cells i := by
  induction n with
  | zero => exact absurd hi (Nat.not_lt_zero i)
  | succ n ih =>
    rw [moves_concat, Moves.run_concat]
    by_cases hin : i = n
    · rw [if_pos (by rw [hin]), hin]
      rfl
    · rw [if_neg (mt (addr_inj (by omega) (by omega)).mp hin)]
      exact ih (by omega) (by omega)

theorem pairwise_moves_iff (cells : UInt32 → UInt8) (d s : UInt32) {n : Nat} (hn : n ≤ 2 ^ 32) :
    ((moves d s n).Pairwise fun earlier later =>
      earlier.2 = later.1 → cells earlier.1 = cells later.1) ↔
    ∀ i, (d - s).toNat ≤ i → i < n →
      cells (s + UInt32.ofNat (i - (d - s).toNat)) = cells (s + UInt32.ofNat i) := by
  have hrange : ∀ {R : Nat → Nat → Prop}, (List.range n).Pairwise R ↔
      ∀ i j, i < j → j < n → R i j := by
    intro R
    rw [List.pairwise_iff_getElem]
    simp only [List.getElem_range, List.length_range]
    exact ⟨fun h i j hij hj => h i j (by omega) hj hij, fun h i j _ hj hij => h i j hij hj⟩
  have haddr : ∀ j, d + UInt32.ofNat j = s + UInt32.ofNat ((d - s).toNat + j) := by
    intro j
    rw [UInt32.ofNat_add, UInt32.ofNat_toNat, ← UInt32.add_assoc, UInt32.add_comm s,
      UInt32.sub_add_cancel]
  rw [moves, List.pairwise_map, hrange]
  constructor
  · intro h i hle hi
    by_cases hzero : (d - s).toNat = 0
    · rw [hzero]
      rfl
    · refine h (i - (d - s).toNat) i (by omega) hi ?_
      rw [haddr, Nat.add_sub_cancel' hle]
  · intro h j i hji hi heq
    have hlt := (d - s).toNat_lt
    rw [haddr, UInt32.add_right_inj, ← UInt32.toNat_inj, UInt32.toNat_ofNat',
      UInt32.toNat_ofNat'] at heq
    have hi' := h i (by omega) hi
    rwa [show i - (d - s).toNat = j by omega] at hi'

/-- After `n` rounds of the first loop, only the bytes have to be right. -/
theorem strncpied_iff {cells : UInt32 → UInt8} {dest src : UInt32} {str : List UInt8} {n : UInt32} :
    Strncpied cells dest str n (copyForward dest src n.toNat ⟨cells, []⟩) ↔
      ∀ i, i < n.toNat → copied dest src cells i = str.getD i 0 := by
  have hn := n.toNat_lt
  have hbyte : ∀ i, i < n.toNat → (copyForward dest src n.toNat ⟨cells, []⟩).cells
      (dest + UInt32.ofNat i) = copied dest src cells i := fun i hi => by
    rw [copyForward_eq]
    exact run_moves_copied dest src cells hi hn.le
  constructor
  · intro hcopied i hi
    have hi' := hcopied.bytes (UInt32.ofNat i) (ofNat_lt hi)
    rwa [UInt32.toNat_ofNat', Nat.mod_eq_of_lt (by omega), hbyte i hi] at hi'
  · intro hbytes
    refine ⟨fun a => ?_, fun i hi => ?_, fun a ha => ?_⟩
    · rw [copyForward_eq]
      exact mem_addrs_toNat
    · have hi' := UInt32.lt_iff_toNat_lt.mp hi
      rw [← hbytes i.toNat hi', ← hbyte i.toNat hi', UInt32.ofNat_toNat]
    · rw [copyForward_eq]
      refine Moves.run_of_notMem (fun hmem => ?_) cells
      rw [map_snd_moves] at hmem
      obtain ⟨i, hi, rfl⟩ := mem_addrs_toNat.mp hmem
      exact ha i hi rfl

/-- After a NUL that is not counted, the zeros go one byte too far. -/
theorem strncpy_written {cells : UInt32 → UInt8} {dest src n : UInt32} {k : Nat}
    (hk : k < n.toNat) (hrun : strncpyCopy dest src n.toNat ⟨cells, []⟩ =
      (dest + UInt32.ofNat (k + 1), n.toNat - k, copyForward dest src (k + 1) ⟨cells, []⟩)) :
    dest + n ∈ (strncpy dest src n ⟨cells, []⟩).2.written := by
  rw [strncpy, hrun]
  simp only [strncpyFill_written, copyForward_eq]
  refine List.mem_append_right _ (mem_addrs.mpr ⟨n.toNat - k - 1, by omega, ?_⟩)
  have hall : k + 1 + (n.toNat - k - 1) = n.toNat := by omega
  rw [UInt32.add_assoc, ← UInt32.ofNat_add, hall, UInt32.ofNat_toNat]

section Strncpy

variable {cells : UInt32 → UInt8} {src : UInt32} {str : List UInt8} (h : HoldsStr cells src str)
  (dest : UInt32)

include h

theorem HoldsStr.ne_zero {i : Nat} (hi : i < str.length) : cells (src + UInt32.ofNat i) ≠ 0 := by
  rw [h.bytes i hi.le, List.getD_eq_getElem _ _ hi]
  exact ne_of_mem_of_not_mem (List.getElem_mem hi) h.noNul

/-- Before the end of the string no NUL is read, overlap or not. -/
theorem HoldsStr.copied_ne_zero {i : Nat} (hi : i < str.length) :
    copied dest src cells i ≠ 0 := by
  rw [copied]
  rcases Moves.run_eq_or (moves dest src i) cells (src + UInt32.ofNat i) with
    heq | ⟨move, hmem, heq⟩
  · rw [heq]
    exact h.ne_zero hi
  · obtain ⟨j, hj, rfl⟩ := List.mem_map.mp hmem
    rw [heq]
    exact h.ne_zero (Nat.lt_trans (List.mem_range.mp hj) hi)

/-- Where the first loop copies `n` bytes, these are the string's exactly if the overlap spoils
none. -/
theorem HoldsStr.copied_iff {n : Nat} (hn : n ≤ 2 ^ 32) (hlen : n ≤ str.length) :
    (∀ i, i < n → copied dest src cells i = str.getD i 0) ↔
      ∀ i, (dest - src).toNat ≤ i → i < n →
        str.getD (i - (dest - src).toNat) 0 = str.getD i 0 := by
  have hcopies := (Moves.run_copies_iff (nodup_moves dest src hn) cells).trans
    (pairwise_moves_iff cells dest src hn)
  have hleft : (∀ move ∈ moves dest src n, Moves.run (moves dest src n) cells move.2 =
      cells move.1) ↔ ∀ i, i < n → copied dest src cells i = str.getD i 0 := by
    simp only [moves, List.forall_mem_map, List.mem_range]
    refine forall₂_congr fun i hi => ?_
    rw [h.bytes i (by omega)]
    exact iff_of_eq (congrArg (· = _) (run_moves_copied dest src cells hi hn))
  rw [← hleft, hcopies]
  refine forall₃_congr fun i hle hi => ?_
  rw [h.bytes i (by omega), h.bytes _ (by omega)]

/-- **`strncpy` writes `n` bytes, and the right ones, exactly if the string has at least as many,
and the overlap spoils none of them.** -/
theorem strncpy_iff (n : UInt32) :
    Strncpied cells dest str n (strncpy dest src n ⟨cells, []⟩).2 ↔
      n.toNat ≤ str.length ∧ ∀ i, (dest - src).toNat ≤ i → i < n.toNat →
        str.getD (i - (dest - src).toNat) 0 = str.getD i 0 := by
  have hn := n.toNat_lt
  rcases strncpyCopy_cases dest src n.toNat ⟨cells, []⟩ with ⟨hrun, hne⟩ | ⟨k, hk, hzero, hrun⟩
  · have hram : (strncpy dest src n ⟨cells, []⟩).2 = copyForward dest src n.toNat ⟨cells, []⟩ := by
      rw [strncpy, hrun]
      rfl
    rw [hram, strncpied_iff]
    constructor
    · intro hbytes
      -- the NUL of a shorter string would have been read
      have hlen : n.toNat ≤ str.length := by
        by_contra hlt
        have hend := hbytes str.length (Nat.lt_of_not_le hlt)
        rw [List.getD_eq_default _ _ (Nat.le_refl _)] at hend
        exact hne _ (Nat.lt_of_not_le hlt) hend
      exact ⟨hlen, (h.copied_iff dest hn.le hlen).mp hbytes⟩
    · rintro ⟨hlen, hperiod⟩
      exact (h.copied_iff dest hn.le hlen).mpr hperiod
  · refine iff_of_false (fun hcopied => ?_) fun hlen => ?_
    · obtain ⟨i, hi, heq⟩ := (hcopied.written _).mp (strncpy_written hk hrun)
      rw [UInt32.add_right_inj] at heq
      exact UInt32.lt_irrefl i (heq ▸ hi)
    · exact h.copied_ne_zero dest (Nat.lt_of_lt_of_le hk hlen.1) hzero

end Strncpy

/-- The string `a` at 16, and bytes 255 elsewhere. -/
def sampleStr : UInt32 → UInt8 := fun a => if a = 16 then 0x61 else if a = 17 then 0 else 0xFF

theorem sampleStr_holds : HoldsStr sampleStr 16 [0x61] := ⟨by decide, by decide⟩

/-- One byte is copied right. -/
theorem sampleStr_one : Strncpied sampleStr 32 [0x61] 1 (strncpy 32 16 1 ⟨sampleStr, []⟩).2 :=
  (strncpy_iff sampleStr_holds 32 1).mpr ⟨by decide, by decide⟩

/-- With `n = 2` the byte behind the two is overwritten. -/
theorem strncpy_overruns : HoldsStr sampleStr 16 [0x61] ∧
    ¬ Strncpied sampleStr 32 [0x61] 2 (strncpy 32 16 2 ⟨sampleStr, []⟩).2 ∧
    sampleStr 34 = 0xFF ∧ (strncpy 32 16 2 ⟨sampleStr, []⟩).2.cells 34 = 0 := by
  have hoverwritten : (strncpy 32 16 2 ⟨sampleStr, []⟩).2.cells 34 = 0 := by decide +kernel
  refine ⟨sampleStr_holds, fun hcopied => ?_, by decide, hoverwritten⟩
  have hkept := hcopied.kept 34 fun i hi heq => ?_
  · rw [hoverwritten] at hkept
    exact absurd hkept (by decide)
  · have hsub : i = 2 := (UInt32.add_right_inj 32).mp heq.symm
    rw [hsub] at hi
    exact absurd hi (by decide)

end EphemeralOS
