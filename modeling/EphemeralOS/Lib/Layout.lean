import Mathlib.Algebra.Group.Nat.Defs
import Mathlib.Data.List.OfFn
import Mathlib.Data.List.FinRange

/-!
# Fixed-width binary layouts

A `Layout α` is a byte layout of the values of `α`: every value takes `size`
bytes, and reading a byte list that starts with a value's bytes gives the value
back. The laws are fields, so a layout built from the combinators below (bytes,
little-endian words, padding, sequences, arrays, records) round-trips by
construction, and `size` of a record is its C `sizeof`.

`chunk`/`joinChunks` cut a byte list into fixed-size chunks, the last one
zero-padded, and put it together again.
-/

namespace Binary

/-- A fixed-width binary layout of `α`. `dec` reads the head of a byte list. -/
structure Layout (α : Type) where
  size : Nat
  enc : α → List UInt8
  dec : List UInt8 → α
  enc_length : ∀ a, (enc a).length = size
  dec_append : ∀ a l, dec (enc a ++ l) = a

namespace Layout

variable {α β : Type}

@[simp] theorem length_enc (L : Layout α) (a : α) : (L.enc a).length = L.size := L.enc_length a

@[simp] theorem dec_enc (L : Layout α) (a : α) : L.dec (L.enc a) = a := by
  simpa using L.dec_append a []

/-- A value is read from any byte list that starts with its bytes. -/
theorem dec_of_prefix (L : Layout α) {a : α} {l : List UInt8} (h : L.enc a <+: l) : L.dec l = a := by
  obtain ⟨t, rfl⟩ := h
  exact L.dec_append a t

def byte : Layout UInt8 where
  size := 1
  enc b := [b]
  dec l := l.headD 0
  enc_length _ := rfl
  dec_append _ _ := rfl

/-- A 16-bit word, low byte first. -/
def word16 : Layout UInt16 where
  size := 2
  enc w := [UInt8.ofNat w.toNat, UInt8.ofNat (w.toNat / 2 ^ 8)]
  dec l := UInt16.ofNat ((l.getD 0 0).toNat + (l.getD 1 0).toNat * 2 ^ 8)
  enc_length _ := rfl
  dec_append w l := by
    have hw := w.toNat_lt
    apply UInt16.toNat_inj.mp
    simp only [List.cons_append, List.getD_cons_zero, List.getD_cons_succ, UInt8.toNat_ofNat',
      UInt16.toNat_ofNat']
    omega

/-- A 32-bit word, low byte first. -/
def word32 : Layout UInt32 where
  size := 4
  enc w := [UInt8.ofNat w.toNat, UInt8.ofNat (w.toNat / 2 ^ 8), UInt8.ofNat (w.toNat / 2 ^ 16),
    UInt8.ofNat (w.toNat / 2 ^ 24)]
  dec l := UInt32.ofNat ((l.getD 0 0).toNat + (l.getD 1 0).toNat * 2 ^ 8 +
    (l.getD 2 0).toNat * 2 ^ 16 + (l.getD 3 0).toNat * 2 ^ 24)
  enc_length _ := rfl
  dec_append w l := by
    have hw := w.toNat_lt
    apply UInt32.toNat_inj.mp
    simp only [List.cons_append, List.getD_cons_zero, List.getD_cons_succ, UInt8.toNat_ofNat',
      UInt32.toNat_ofNat']
    omega

/-- `n` padding bytes, written as zeros and skipped when read. -/
def pad (n : Nat) : Layout Unit where
  size := n
  enc _ := List.replicate n 0
  dec _ := ()
  enc_length _ := by simp
  dec_append _ _ := rfl

def seq (L : Layout α) (M : Layout β) : Layout (α × β) where
  size := L.size + M.size
  enc p := L.enc p.1 ++ M.enc p.2
  dec l := (L.dec l, M.dec (l.drop L.size))
  enc_length p := by simp
  dec_append p l := by
    rw [List.append_assoc, L.dec_append]
    rw [List.drop_left' (L.enc_length p.1), M.dec_append]

/-- `n` values of one layout, in order. -/
def array (n : Nat) (L : Layout α) : Layout (Fin n → α) where
  size := n * L.size
  enc f := (List.ofFn f).flatMap L.enc
  dec l := fun i => L.dec (l.drop (i * L.size))
  enc_length f := by
    rw [List.length_flatMap]
    simp [Function.comp_def]
  dec_append f l := by
    funext i
    induction n generalizing l with
    | zero => exact i.elim0
    | succ n ih =>
      rw [List.ofFn_succ, List.flatMap_cons, List.append_assoc]
      refine Fin.cases ?_ (fun j => ?_) i
      · simp [L.dec_append]
      · have hd : (j.succ : Nat) * L.size = L.size + j * L.size := by
          rw [Fin.val_succ, Nat.succ_mul, Nat.add_comm]
        rw [hd, ← List.drop_drop, List.drop_left' (L.enc_length (f 0))]
        exact ih (fun k => f k.succ) l j

/-- A record: `f` builds it from the parts, `g` takes it apart. -/
def record (L : Layout α) (f : α → β) (g : β → α) (h : ∀ b, f (g b) = b) : Layout β where
  size := L.size
  enc b := L.enc (g b)
  dec l := f (L.dec l)
  enc_length b := L.enc_length (g b)
  dec_append b l := by rw [L.dec_append, h]

@[simp] theorem size_byte : byte.size = 1 := rfl
@[simp] theorem size_word16 : word16.size = 2 := rfl
@[simp] theorem size_word32 : word32.size = 4 := rfl
@[simp] theorem size_pad (n : Nat) : (pad n).size = n := rfl
@[simp] theorem size_seq (L : Layout α) (M : Layout β) : (L.seq M).size = L.size + M.size := rfl
@[simp] theorem size_array (n : Nat) (L : Layout α) : (array n L).size = n * L.size := rfl

@[simp] theorem size_record (L : Layout α) (f : α → β) (g : β → α) (h : ∀ b, f (g b) = b) :
    (L.record f g h).size = L.size := rfl

/-- The bytes of an array from element `i` on start with that element's bytes. -/
theorem enc_array_drop {n : Nat} (L : Layout α) (f : Fin n → α) (i : Fin n) :
    L.enc (f i) <+: ((array n L).enc f).drop (i * L.size) := by
  induction n with
  | zero => exact i.elim0
  | succ n ih =>
    simp only [array, List.ofFn_succ, List.flatMap_cons]
    refine Fin.cases ?_ (fun j => ?_) i
    · simp
    · have hd : (j.succ : Nat) * L.size = L.size + j * L.size := by
        rw [Fin.val_succ, Nat.succ_mul, Nat.add_comm]
      rw [hd, ← List.drop_drop, List.drop_left' (L.enc_length (f 0))]
      exact ih (fun k => f k.succ) j

/-- Cutting an array's bytes after `m` bytes keeps every element that ends by then. -/
theorem dec_array_take {n m : Nat} (L : Layout α) (f : Fin n → α) (l : List UInt8) (i : Fin n)
    (h : (i + 1) * L.size ≤ m) :
    (array n L).dec (((array n L).enc f).take m ++ l) i = f i := by
  apply L.dec_of_prefix
  have hm : i * L.size + L.size ≤ m := by rwa [← Nat.succ_mul]
  have hn : (i + 1) * L.size ≤ n * L.size := Nat.mul_le_mul_right _ i.isLt
  have hlen : (((array n L).enc f).take m).length = min m (n * L.size) := by simp
  rw [Nat.succ_mul] at hn
  rw [List.drop_append_of_le_length (by omega), List.drop_take]
  obtain ⟨t, ht⟩ := L.enc_array_drop f i
  refine List.IsPrefix.trans ?_ (List.prefix_append _ _)
  rw [← ht, List.take_append, List.take_of_length_le (by simp; omega)]
  exact List.prefix_append _ _

/-- Reading depends on the first `size` bytes alone. -/
def Local (L : Layout α) : Prop := ∀ (l : List UInt8) (n : Nat), L.size ≤ n → L.dec (l.take n) = L.dec l

theorem local_byte : Local byte := fun l n hn => by
  cases l with
  | nil => rw [List.take_nil]
  | cons b l =>
    obtain ⟨n, rfl⟩ : ∃ k, n = k + 1 := ⟨n - 1, by change 1 ≤ n at hn; omega⟩
    rfl

theorem local_word32 : Local word32 := fun l n hn => by
  have hget : ∀ i, i < 4 → (l.take n).getD i 0 = l.getD i 0 := fun i hi => by
    change 4 ≤ n at hn
    rw [List.getD_eq_getElem?_getD, List.getElem?_take_of_lt (by omega),
      ← List.getD_eq_getElem?_getD]
  simp only [word32, hget 0 (by decide), hget 1 (by decide), hget 2 (by decide), hget 3 (by decide)]

theorem local_pad (n : Nat) : Local (pad n) := fun _ _ _ => rfl

theorem Local.seq {L : Layout α} {M : Layout β} (hL : L.Local) (hM : M.Local) :
    (L.seq M).Local := fun l n hn => by
  change L.size + M.size ≤ n at hn
  simp only [Layout.seq, List.drop_take]
  rw [hL l n (by omega), hM _ _ (by omega)]

theorem Local.array {L : Layout α} (hL : L.Local) (n : Nat) : (array n L).Local := fun l k hk => by
  funext i
  have hi : (i + 1) * L.size ≤ n * L.size := Nat.mul_le_mul_right _ i.isLt
  change n * L.size ≤ k at hk
  rw [Nat.succ_mul] at hi
  simp only [Layout.array, List.drop_take]
  exact hL _ _ (by omega)

theorem Local.record {L : Layout α} (hL : L.Local) (f : α → β) (g : β → α) (h : ∀ b, f (g b) = b) :
    (L.record f g h).Local := fun l n hn => congrArg f (hL l n hn)

end Layout

/-- Bytes `i * n .. (i + 1) * n` of `l`, zero-padded. -/
def chunk (n : Nat) (l : List UInt8) (i : Nat) : List UInt8 :=
  let c := (l.drop (i * n)).take n
  c ++ List.replicate (n - c.length) 0

@[simp] theorem length_chunk (n : Nat) (l : List UInt8) (i : Nat) : (chunk n l i).length = n := by
  simp [chunk]

/-- The first `k` chunks of a byte list, put together, start with its first `k * n` bytes. -/
theorem take_prefix_chunks (n : Nat) :
    ∀ (k : Nat) (l : List UInt8), l.take (k * n) <+: (List.range k).flatMap (chunk n l)
  | 0, l => by simp
  | k + 1, l => by
    have hsucc : (List.range k).flatMap (fun i => chunk n l (i + 1)) =
        (List.range k).flatMap (chunk n (l.drop n)) := by
      congr 1; funext i
      simp only [chunk, List.drop_drop, Nat.succ_mul, Nat.add_comm]
    rw [List.range_succ_eq_map, List.flatMap_cons, List.flatMap_map]
    simp only [Nat.succ_eq_add_one]
    rw [hsucc, Nat.succ_mul, Nat.add_comm, List.take_add]
    rcases Nat.lt_or_ge l.length n with hl | hl
    · have hd : l.drop n = [] := List.drop_eq_nil_of_le (by omega)
      have ht : l.take n = l := List.take_of_length_le (by omega)
      rw [hd, List.take_nil, List.append_nil, ht]
      simp only [chunk, Nat.zero_mul, List.drop_zero, ht, List.append_assoc]
      exact List.prefix_append _ _
    · have h0 : chunk n l 0 = l.take n := by simp [chunk, hl]
      rw [h0]
      exact (List.prefix_append_right_inj _).mpr (take_prefix_chunks n k (l.drop n))

/-- A byte list that fits in `k` chunks is a prefix of its chunks put together. -/
theorem prefix_chunks {n k : Nat} {l : List UInt8} (h : l.length ≤ k * n) :
    l <+: (List.range k).flatMap (chunk n l) := by
  simpa [List.take_of_length_le h] using take_prefix_chunks n k l

end Binary
