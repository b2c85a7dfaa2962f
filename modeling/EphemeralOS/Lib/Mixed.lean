import EphemeralOS.Lib.Layout
import Mathlib.Data.List.GetD

/-!
# Values read from a mix of two byte lists

A byte list is mixed from two others when it has, at every position, the byte
of the one or of the other (`Mixed`). A value on which the two agree is read
from the mix as well, by every layout made of bytes, words, padding, sequences
and records (`Layout.Steady`): so an array whose elements were being replaced
one at a time still has all those that stay the same.
-/

namespace Binary

variable {α β : Type}

/-- At every position the byte of `l` or that of `l'`. -/
def Mixed (l l' l'' : List UInt8) : Prop := ∀ i, l''.getD i 0 = l.getD i 0 ∨ l''.getD i 0 = l'.getD i 0

namespace Mixed

variable {l l' l'' : List UInt8}

theorem left (l l' : List UInt8) : Mixed l l' l := fun _ => .inl rfl

theorem right (l l' : List UInt8) : Mixed l l' l' := fun _ => .inr rfl

theorem getD_eq (h : Mixed l l' l'') {i : Nat} (hi : l'.getD i 0 = l.getD i 0) :
    l''.getD i 0 = l.getD i 0 := (h i).elim id fun e => e.trans hi

theorem getD_drop (l : List UInt8) (n i : Nat) : (l.drop n).getD i 0 = l.getD (n + i) 0 := by
  rw [List.getD_eq_getElem?_getD, List.getElem?_drop, ← List.getD_eq_getElem?_getD]

theorem drop (h : Mixed l l' l'') (n : Nat) : Mixed (l.drop n) (l'.drop n) (l''.drop n) := fun i => by
  simp only [getD_drop]
  exact h (n + i)

theorem append {m m' m'' : List UInt8} {n : Nat} (hl : l.length = n) (hl' : l'.length = n)
    (hl'' : l''.length = n) (h : Mixed l l' l'') (h' : Mixed m m' m'') :
    Mixed (l ++ m) (l' ++ m') (l'' ++ m'') := fun i => by
  by_cases hi : i < n
  · rw [List.getD_append _ _ _ _ (by omega), List.getD_append _ _ _ _ (by omega),
      List.getD_append _ _ _ _ (by omega)]
    exact h i
  · rw [List.getD_append_right _ _ _ _ (by omega), List.getD_append_right _ _ _ _ (by omega),
      List.getD_append_right _ _ _ _ (by omega), hl, hl', hl'']
    exact h' (i - n)

end Mixed

namespace Layout

/-- What is read the same from two byte lists is read the same from a mix of them. -/
def Steady (L : Layout α) : Prop :=
  ∀ l l' l'' : List UInt8, Mixed l l' l'' → L.dec l' = L.dec l → L.dec l'' = L.dec l

theorem steady_byte : Steady byte := fun l l' l'' h he => by
  have hdec : ∀ l : List UInt8, byte.dec l = l.getD 0 0 := fun l => by cases l <;> rfl
  rw [hdec, hdec] at he ⊢
  exact h.getD_eq he

theorem dec_word32_inj {l l' : List UInt8} (h : word32.dec l' = word32.dec l) {i : Nat}
    (hi : i < 4) : l'.getD i 0 = l.getD i 0 := by
  have hlt : ∀ (l : List UInt8) (i : Nat), (l.getD i 0).toNat < 256 := fun l i => UInt8.toNat_lt _
  have h0 := hlt l 0
  have h1 := hlt l 1
  have h2 := hlt l 2
  have h3 := hlt l 3
  have h0' := hlt l' 0
  have h1' := hlt l' 1
  have h2' := hlt l' 2
  have h3' := hlt l' 3
  have hn := congrArg UInt32.toNat h
  simp only [word32, UInt32.toNat_ofNat'] at hn
  apply UInt8.toNat_inj.mp
  rcases (by omega : i = 0 ∨ i = 1 ∨ i = 2 ∨ i = 3) with rfl | rfl | rfl | rfl <;> omega

theorem steady_word32 : Steady word32 := fun l l' l'' h he => by
  have hget : ∀ i, i < 4 → l''.getD i 0 = l.getD i 0 := fun i hi => h.getD_eq (dec_word32_inj he hi)
  simp only [word32, hget 0 (by decide), hget 1 (by decide), hget 2 (by decide), hget 3 (by decide)]

theorem steady_pad (n : Nat) : Steady (pad n) := fun _ _ _ _ _ => rfl

theorem Steady.seq {L : Layout α} {M : Layout β} (hL : L.Steady) (hM : M.Steady) :
    (L.seq M).Steady := fun l l' l'' h he => by
  obtain ⟨h1, h2⟩ := Prod.ext_iff.mp he
  exact Prod.ext (hL l l' l'' h h1) (hM _ _ _ (h.drop L.size) h2)

theorem Steady.array {L : Layout α} (hL : L.Steady) (n : Nat) : (array n L).Steady :=
  fun _ _ _ h he => funext fun i => hL _ _ _ (h.drop _) (congrFun he i)

/-- An element of an array by itself. -/
theorem Steady.element {L : Layout α} (hL : L.Steady) {n : Nat} {l l' l'' : List UInt8}
    (h : Mixed l l' l'') {i : Fin n} (he : (Layout.array n L).dec l' i = (Layout.array n L).dec l i) :
    (Layout.array n L).dec l'' i = (Layout.array n L).dec l i := hL _ _ _ (h.drop _) he

theorem Steady.record {L : Layout α} (hL : L.Steady) (f : α → β) (g : β → α) (h : ∀ b, f (g b) = b)
    (hg : ∀ a, g (f a) = a) : (L.record f g h).Steady := fun l l' l'' hm he => by
  refine congrArg f (hL l l' l'' hm ?_)
  rw [← hg (L.dec l'), ← hg (L.dec l)]
  exact congrArg g he

end Layout

end Binary
