import Mathlib.Data.List.FinRange
import Mathlib.Data.List.Induction
import Mathlib.Logic.Function.Basic

/-!
# Directories with a fixed number of slots

A directory is an array of slots, each empty or holding a name and a node.
`find` takes the first slot with a name, so a later slot with the same name is
hidden. A path is walked from a node by one `look` per name.

`find_congr` says what `find` reads; the lemmas on `Function.update` say what
entering and dropping one name does to every other lookup.
-/

namespace Directory

variable {m : Nat} {ν ι : Type}

/-- The first index that satisfies `p`. -/
def first (p : Fin m → Bool) : Option (Fin m) := (List.finRange m).find? p

theorem first_eq_none_iff {p : Fin m → Bool} : first p = none ↔ ∀ i, p i = false := by
  simp [first, List.find?_eq_none]

theorem first_eq_some_iff {p : Fin m → Bool} {i : Fin m} :
    first p = some i ↔ p i = true ∧ ∀ j, j < i → p j = false := by
  rw [first, List.find?_eq_some_iff_getElem]
  constructor
  · rintro ⟨hp, k, hk, hki, hlt⟩
    rw [List.getElem_finRange] at hki
    subst hki
    refine ⟨hp, fun j hj => ?_⟩
    have h := hlt j (by simpa [Fin.lt_def] using hj)
    rw [List.getElem_finRange] at h
    simpa using h
  · rintro ⟨hp, hlt⟩
    refine ⟨hp, i, by simp, by simp, fun j hj => ?_⟩
    rw [List.getElem_finRange]
    simpa using hlt ⟨j, by omega⟩ (Fin.lt_def.mpr hj)

/-! ## Slots -/

abbrev Slots (m : Nat) (ν ι : Type) := Fin m → Option (ν × ι)

def UniqueNames (d : Slots m ν ι) : Prop :=
  ∀ i j c e e', d i = some (c, e) → d j = some (c, e') → i = j

variable [DecidableEq ν]

/-- Does a slot hold the name `c`? -/
def named (c : ν) : Option (ν × ι) → Bool
  | some (c', _) => decide (c' = c)
  | none => false

theorem named_iff {c : ν} {x : Option (ν × ι)} : named c x = true ↔ ∃ e, x = some (c, e) := by
  cases x with
  | none => simp [named]
  | some p => obtain ⟨c', e⟩ := p; simp [named]

/-- The node of the first slot with the name `c`. -/
def find (d : Slots m ν ι) (c : ν) : Option ι :=
  (first fun i => named c (d i)).bind fun i => (d i).map Prod.snd

theorem find_eq_some_iff {d : Slots m ν ι} {c : ν} {e : ι} :
    find d c = some e ↔ ∃ i, d i = some (c, e) ∧ ∀ j, j < i → ∀ e', d j ≠ some (c, e') := by
  have hn : ∀ j, named c (d j) = false ↔ ∀ e', d j ≠ some (c, e') := fun j => by
    rw [← Bool.not_eq_true, named_iff, not_exists]
  unfold find
  constructor
  · intro h
    obtain ⟨i, hi, he⟩ := Option.bind_eq_some_iff.mp h
    obtain ⟨hp, hlt⟩ := first_eq_some_iff.mp hi
    obtain ⟨e', hd⟩ := named_iff.mp hp
    rw [hd] at he
    cases he
    exact ⟨i, hd, fun j hj => (hn j).mp (hlt j hj)⟩
  · rintro ⟨i, hd, hlt⟩
    have hi : (first fun i => named c (d i)) = some i :=
      first_eq_some_iff.mpr ⟨named_iff.mpr ⟨e, hd⟩, fun j hj => (hn j).mpr (hlt j hj)⟩
    rw [hi]
    simp [hd]

theorem find_eq_none_iff {d : Slots m ν ι} {c : ν} :
    find d c = none ↔ ∀ i e, d i ≠ some (c, e) := by
  constructor
  · intro h i
    induction i using WellFoundedLT.induction with
    | ind i ih =>
      intro e hd
      rw [find_eq_some_iff.mpr ⟨i, hd, ih⟩] at h
      cases h
  · intro h
    cases hf : find d c with
    | none => rfl
    | some e =>
      obtain ⟨i, hd, _⟩ := find_eq_some_iff.mp hf
      exact absurd hd (h i e)

theorem exists_slot_of_find {d : Slots m ν ι} {c : ν} {e : ι} (h : find d c = some e) :
    ∃ i, d i = some (c, e) := by
  obtain ⟨i, hd, _⟩ := find_eq_some_iff.mp h
  exact ⟨i, hd⟩

theorem find_of_unique {d : Slots m ν ι} (h : UniqueNames d) {i : Fin m} {c : ν} {e : ι}
    (hd : d i = some (c, e)) : find d c = some e :=
  find_eq_some_iff.mpr ⟨i, hd, fun j hj e' hj' => absurd (h j i c e' e hj' hd) (ne_of_lt hj)⟩

theorem find_congr {d d' : Slots m ν ι} {c : ν}
    (h : ∀ i e, d i = some (c, e) ↔ d' i = some (c, e)) : find d c = find d' c := by
  apply Option.ext
  intro e
  rw [find_eq_some_iff, find_eq_some_iff]
  simp only [h, ne_eq]

/-- Changing a slot that neither held nor now holds a name keeps that name's lookup. -/
theorem find_update_of_ne {d : Slots m ν ι} {i : Fin m} {x : Option (ν × ι)} {c : ν}
    (hold : ∀ e, d i ≠ some (c, e)) (hnew : ∀ e, x ≠ some (c, e)) :
    find (Function.update d i x) c = find d c := by
  refine find_congr fun j e => ?_
  by_cases hj : j = i
  · subst hj
    rw [Function.update_self]
    exact ⟨fun h => absurd h (hnew e), fun h => absurd h (hold e)⟩
  · rw [Function.update_of_ne hj]

/-- A name entered before every other slot that holds it is found there. -/
theorem find_insert {d : Slots m ν ι} {i : Fin m} {c : ν} {e : ι}
    (h : ∀ j, j < i → ∀ e', d j ≠ some (c, e')) :
    find (Function.update d i (some (c, e))) c = some e := by
  refine find_eq_some_iff.mpr ⟨i, Function.update_self .., fun j hj e' => ?_⟩
  rw [Function.update_of_ne (ne_of_lt hj)]
  exact h j hj e'

/-- A fresh name entered in an empty slot keeps names unique. -/
theorem UniqueNames.insert {d : Slots m ν ι} (hu : UniqueNames d) {i : Fin m} {c : ν} {e : ι}
    (hc : find d c = none) : UniqueNames (Function.update d i (some (c, e))) := by
  rw [find_eq_none_iff] at hc
  intro j k a x y hj hk
  by_cases hji : j = i <;> by_cases hki : k = i
  · rw [hji, hki]
  · subst hji
    rw [Function.update_self] at hj
    rw [Function.update_of_ne hki] at hk
    cases hj
    exact absurd hk (hc k y)
  · subst hki
    rw [Function.update_self] at hk
    rw [Function.update_of_ne hji] at hj
    cases hk
    exact absurd hj (hc j x)
  · rw [Function.update_of_ne hji] at hj
    rw [Function.update_of_ne hki] at hk
    exact hu j k a x y hj hk

omit [DecidableEq ν] in
theorem UniqueNames.remove {d : Slots m ν ι} (hu : UniqueNames d) (i : Fin m) :
    UniqueNames (Function.update d i none) := by
  intro j k a x y hj hk
  have hji : j ≠ i := fun e => by subst e; rw [Function.update_self] at hj; cases hj
  have hki : k ≠ i := fun e => by subst e; rw [Function.update_self] at hk; cases hk
  rw [Function.update_of_ne hji] at hj
  rw [Function.update_of_ne hki] at hk
  exact hu j k a x y hj hk

/-! ## Walks -/

section Walk

omit [DecidableEq ν]

/-- Follow the names of a path from `d`. -/
def walk (look : ι → ν → Option ι) (d : ι) (cs : List ν) : Option ι := cs.foldlM look d

variable {look look' : ι → ν → Option ι}

@[simp] theorem walk_nil (d : ι) : walk look d [] = some d := rfl

@[simp] theorem walk_cons (d : ι) (c : ν) (cs : List ν) :
    walk look d (c :: cs) = (look d c).bind fun e => walk look e cs := rfl

@[simp] theorem walk_concat (d : ι) (cs : List ν) (c : ν) :
    walk look d (cs ++ [c]) = (walk look d cs).bind fun e => look e c := by
  induction cs generalizing d with
  | nil => simp
  | cons a cs ih => simp [Option.bind_assoc, ih]

/-- A walk that succeeds takes the same steps under any lookup that agrees on them. -/
theorem walk_of_agree {d e : ι} {cs : List ν} (h : walk look d cs = some e)
    (hag : ∀ ds c es x y, cs = ds ++ c :: es → walk look d ds = some x → look x c = some y →
      walk look y es = some e → look' x c = some y) :
    walk look' d cs = some e := by
  induction cs generalizing d with
  | nil => exact h
  | cons c cs ih =>
    rw [walk_cons] at h ⊢
    obtain ⟨y, hy, hes⟩ := Option.bind_eq_some_iff.mp h
    rw [hag [] c cs d y rfl rfl hy hes, Option.bind_some]
    refine ih hes fun ds c' es x z hcs hx hz hze => hag (c :: ds) c' es x z ?_ ?_ hz hze
    · rw [hcs, List.cons_append]
    · rw [walk_cons, hy]; exact hx

/-- Does the walk along `cs` go by the entry `c` of `p`? -/
def GoesBy (look : ι → ν → Option ι) (d : ι) (cs : List ν) (p : ι) (c : ν) : Prop :=
  ∃ as bs, cs = as ++ c :: bs ∧ walk look d as = some p

/-- A lookup that changed at one entry only changes the walks that go by it. -/
theorem walk_eq_of_not_goesBy {p : ι} {c : ν} {d : ι} {cs : List ν}
    (hag : ∀ x a, (x ≠ p ∨ a ≠ c) → look' x a = look x a) (h : ¬ GoesBy look d cs p c) :
    walk look' d cs = walk look d cs := by
  induction cs generalizing d with
  | nil => rfl
  | cons a cs ih =>
    have hne : d ≠ p ∨ a ≠ c := by
      by_contra hc
      rw [not_or, not_not, not_not] at hc
      exact h ⟨[], cs, by rw [hc.2]; rfl, by rw [hc.1]; rfl⟩
    rw [walk_cons, walk_cons, hag d a hne]
    cases hy : look d a with
    | none => rfl
    | some y =>
      refine ih fun ⟨as, bs, hcs, has⟩ => h ⟨a :: as, bs, by rw [hcs]; rfl, ?_⟩
      rw [walk_cons, hy]
      exact has

/-- A walk that goes on behind an entry that now leads to a leaf fails. -/
theorem walk_none_of_goesBy {p n d : ι} {c : ν} (hag : ∀ x a, (x ≠ p ∨ a ≠ c) → look' x a = look x a)
    (hnew : look' p c = some n) (hleaf : ∀ a, look' n a = none) {as bs : List ν} (hbs : bs ≠ [])
    (has : walk look d as = some p) : walk look' d (as ++ c :: bs) = none := by
  have hstop : ∀ es : List ν, es ≠ [] → walk look' n es = none := fun es hes => by
    cases es with
    | nil => exact absurd rfl hes
    | cons a es => rw [walk_cons, hleaf]; rfl
  induction as generalizing d with
  | nil =>
    cases has
    rw [List.nil_append, walk_cons, hnew]
    exact hstop bs hbs
  | cons a as ih =>
    rw [walk_cons] at has
    obtain ⟨y, hy, hwalk⟩ := Option.bind_eq_some_iff.mp has
    rw [List.cons_append, walk_cons]
    by_cases hpc : d = p ∧ a = c
    · rw [hpc.1, hpc.2, hnew]
      exact hstop _ (by simp)
    · rw [hag d a (not_and_or.mp hpc), hy]
      exact ih hwalk

/-- An invariant of the nodes a walk passes through. -/
theorem walk_invariant {P : ι → Prop} (hstep : ∀ x c y, P x → look x c = some y → P y) {d e : ι}
    {cs : List ν} (hd : P d) (h : walk look d cs = some e) : P e := by
  induction cs using List.reverseRecOn generalizing e with
  | nil => cases h; exact hd
  | append_singleton cs c ih =>
    rw [walk_concat] at h
    obtain ⟨x, hx, hc⟩ := Option.bind_eq_some_iff.mp h
    exact hstep x c e (ih hx) hc

theorem eq_none_of_rel {κ : Type} {R : κ → ι → Prop} {x : Option κ} (h : Option.Rel R x none) :
    x = none := by
  cases h
  rfl

theorem walk_rel {κ : Type} {R : κ → ι → Prop} {look : κ → ν → Option κ} {look' : ι → ν → Option ι}
    (hstep : ∀ x y c, R x y → Option.Rel R (look x c) (look' y c)) {x : κ} {y : ι} (h : R x y)
    (cs : List ν) : Option.Rel R (walk look x cs) (walk look' y cs) := by
  induction cs generalizing x y with
  | nil => exact .some h
  | cons c cs ih =>
    rw [walk_cons, walk_cons]
    cases hx : look x c with
    | none =>
      have hy := hstep x y c h
      rw [hx] at hy
      cases hy' : look' y c with
      | none => exact .none
      | some y' => rw [hy'] at hy; cases hy
    | some x' =>
      have hy := hstep x y c h
      rw [hx] at hy
      cases hy' : look' y c with
      | none => rw [hy'] at hy; cases hy
      | some y' =>
        rw [hy'] at hy
        cases hy with
        | some hxy => exact ih hxy

end Walk

end Directory
