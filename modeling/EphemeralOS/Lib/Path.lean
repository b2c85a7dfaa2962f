import Mathlib.Data.List.Basic

/-!
# Separated paths

`components sep l` are the non-empty segments of `l` between separators, and
`canon sep cs` is the canonical path of a list of segments: a separator before
each, or one separator alone for the root. On segments that are non-empty and
free of the separator (`Segment`) the two are inverse.
-/

namespace Path

variable {α : Type}

def joined (sep : α) (cs : List (List α)) : List α := cs.flatMap (sep :: ·)

def canon (sep : α) (cs : List (List α)) : List α := if cs = [] then [sep] else joined sep cs

/-- A segment is non-empty and has no separator. -/
def Segment (sep : α) (c : List α) : Prop := c ≠ [] ∧ sep ∉ c

@[simp] theorem joined_nil (sep : α) : joined sep [] = [] := rfl

@[simp] theorem joined_cons (sep : α) (c : List α) (cs : List (List α)) :
    joined sep (c :: cs) = sep :: c ++ joined sep cs := rfl

@[simp] theorem joined_append (sep : α) (cs ds : List (List α)) :
    joined sep (cs ++ ds) = joined sep cs ++ joined sep ds := List.flatMap_append

@[simp] theorem canon_nil (sep : α) : canon sep [] = [sep] := rfl

@[simp] theorem canon_cons (sep : α) (c : List α) (cs : List (List α)) :
    canon sep (c :: cs) = sep :: c ++ joined sep cs := rfl

@[simp] theorem canon_concat (sep : α) (cs : List (List α)) (c : List α) :
    canon sep (cs ++ [c]) = joined sep cs ++ sep :: c := by
  simp [canon]

theorem joined_ne_nil {sep : α} {cs : List (List α)} (h : cs ≠ []) : joined sep cs ≠ [] := by
  cases cs with
  | nil => exact absurd rfl h
  | cons c cs => simp

variable [DecidableEq α]

/-- The segments of `l`, `cur` being the part of the first one already read. -/
def componentsFrom (sep : α) : List α → List α → List (List α)
  | cur, [] => if cur = [] then [] else [cur]
  | cur, c :: l =>
    if c = sep then (if cur = [] then [] else [cur]) ++ componentsFrom sep [] l
    else componentsFrom sep (cur ++ [c]) l

/-- The non-empty segments of `l` between separators. -/
def components (sep : α) (l : List α) : List (List α) := componentsFrom sep [] l

theorem componentsFrom_append {sep : α} {c : List α} (hc : sep ∉ c) :
    ∀ (cur l : List α), componentsFrom sep cur (c ++ l) = componentsFrom sep (cur ++ c) l := by
  induction c with
  | nil => intro cur l; simp
  | cons a c ih =>
    intro cur l
    rw [List.mem_cons, not_or] at hc
    rw [List.cons_append, componentsFrom, if_neg (Ne.symm hc.1), ih hc.2]
    simp

theorem componentsFrom_joined {sep : α} :
    ∀ {cs : List (List α)} {cur : List α}, (∀ c ∈ cs, Segment sep c) →
      componentsFrom sep cur (joined sep cs) = (if cur = [] then [] else [cur]) ++ cs
  | [], cur, _ => by simp [componentsFrom]
  | c :: cs, cur, h => by
    have hc := h c List.mem_cons_self
    rw [joined_cons, List.cons_append, componentsFrom, if_pos rfl, componentsFrom_append hc.2,
      List.nil_append, componentsFrom_joined fun d hd => h d (List.mem_cons_of_mem _ hd),
      if_neg hc.1]
    rfl

/-- **The segments of a canonical path are the segments it was made of.** -/
theorem components_canon {sep : α} {cs : List (List α)} (h : ∀ c ∈ cs, Segment sep c) :
    components sep (canon sep cs) = cs := by
  cases cs with
  | nil => simp [components, componentsFrom]
  | cons c cs =>
    show components sep (joined sep (c :: cs)) = c :: cs
    rw [components, componentsFrom_joined h]
    rfl

/-- A path with one more segment, or with a separator at its end. -/
theorem componentsFrom_append_sep {sep : α} {r : List α} (hr : sep ∉ r) :
    ∀ (cur l : List α), componentsFrom sep cur (l ++ sep :: r) =
      componentsFrom sep cur l ++ (if r = [] then [] else [r])
  | cur, [] => by
    have h : componentsFrom sep [] r = if r = [] then [] else [r] := by
      have := componentsFrom_append hr [] []
      rwa [List.append_nil, List.nil_append, componentsFrom.eq_1] at this
    rw [List.nil_append, componentsFrom.eq_2, if_pos rfl, h, componentsFrom.eq_1]
  | cur, a :: l => by
    rw [List.cons_append, componentsFrom, componentsFrom]
    split
    · rw [componentsFrom_append_sep hr, List.append_assoc]
    · rw [componentsFrom_append_sep hr]

theorem components_append_sep {sep : α} (l : List α) {r : List α} (hr : sep ∉ r) :
    components sep (l ++ sep :: r) = components sep l ++ (if r = [] then [] else [r]) :=
  componentsFrom_append_sep hr [] l

theorem components_snoc {sep : α} {l c : List α} (hc : Segment sep c) :
    components sep (l ++ sep :: c) = components sep l ++ [c] := by
  rw [components_append_sep l hc.2, if_neg hc.1]

omit [DecidableEq α] in
/-- A list with a separator, cut at the last one. -/
theorem exists_last_sep {sep : α} {l : List α} (h : sep ∈ l) :
    ∃ a r, l = a ++ sep :: r ∧ sep ∉ r := by
  obtain ⟨bs, as, hl, hbs⟩ := List.eq_append_cons_of_mem (List.mem_reverse.mpr h)
  refine ⟨as.reverse, bs.reverse, ?_, by rwa [List.mem_reverse]⟩
  rw [← List.reverse_reverse l, hl]
  simp

omit [DecidableEq α] in
/-- A list is cut at its first separator in one way only. -/
theorem append_sep_inj {sep : α} {l m r t : List α} (hl : sep ∉ l) (hm : sep ∉ m)
    (h : l ++ sep :: r = m ++ sep :: t) : l = m ∧ r = t := by
  induction l generalizing m with
  | nil =>
    cases m with
    | nil => exact ⟨rfl, List.tail_eq_of_cons_eq h⟩
    | cons b m =>
      have hb : sep = b := List.head_eq_of_cons_eq h
      exact absurd (hb ▸ List.mem_cons_self) hm
  | cons a l ih =>
    cases m with
    | nil =>
      have ha : a = sep := List.head_eq_of_cons_eq h
      exact absurd (ha ▸ List.mem_cons_self) hl
    | cons b m =>
      rw [List.mem_cons, not_or] at hl hm
      obtain ⟨rfl, rfl⟩ := ih hl.2 hm.2 (List.tail_eq_of_cons_eq h)
      have hab : a = b := List.head_eq_of_cons_eq h
      exact ⟨by rw [hab], rfl⟩

theorem componentsFrom_segment {sep : α} :
    ∀ {cur l : List α}, sep ∉ cur → ∀ c ∈ componentsFrom sep cur l, Segment sep c
  | cur, [], hcur => by
    intro c hc
    rw [componentsFrom] at hc
    split at hc
    · cases hc
    · next h => rw [List.mem_singleton.mp hc]; exact ⟨h, hcur⟩
  | cur, a :: l, hcur => by
    intro c hc
    rw [componentsFrom] at hc
    split at hc
    · rcases List.mem_append.mp hc with hc | hc
      · split at hc
        · cases hc
        · next h => rw [List.mem_singleton.mp hc]; exact ⟨h, hcur⟩
      · exact componentsFrom_segment (by simp) c hc
    · next ha =>
      exact componentsFrom_segment (by simp [hcur, Ne.symm ha]) c hc

theorem components_segment (sep : α) (l : List α) : ∀ c ∈ components sep l, Segment sep c :=
  componentsFrom_segment (by simp)

theorem length_componentsFrom (sep : α) :
    ∀ cur l : List α, (componentsFrom sep cur l).length ≤ (if cur = [] then 0 else 1) + l.length
  | cur, [] => by
    rw [componentsFrom]
    split <;> simp
  | cur, a :: l => by
    rw [componentsFrom]
    split
    · have ih := length_componentsFrom sep [] l
      rw [if_pos rfl] at ih
      rw [List.length_append, List.length_cons]
      split <;> simp only [List.length_nil, List.length_cons] <;> omega
    · have ih := length_componentsFrom sep (cur ++ [a]) l
      rw [if_neg (by simp)] at ih
      rw [List.length_cons]
      omega

theorem length_components (sep : α) (l : List α) : (components sep l).length ≤ l.length := by
  have := length_componentsFrom sep [] l
  rwa [if_pos rfl, Nat.zero_add] at this

theorem mem_of_mem_componentsFrom {sep : α} :
    ∀ {cur l : List α} {c : List α}, c ∈ componentsFrom sep cur l → ∀ a ∈ c, a ∈ cur ∨ a ∈ l
  | cur, [], c, hc => by
    intro a ha
    rw [componentsFrom] at hc
    split at hc
    · cases hc
    · rw [List.mem_singleton.mp hc] at ha; exact .inl ha
  | cur, b :: l, c, hc => by
    intro a ha
    rw [componentsFrom] at hc
    split at hc
    · rcases List.mem_append.mp hc with hc | hc
      · split at hc
        · cases hc
        · rw [List.mem_singleton.mp hc] at ha; exact .inl ha
      · rcases mem_of_mem_componentsFrom hc a ha with h | h
        · cases h
        · exact .inr (List.mem_cons_of_mem _ h)
    · rcases mem_of_mem_componentsFrom hc a ha with h | h
      · rcases List.mem_append.mp h with h | h
        · exact .inl h
        · rw [List.mem_singleton.mp h]; exact .inr List.mem_cons_self
      · exact .inr (List.mem_cons_of_mem _ h)

theorem mem_of_mem_components {sep : α} {l c : List α} (hc : c ∈ components sep l) :
    ∀ a ∈ c, a ∈ l := fun a ha =>
  (mem_of_mem_componentsFrom hc a ha).resolve_left (by simp)

/-- The first segment of what follows a canonical path's leading separator. -/
theorem takeWhile_segment {sep : α} {c : List α} (hc : sep ∉ c) (cs : List (List α)) :
    (c ++ joined sep cs).takeWhile (· ≠ sep) = c := by
  have hall : ∀ a ∈ c, (decide (a ≠ sep)) = true := fun a ha =>
    decide_eq_true fun e => hc (e ▸ ha)
  rw [List.takeWhile_append_of_pos hall]
  cases cs <;> simp

theorem componentsFrom_eq_splitOn {sep : α} :
    ∀ {cur l : List α}, sep ∉ cur →
      componentsFrom sep cur l = ((cur ++ l).splitOn sep).filter (· ≠ [])
  | cur, [], hcur => by
    rw [List.append_nil, List.splitOn_eq_singleton hcur, componentsFrom]
    split
    · next h => rw [h]; rfl
    · next h => rw [List.filter_singleton, decide_eq_true h]; rfl
  | cur, a :: l, hcur => by
    rw [componentsFrom]
    split
    · next ha =>
      rw [ha, List.splitOn_append_cons_self_of_not_mem hcur,
        componentsFrom_eq_splitOn List.not_mem_nil, List.nil_append, List.filter_cons]
      by_cases hc : cur = [] <;> simp [hc]
    · next ha =>
      rw [componentsFrom_eq_splitOn (by simp [hcur, Ne.symm ha]), List.append_assoc]
      rfl

/-- The components are the non-empty parts that splitting at the separators gives. -/
theorem components_eq_splitOn (sep : α) (l : List α) :
    components sep l = (l.splitOn sep).filter (· ≠ []) :=
  componentsFrom_eq_splitOn List.not_mem_nil

omit [DecidableEq α] in
theorem joined_eq_intercalate (sep : α) (c : List α) (cs : List (List α)) :
    joined sep (c :: cs) = sep :: [sep].intercalate (c :: cs) := by
  induction cs generalizing c with
  | nil => simp
  | cons d cs ih => rw [joined_cons, ih, List.intercalate_cons_cons]; simp

omit [DecidableEq α] in
/-- The canonical path has one separator before and between the segments. -/
theorem canon_eq_intercalate (sep : α) (cs : List (List α)) :
    canon sep cs = sep :: [sep].intercalate cs := by
  cases cs with
  | nil => rfl
  | cons c cs => exact joined_eq_intercalate sep c cs

end Path
