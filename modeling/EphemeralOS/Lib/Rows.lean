import Mathlib.Data.List.GetD

/-!
# Text in rows

A text is laid out in rows of `width` characters: a row ends when it is full or
at a newline (`layout`). A window of some height shows the last rows, with blanks
where they have no character (`charAt_window`).
-/

namespace Rows

variable {α : Type}

/-- The rows of a text, the first of which already has the characters `row`. -/
def layoutFrom [DecidableEq α] (width : Nat) (newline : α) : List α → List α → List (List α)
  | row, [] => [row]
  | row, c :: text =>
    if c = newline then row :: layoutFrom width newline [] text
    else if row.length + 1 = width then (row ++ [c]) :: layoutFrom width newline [] text
    else layoutFrom width newline (row ++ [c]) text

/-- A new row starts after every `width`th character of a row and after every newline. -/
def layout [DecidableEq α] (width : Nat) (newline : α) (text : List α) : List (List α) :=
  layoutFrom width newline [] text

/-- The last `height` rows. -/
def window (height : Nat) (rows : List (List α)) : List (List α) :=
  rows.drop (rows.length - height)

def charAt (blank : α) (rows : List (List α)) (y x : Nat) : α := (rows.getD y []).getD x blank

theorem charAt_window (blank : α) (height : Nat) (rows : List (List α)) (y x : Nat) :
    charAt blank (window height rows) y x = charAt blank rows (rows.length - height + y) x := by
  have hrow : (rows.drop (rows.length - height)).getD y [] =
      rows.getD (rows.length - height + y) [] := by
    rw [List.getD_eq_getElem?_getD, List.getElem?_drop, List.getD_eq_getElem?_getD]
  rw [charAt, window, hrow, charAt]

theorem charAt_of_ge (blank : α) {rows : List (List α)} {y : Nat} (h : rows.length ≤ y) (x : Nat) :
    charAt blank rows y x = blank := by
  rw [charAt, List.getD_eq_default _ _ h, List.getD_nil]

theorem charAt_concat_nil (blank : α) (rows : List (List α)) (y x : Nat) :
    charAt blank (rows ++ [[]]) y x = charAt blank rows y x := by
  rcases Nat.lt_or_ge y rows.length with hlt | hge
  · rw [charAt, List.getD_append _ _ _ _ hlt, charAt]
  · rw [charAt_of_ge blank hge, charAt, List.getD_append_right _ _ _ _ hge]
    rcases Nat.eq_zero_or_pos (y - rows.length) with hzero | hpos
    · rw [hzero]
      rfl
    · rw [List.getD_eq_default [[]] [] hpos, List.getD_nil]

theorem charAt_concat_char (blank : α) (done : List (List α)) (last : List α) (c : α) (y x : Nat) :
    charAt blank (done ++ [last ++ [c]]) y x =
      if y = done.length ∧ x = last.length then c else charAt blank (done ++ [last]) y x := by
  rcases Nat.lt_trichotomy y done.length with hlt | rfl | hgt
  · rw [if_neg (by omega), charAt, charAt, List.getD_append _ _ _ _ hlt,
      List.getD_append _ _ _ _ hlt]
  · have hrow : ∀ row : List α, (done ++ [row]).getD done.length [] = row := fun row => by
      rw [List.getD_append_right _ _ _ _ (Nat.le_refl _), Nat.sub_self]
      rfl
    rw [charAt, charAt, hrow, hrow]
    rcases Nat.lt_trichotomy x last.length with hx | rfl | hx
    · rw [if_neg (by omega), List.getD_append _ _ _ _ hx]
    · rw [if_pos ⟨rfl, rfl⟩, List.getD_append_right _ _ _ _ (Nat.le_refl _), Nat.sub_self]
      rfl
    · rw [if_neg (by omega), List.getD_eq_default, List.getD_eq_default]
      · exact Nat.le_of_lt hx
      · rw [List.length_append]
        exact hx
  · have hlen : ∀ row : List α, (done ++ [row]).length ≤ y := fun row => by
      rw [List.length_append]
      exact hgt
    rw [if_neg (by omega), charAt_of_ge blank (hlen _), charAt_of_ge blank (hlen _)]

end Rows
