import Mathlib.Data.List.Induction
import Mathlib.Data.List.Nodup
import Mathlib.Logic.Function.Basic

/-!
# Moves one after another

A move `(a, b)` writes at `b` what it reads at `a`. `run` makes moves one after
another, each in the memory that the earlier ones have left. When no address is
written twice, this copies what was there before exactly if no earlier move has
written another value where a later one reads (`run_copies_iff`), whatever the
order is.
-/

namespace Moves

variable {α β : Type} [DecidableEq α]

def run (moves : List (α × α)) (m : α → β) : α → β :=
  moves.foldl (fun m move => Function.update m move.2 (m move.1)) m

@[simp] theorem run_nil (m : α → β) : run [] m = m := rfl

theorem run_cons (move : α × α) (moves : List (α × α)) (m : α → β) :
    run (move :: moves) m = run moves (Function.update m move.2 (m move.1)) := rfl

theorem run_append (moves moves' : List (α × α)) (m : α → β) :
    run (moves ++ moves') m = run moves' (run moves m) := List.foldl_append ..

theorem run_concat (moves : List (α × α)) (move : α × α) (m : α → β) (a : α) :
    run (moves ++ [move]) m a = if a = move.2 then run moves m move.1 else run moves m a := by
  rw [run_append, run_cons, run_nil, Function.update_apply]

/-- What no move writes stays as it is. -/
theorem run_of_notMem {moves : List (α × α)} {a : α} (h : a ∉ moves.map Prod.snd) (m : α → β) :
    run moves m a = m a := by
  induction moves generalizing m with
  | nil => rfl
  | cons move moves ih =>
    rw [List.map_cons, List.mem_cons, not_or] at h
    rw [run_cons, ih h.2, Function.update_of_ne h.1]

/-- No value comes from elsewhere. -/
theorem run_eq_or (moves : List (α × α)) (m : α → β) (a : α) :
    run moves m a = m a ∨ ∃ move ∈ moves, run moves m a = m move.1 := by
  induction moves using List.reverseRecOn generalizing a with
  | nil => exact .inl rfl
  | append_singleton moves move ih =>
    rw [run_concat]
    have hlater : ∀ {x}, (∃ move' ∈ moves, x = m move'.1) →
        ∃ move' ∈ moves ++ [move], x = m move'.1 := fun ⟨move', hmem, hx⟩ =>
      ⟨move', List.mem_append_left _ hmem, hx⟩
    split
    · rcases ih move.1 with hread | hread
      · exact .inr ⟨move, by simp, hread⟩
      · exact .inr (hlater hread)
    · exact (ih a).imp_right hlater

/-- **Moves one after another copy what was there before exactly if no move reads what an earlier
one has changed.** -/
theorem run_copies_iff {moves : List (α × α)} (h : (moves.map Prod.snd).Nodup) (m : α → β) :
    (∀ move ∈ moves, run moves m move.2 = m move.1) ↔
      moves.Pairwise fun earlier later => earlier.2 = later.1 → m earlier.1 = m later.1 := by
  induction moves using List.reverseRecOn with
  | nil => simp
  | append_singleton moves move ih =>
    rw [List.map_append, List.nodup_append] at h
    obtain ⟨hnodup, -, hnew⟩ := h
    have hne : ∀ earlier ∈ moves, earlier.2 ≠ move.2 := fun earlier hmem =>
      hnew _ (List.mem_map_of_mem hmem) _ (by simp)
    have hold : ∀ earlier ∈ moves, run (moves ++ [move]) m earlier.2 = run moves m earlier.2 :=
      fun earlier hmem => by rw [run_concat, if_neg (hne earlier hmem)]
    have hlast : run (moves ++ [move]) m move.2 = run moves m move.1 := by
      rw [run_concat, if_pos rfl]
    rw [List.pairwise_append, ← ih hnodup]
    constructor
    · intro hall
      have hcopies : ∀ earlier ∈ moves, run moves m earlier.2 = m earlier.1 := fun earlier hmem =>
        (hold earlier hmem).symm.trans (hall earlier (List.mem_append_left _ hmem))
      refine ⟨hcopies, List.pairwise_singleton _ _, fun earlier hmem later hlater heq => ?_⟩
      rw [List.mem_singleton.mp hlater] at heq ⊢
      rw [← hcopies earlier hmem, heq, ← hlast]
      exact hall move (by simp)
    · rintro ⟨hcopies, -, hread⟩ later hlater
      rcases List.mem_append.mp hlater with hmem | hmem
      · rw [hold later hmem, hcopies later hmem]
      · rw [List.mem_singleton.mp hmem, hlast]
        by_cases hwritten : move.1 ∈ moves.map Prod.snd
        · -- the address read has been written, with what is still right
          obtain ⟨earlier, hearlier, heq⟩ := List.mem_map.mp hwritten
          have hsame := hread earlier hearlier move (List.mem_singleton_self _) heq
          rw [← heq, hcopies earlier hearlier, hsame, heq]
        · exact run_of_notMem hwritten m

/-- An order in which each address is read before it is written is safe for every memory. -/
theorem run_copies {moves : List (α × α)} (h : (moves.map Prod.snd).Nodup)
    (hsafe : moves.Pairwise fun earlier later => earlier.2 ≠ later.1) (m : α → β) (move : α × α)
    (hmem : move ∈ moves) : run moves m move.2 = m move.1 :=
  (run_copies_iff h m).mpr (hsafe.imp fun hne heq => absurd heq hne) move hmem

end Moves
