import Mathlib.Logic.Basic

/-!
# Runs of a state machine

The states reached from the initial ones by events, each of which may be
allowed only in some states (`Reached`). A property of the initial states that
every allowed step keeps holds of all of them (`Reached.invariant`). `Every` is
what holds of each event of one run, in the state it happens in.
-/

namespace Run

variable {σ ε : Type}

/-- A state reached from `init` by events that were allowed when they happened. -/
inductive Reached (init : σ → Prop) (step : ε → σ → σ) (allowed : ε → σ → Prop) : σ → Prop
  | start {s : σ} : init s → Reached init step allowed s
  | next {s : σ} {e : ε} : Reached init step allowed s → allowed e s →
      Reached init step allowed (step e s)

variable {init init' : σ → Prop} {step : ε → σ → σ} {allowed allowed' : ε → σ → Prop}

/-- **The induction rule.** -/
theorem Reached.invariant {P : σ → Prop} (hinit : ∀ s, init s → P s)
    (hstep : ∀ s e, P s → allowed e s → P (step e s)) {s : σ} (h : Reached init step allowed s) :
    P s := by
  induction h with
  | start h => exact hinit _ h
  | next _ he ih => exact hstep _ _ ih he

theorem Reached.mono (hinit : ∀ s, init s → init' s) (hallowed : ∀ e s, allowed e s → allowed' e s)
    {s : σ} (h : Reached init step allowed s) : Reached init' step allowed' s := by
  induction h with
  | start h => exact .start (hinit _ h)
  | next _ he ih => exact .next ih (hallowed _ _ he)

/-- Each event of a run has the property, in the state in which it happens. -/
def Every (step : ε → σ → σ) (P : ε → σ → Prop) : List ε → σ → Prop
  | [], _ => True
  | e :: es, s => P e s ∧ Every step P es (step e s)

theorem every_congr {P Q : ε → σ → Prop} (h : ∀ e s, P e s ↔ Q e s) (es : List ε) (s : σ) :
    Every step P es s ↔ Every step Q es s := by
  induction es generalizing s with
  | nil => exact Iff.rfl
  | cons e es ih => exact and_congr (h e s) (ih (step e s))

theorem every_append {P : ε → σ → Prop} {es es' : List ε} {s : σ} :
    Every step P (es ++ es') s ↔
      Every step P es s ∧ Every step P es' (es.foldl (fun s e => step e s) s) := by
  induction es generalizing s with
  | nil => exact ⟨fun h => ⟨trivial, h⟩, And.right⟩
  | cons e es ih =>
    constructor
    · exact fun h => ⟨⟨h.1, (ih.mp h.2).1⟩, (ih.mp h.2).2⟩
    · exact fun h => ⟨h.1.1, ih.mpr ⟨h.1.2, h.2⟩⟩

end Run
