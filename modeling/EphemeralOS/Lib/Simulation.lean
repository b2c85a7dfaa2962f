import Mathlib.Logic.Basic

/-!
# Simulation

A machine answers each call and goes on in another state. A specification says
of each call which answers it allows, and which states after them (`Spec`). When
every call of the machine is one that the specification allows, in related
states, so is every run (`Runs.simulate`).

A call may be allowed by the machine's state alone: `ok` is what the caller has
to see to.
-/

namespace Simulation

variable {σ τ ε ο : Type}

/-- The answers of a machine to a list of calls, and the state it ends in. -/
def answers (step : ε → σ → ο × σ) : List ε → σ → List ο × σ
  | [], s => ([], s)
  | e :: es, s =>
    let (o, s) := step e s
    let (os, s) := answers step es s
    (o :: os, s)

/-- A specification: from a state, a call may get this answer and lead to that state. -/
abbrev Spec (τ ε ο : Type) := τ → ε → ο → τ → Prop

/-- A run that a specification allows: the calls, their answers, and the states at both ends. -/
inductive Runs (spec : Spec τ ε ο) : τ → List ε → List ο → τ → Prop
  | nil {t : τ} : Runs spec t [] [] t
  | cons {t t' t'' : τ} {e : ε} {o : ο} {es : List ε} {os : List ο} :
      spec t e o t' → Runs spec t' es os t'' → Runs spec t (e :: es) (o :: os) t''

/-- Every call of a run is made in a state in which it may be made. -/
def Allowed (step : ε → σ → ο × σ) (ok : ε → σ → Prop) : List ε → σ → Prop
  | [], _ => True
  | e :: es, s => ok e s ∧ Allowed step ok es (step e s).2

variable {step : ε → σ → ο × σ} {ok : ε → σ → Prop} {spec : Spec τ ε ο} {R : σ → τ → Prop}

/-- **A machine whose calls are all allowed by the specification has only runs that it allows.** -/
theorem Runs.simulate
    (hstep : ∀ e s t, R s t → ok e s → ∃ t', spec t e (step e s).1 t' ∧ R (step e s).2 t')
    {es : List ε} {s : σ} {t : τ} (hR : R s t) (hok : Allowed step ok es s) :
    ∃ t', Runs spec t es (answers step es s).1 t' ∧ R (answers step es s).2 t' := by
  induction es generalizing s t with
  | nil => exact ⟨t, .nil, hR⟩
  | cons e es ih =>
    obtain ⟨t1, hspec, hR1⟩ := hstep e s t hR hok.1
    obtain ⟨t2, hruns, hR2⟩ := ih hR1 hok.2
    exact ⟨t2, .cons hspec hruns, hR2⟩

/-- A machine as a specification: the one answer and the one state that it gives. -/
def exactly (step : ε → τ → ο × τ) : Spec τ ε ο := fun t e o t' => step e t = (o, t')

/-- A run of a machine is the only one that it allows as a specification. -/
theorem runs_exactly {step : ε → τ → ο × τ} {es : List ε} {t t' : τ} {os : List ο} :
    Runs (exactly step) t es os t' ↔ answers step es t = (os, t') := by
  constructor
  · intro h
    induction h with
    | nil => rfl
    | cons hstep _ ih =>
      simp only [exactly] at hstep
      simp only [answers, hstep, ih]
  · intro h
    induction es generalizing t os with
    | nil =>
      cases h
      exact .nil
    | cons e es ih =>
      cases h
      exact .cons rfl (ih rfl)

end Simulation
