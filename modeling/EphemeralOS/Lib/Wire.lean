import Mathlib.Logic.Function.Basic
import Mathlib.Logic.Relation

/-!
# Messages on a wire

Parties that know of each other only by the messages that they send. Nothing is
assumed of the wire but that it makes up no message: what has been sent may be
received by anyone, at any time later, in any order, many times or never.

An invariant of the parties holds however their steps are interleaved, if the
messages of parties that have it are of a kind that lets the receivers keep it
(`Steps.invariant`). Both may speak about what other parties have done, as long
as that does not become false again.
-/

namespace Wire

open Relation

variable {ι σ μ : Type} [DecidableEq ι]

def OnWire (sent : σ → μ → Prop) (x : ι → σ) (m : μ) : Prop := ∃ i, sent (x i) m

/-- A step of one of the parties, which may have received anything on the wire. -/
inductive Step (sent : σ → μ → Prop) (step : (μ → Prop) → σ → σ → Prop) (x : ι → σ) :
    (ι → σ) → Prop
  | party {i : ι} {s : σ} : step (OnWire sent x) (x i) s → Step sent step x (Function.update x i s)

abbrev Steps (sent : σ → μ → Prop) (step : (μ → Prop) → σ → σ → Prop) :
    (ι → σ) → (ι → σ) → Prop := ReflTransGen (Step sent step)

variable {sent : σ → μ → Prop} {step : (μ → Prop) → σ → σ → Prop}

/-- **The induction rule**, for an invariant `J` of the parties and a kind `M` of messages. -/
theorem Steps.invariant {J : (ι → σ) → ι → σ → Prop} {M : (ι → σ) → μ → Prop}
    (hlater : ∀ x y i s, Step sent step x y → J x i s → J y i s)
    (hsent : ∀ x i m, J x i (x i) → sent (x i) m → M x m)
    (hstep : ∀ x i s, (∀ m, OnWire sent x m → M x m) → J x i (x i) →
      step (OnWire sent x) (x i) s → J x i s)
    {x y : ι → σ} (hx : ∀ i, J x i (x i)) (h : Steps sent step x y) : ∀ i, J y i (y i) := by
  induction h with
  | refl => exact hx
  | @tail y z _ hyz ih =>
    have hwire : ∀ m, OnWire sent y m → M y m := fun m ⟨j, hm⟩ => hsent y j m (ih j) hm
    intro i
    refine hlater y z i (z i) hyz ?_
    cases hyz with
    | @party k s hs =>
      by_cases hik : i = k
      · subst hik
        rw [Function.update_self]
        exact hstep y i s hwire (ih i) hs
      · rw [Function.update_of_ne hik]
        exact ih i

/-- Steps of one party, with what was on the wire before them. -/
theorem Steps.party {i : ι}
    (hmono : ∀ wire wire' s s', (∀ m, wire m → wire' m) → step wire s s' → step wire' s s')
    (hgrows : ∀ wire s s' m, step wire s s' → sent s m → sent s' m) {x : ι → σ} {s : σ}
    (h : ReflTransGen (step (OnWire sent x)) (x i) s) :
    Steps sent step x (Function.update x i s) := by
  -- what has been sent stays on the wire
  have hkept : ∀ {t : σ}, ReflTransGen (step (OnWire sent x)) (x i) t →
      ∀ m, sent (x i) m → sent t m := by
    intro t ht
    induction ht with
    | refl => exact fun _ hm => hm
    | tail _ hstep ih => exact fun m hm => hgrows _ _ _ m hstep (ih m hm)
  induction h with
  | refl => rw [Function.update_eq_self]
  | @tail t t' ht hstep ih =>
    have hwire : ∀ m, OnWire sent x m → OnWire sent (Function.update x i t) m := by
      rintro m ⟨j, hm⟩
      by_cases hji : j = i
      · subst hji
        exact ⟨j, by rw [Function.update_self]; exact hkept ht m hm⟩
      · exact ⟨j, by rwa [Function.update_of_ne hji]⟩
    have hnext : Step sent step (Function.update x i t)
        (Function.update (Function.update x i t) i t') :=
      .party (by rw [Function.update_self]; exact hmono _ _ _ _ hwire hstep)
    rw [Function.update_idem] at hnext
    exact ih.tail hnext

end Wire
