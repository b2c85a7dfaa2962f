import Mathlib.Data.Finset.Card

/-!
# Exclusive ownership

Resources are marked used or free; references name resources. `Exclusive` says
that the used resources are exactly those named by a reference, and that no
resource is named twice. Acquiring free resources through new references and
releasing all references of a group keep it (`Exclusive.acquire`,
`Exclusive.release`). `card_acquire` and `card_release` count the free
resources on the way.
-/

namespace Ownership

variable {β κ : Type}

/-- The used resources are those some reference names, each named once. -/
structure Exclusive (used : β → Prop) (ref : κ → Option β) : Prop where
  used_iff : ∀ b, used b ↔ ∃ k, ref k = some b
  inj : ∀ k l b, ref k = some b → ref l = some b → k = l

/-- Used means named by exactly one reference. -/
theorem Exclusive.existsUnique {used : β → Prop} {ref : κ → Option β} (h : Exclusive used ref)
    (b : β) : used b ↔ ∃! k, ref k = some b := by
  rw [h.used_iff]
  constructor
  · rintro ⟨k, hk⟩
    exact ⟨k, hk, fun l hl => h.inj l k b hl hk⟩
  · rintro ⟨k, hk, _⟩
    exact ⟨k, hk⟩

/-- **Acquire.** References of the group `K`, unset so far, name distinct free resources. -/
theorem Exclusive.acquire {used used' : β → Prop} {ref ref' : κ → Option β}
    (h : Exclusive used ref) {K : κ → Prop}
    (hkeep : ∀ k, ¬ K k → ref' k = ref k) (hunset : ∀ k, K k → ref k = none)
    (hfree : ∀ k b, K k → ref' k = some b → ¬ used b)
    (hinj : ∀ k l b, K k → K l → ref' k = some b → ref' l = some b → k = l)
    (hused : ∀ b, used' b ↔ used b ∨ ∃ k, K k ∧ ref' k = some b) : Exclusive used' ref' where
  used_iff b := by
    rw [hused, h.used_iff]
    constructor
    · rintro (⟨k, hk⟩ | ⟨k, _, hk⟩)
      · have hK : ¬ K k := fun hK => by rw [hunset k hK] at hk; cases hk
        exact ⟨k, (hkeep k hK).trans hk⟩
      · exact ⟨k, hk⟩
    · rintro ⟨k, hk⟩
      by_cases hK : K k
      · exact .inr ⟨k, hK, hk⟩
      · exact .inl ⟨k, (hkeep k hK).symm.trans hk⟩
  inj k l b hk hl := by
    by_cases hKk : K k <;> by_cases hKl : K l
    · exact hinj k l b hKk hKl hk hl
    · rw [hkeep l hKl] at hl
      exact absurd ((h.used_iff b).mpr ⟨l, hl⟩) (hfree k b hKk hk)
    · rw [hkeep k hKk] at hk
      exact absurd ((h.used_iff b).mpr ⟨k, hk⟩) (hfree l b hKl hl)
    · rw [hkeep k hKk] at hk
      rw [hkeep l hKl] at hl
      exact h.inj k l b hk hl

/-- **Release.** The references of the group `K` are unset and their resources become free. -/
theorem Exclusive.release {used used' : β → Prop} {ref ref' : κ → Option β}
    (h : Exclusive used ref) {K : κ → Prop}
    (hkeep : ∀ k, ¬ K k → ref' k = ref k) (hunset : ∀ k, K k → ref' k = none)
    (hused : ∀ b, used' b ↔ used b ∧ ¬ ∃ k, K k ∧ ref k = some b) : Exclusive used' ref' where
  used_iff b := by
    rw [hused, h.used_iff]
    constructor
    · rintro ⟨⟨k, hk⟩, hn⟩
      exact ⟨k, (hkeep k fun hK => hn ⟨k, hK, hk⟩).trans hk⟩
    · rintro ⟨k, hk⟩
      have hK : ¬ K k := fun hK => by rw [hunset k hK] at hk; cases hk
      rw [hkeep k hK] at hk
      refine ⟨⟨k, hk⟩, ?_⟩
      rintro ⟨l, hl, hlb⟩
      exact hK (h.inj l k b hlb hk ▸ hl)
  inj k l b hk hl := by
    have hKk : ¬ K k := fun hK => by rw [hunset k hK] at hk; cases hk
    have hKl : ¬ K l := fun hK => by rw [hunset l hK] at hl; cases hl
    exact h.inj k l b ((hkeep k hKk).symm.trans hk) ((hkeep l hKl).symm.trans hl)

variable [DecidableEq β]

/-- Marking the resources of a duplicate-free list used takes its length off the free count. -/
theorem card_acquire {all : Finset β} {free free' : β → Prop} [DecidablePred free]
    [DecidablePred free'] {bs : List β} (hnd : bs.Nodup)
    (hbs : ∀ b ∈ bs, b ∈ all ∧ free b) (h : ∀ b ∈ all, free' b ↔ free b ∧ b ∉ bs) :
    (all.filter free').card + bs.length = (all.filter free).card := by
  have hsub : bs.toFinset ⊆ all.filter free := fun b hb =>
    Finset.mem_filter.mpr (hbs b (List.mem_toFinset.mp hb))
  have heq : all.filter free' = all.filter free \ bs.toFinset := by
    ext b
    simp only [Finset.mem_filter, Finset.mem_sdiff, List.mem_toFinset]
    constructor
    · rintro ⟨ha, hf⟩
      exact ⟨⟨ha, ((h b ha).mp hf).1⟩, ((h b ha).mp hf).2⟩
    · rintro ⟨⟨ha, hf⟩, hb⟩
      exact ⟨ha, (h b ha).mpr ⟨hf, hb⟩⟩
  rw [heq, ← List.toFinset_card_of_nodup hnd]
  exact Finset.card_sdiff_add_card_eq_card hsub

/-- When all else is free, the resources of a duplicate-free list are missing from the count. -/
theorem card_free {all : Finset β} {free : β → Prop} [DecidablePred free] {bs : List β}
    (hnd : bs.Nodup) (hbs : ∀ b ∈ bs, b ∈ all) (h : ∀ b ∈ all, free b ↔ b ∉ bs) :
    (all.filter free).card + bs.length = all.card := by
  have hall : all.filter (fun _ => True) = all := Finset.filter_true_of_mem fun _ _ => trivial
  have hcard : (all.filter free).card + bs.length = (all.filter fun _ => True).card :=
    card_acquire hnd (fun b hb => ⟨hbs b hb, trivial⟩) fun b hb => by rw [h b hb, true_and]
  rw [hcard, hall]

/-- Freeing the resources of a duplicate-free list adds its length to the free count. -/
theorem card_release {all : Finset β} {free free' : β → Prop} [DecidablePred free]
    [DecidablePred free'] {bs : List β} (hnd : bs.Nodup)
    (hbs : ∀ b ∈ bs, b ∈ all ∧ ¬ free b) (h : ∀ b ∈ all, free' b ↔ free b ∨ b ∈ bs) :
    (all.filter free').card = (all.filter free).card + bs.length := by
  symm
  refine card_acquire hnd (fun b hb => ⟨(hbs b hb).1, (h b (hbs b hb).1).mpr (.inr hb)⟩)
    fun b ha => ?_
  rw [h b ha]
  constructor
  · exact fun hf => ⟨.inl hf, fun hb => (hbs b hb).2 hf⟩
  · rintro ⟨hf | hb, hn⟩
    · exact hf
    · exact absurd hb hn

end Ownership
