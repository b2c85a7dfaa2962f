import Mathlib.Data.List.Dedup
import Mathlib.Data.List.Perm.Subperm
import EphemeralOS.Lib.Directory

/-!
# Caches with a fixed number of slots

A cache is a directory whose slots are filled in order. An addition is written
over the entry of its key, else to the first empty slot, else over a victim
(`Place`). Whatever the victims are, the cache is a map (`Holds`). When the
victim is always the key whose last addition is the longest ago, the cache holds
the keys added latest (`HoldsRecent.write`).
-/

namespace Cache

open Directory

variable {n : Nat} {κ ν : Type}

def Filled (t : Slots n κ ν) : Prop := ∀ i j, j < i → t i ≠ none → t j ≠ none

/-- Where an addition for the key `k` may be written. -/
inductive Place (t : Slots n κ ν) (k : κ) (i : Fin n) : Prop
  | update {v : ν} : t i = some (k, v) → Place t k i
  | append : t i = none → (∀ j, j < i → t j ≠ none ∧ ∀ v, t j ≠ some (k, v)) → Place t k i
  | evict : (∀ j, t j ≠ none) → (∀ j v, t j ≠ some (k, v)) → Place t k i

theorem Filled.none_after {t : Slots n κ ν} (h : Filled t) {i j : Fin n} (hi : t i = none)
    (hij : i ≤ j) : t j = none := by
  rcases Fin.lt_or_eq_of_le hij with hlt | rfl
  · by_contra hj
    exact h j i hlt hj hi
  · exact hi

theorem Filled.empty : Filled (fun _ => none : Slots n κ ν) := fun _ _ _ h => absurd rfl h

theorem Filled.write {t : Slots n κ ν} (h : Filled t) {k : κ} {i : Fin n} (hp : Place t k i)
    (v : ν) : Filled (Function.update t i (some (k, v))) := by
  intro a b hba ha
  by_cases hbi : b = i
  · subst hbi
    rw [Function.update_self]
    exact Option.some_ne_none _
  · rw [Function.update_of_ne hbi]
    by_cases hai : a = i
    · subst hai
      cases hp with
      | update hk => exact h a b hba (by rw [hk]; exact Option.some_ne_none _)
      | append _ hbefore => exact (hbefore b hba).1
      | evict hfull _ => exact hfull b
    · rw [Function.update_of_ne hai] at ha
      exact h a b hba ha

/-- Outside the slot that is written there is no entry for the key. -/
theorem Place.alone {t : Slots n κ ν} (hf : Filled t) (hu : UniqueNames t) {k : κ} {i : Fin n}
    (hp : Place t k i) {j : Fin n} (hj : j ≠ i) (v : ν) : t j ≠ some (k, v) := by
  intro hjk
  cases hp with
  | update hk => exact hj (hu j i k _ _ hjk hk)
  | append hi hbefore =>
    rcases Fin.lt_or_lt_of_ne hj with hlt | hlt
    · exact (hbefore j hlt).2 v hjk
    · rw [hf.none_after hi (Fin.le_of_lt hlt)] at hjk
      cases hjk
  | evict _ hnot => exact hnot j v hjk

theorem unique_write {t : Slots n κ ν} (hf : Filled t) (hu : UniqueNames t) {k : κ} {i : Fin n}
    (hp : Place t k i) (v : ν) : UniqueNames (Function.update t i (some (k, v))) := by
  intro a b c x y ha hb
  by_cases hai : a = i <;> by_cases hbi : b = i
  · rw [hai, hbi]
  · subst hai
    rw [Function.update_self] at ha
    rw [Function.update_of_ne hbi] at hb
    cases ha
    exact absurd hb (hp.alone hf hu hbi y)
  · subst hbi
    rw [Function.update_self] at hb
    rw [Function.update_of_ne hai] at ha
    cases hb
    exact absurd ha (hp.alone hf hu hai x)
  · rw [Function.update_of_ne hai] at ha
    rw [Function.update_of_ne hbi] at hb
    exact hu a b c x y ha hb

/-! ## The keys of a cache -/

def keys (t : Slots n κ ν) : List κ := (List.finRange n).filterMap fun i => (t i).map Prod.fst

theorem mem_keys {t : Slots n κ ν} {k : κ} : k ∈ keys t ↔ ∃ i v, t i = some (k, v) := by
  simp [keys]

theorem nodup_keys {t : Slots n κ ν} (hu : UniqueNames t) : (keys t).Nodup := by
  refine (List.nodup_finRange n).filterMap fun i j k hi hj => ?_
  obtain ⟨⟨_, x⟩, hx, rfl⟩ := Option.map_eq_some_iff.mp hi
  obtain ⟨⟨_, y⟩, hy, hyk⟩ := Option.map_eq_some_iff.mp hj
  cases hyk
  exact hu i j _ x y hx hy

theorem length_keys_of_full {t : Slots n κ ν} (h : ∀ i, t i ≠ none) : (keys t).length = n := by
  rw [keys, List.length_filterMap_eq_countP]
  rw [List.countP_eq_length.mpr, List.length_finRange]
  intro i _
  rw [Option.isSome_map, Option.isSome_iff_ne_none]
  exact h i

theorem length_keys_lt {t : Slots n κ ν} {i : Fin n} (h : t i = none) : (keys t).length < n := by
  rw [keys, List.length_filterMap_eq_countP]
  refine lt_of_le_of_ne (List.countP_le_length.trans_eq (List.length_finRange)) fun heq => ?_
  have hall := List.countP_eq_length.mp (heq.trans List.length_finRange.symm) i
    (List.mem_finRange i)
  rw [h] at hall
  cases hall

variable [DecidableEq κ]

theorem mem_keys_iff_find {t : Slots n κ ν} {k : κ} : k ∈ keys t ↔ find t k ≠ none := by
  rw [mem_keys, ne_eq, find_eq_none_iff]
  simp

omit [DecidableEq κ] in
/-- The keys after a write: the new one, and those that were not written over. -/
theorem mem_keys_write {t : Slots n κ ν} {k a : κ} {i : Fin n} {v : ν} :
    a ∈ keys (Function.update t i (some (k, v))) ↔ a = k ∨ ∃ j, j ≠ i ∧ ∃ w, t j = some (a, w) := by
  rw [mem_keys]
  constructor
  · rintro ⟨j, w, hj⟩
    by_cases hji : j = i
    · subst hji
      rw [Function.update_self] at hj
      cases hj
      exact .inl rfl
    · rw [Function.update_of_ne hji] at hj
      exact .inr ⟨j, hji, w, hj⟩
  · rintro (rfl | ⟨j, hji, w, hj⟩)
    · exact ⟨i, v, Function.update_self ..⟩
    · exact ⟨j, w, by rw [Function.update_of_ne hji, hj]⟩

omit [DecidableEq κ] in
/-- Another key stays unless its entry is the one written over. -/
theorem mem_keys_write_of_ne {t : Slots n κ ν} (hu : UniqueNames t) {k a : κ} (hak : a ≠ k)
    {i : Fin n} {v : ν} : a ∈ keys (Function.update t i (some (k, v))) ↔
      a ∈ keys t ∧ ∀ w, t i ≠ some (a, w) := by
  rw [mem_keys_write, or_iff_right hak, mem_keys]
  constructor
  · rintro ⟨j, hji, w, hj⟩
    exact ⟨⟨j, w, hj⟩, fun x hi => hji (hu j i a w x hj hi)⟩
  · rintro ⟨⟨j, w, hj⟩, hkept⟩
    refine ⟨j, ?_, w, hj⟩
    rintro rfl
    exact hkept w hj

omit [DecidableEq κ] in
theorem Place.kept_or_full {t : Slots n κ ν} {k a : κ} {i : Fin n} (hp : Place t k i)
    (hak : a ≠ k) : (∀ w, t i ≠ some (a, w)) ∨ (∀ j, t j ≠ none) ∧ k ∉ keys t := by
  cases hp with
  | update hk =>
    refine .inl fun w hi => hak ?_
    rw [hk] at hi
    cases hi
    rfl
  | append hnone _ => exact .inl fun w hi => nomatch hnone.symm.trans hi
  | evict hfull hnot =>
    refine .inr ⟨hfull, fun hk => ?_⟩
    obtain ⟨j, w, hj⟩ := mem_keys.mp hk
    exact hnot j w hj

/-! ## A cache is a map -/

def latest (adds : List (κ × ν)) (k : κ) : Option ν := adds.reverse.lookup k

theorem latest_concat (adds : List (κ × ν)) (k c : κ) (v : ν) :
    latest (adds ++ [(k, v)]) c = if c = k then some v else latest adds c := by
  rw [latest, List.reverse_concat, List.lookup_cons]
  by_cases h : c = k
  · rw [if_pos h, beq_iff_eq.mpr h]
  · rw [if_neg h, beq_eq_false_iff_ne.mpr h]
    rfl

def added (adds : List (κ × ν)) : List κ := adds.map Prod.fst

omit [DecidableEq κ] in
theorem added_concat (adds : List (κ × ν)) (k : κ) (v : ν) :
    added (adds ++ [(k, v)]) = added adds ++ [k] := by
  rw [added, List.map_append]
  rfl

/-- A cache after the additions `adds`, the latest one last. -/
structure Holds (adds : List (κ × ν)) (t : Slots n κ ν) : Prop where
  filled : Filled t
  unique : UniqueNames t
  fresh : ∀ i k v, t i = some (k, v) → latest adds k = some v
  was_added : ∀ k ∈ keys t, k ∈ added adds
  complete : (added adds).dedup.length ≤ n → ∀ k ∈ added adds, k ∈ keys t

theorem Holds.empty : Holds ([] : List (κ × ν)) (fun _ => none : Slots n κ ν) where
  filled := .empty
  unique := fun _ _ _ _ _ h => nomatch h
  fresh := fun _ _ _ h => nomatch h
  was_added := fun _ h => by
    obtain ⟨_, _, hi⟩ := mem_keys.mp h
    cases hi
  complete := fun _ _ h => absurd h List.not_mem_nil

theorem dedup_concat (ks : List κ) (k : κ) : (ks ++ [k]).dedup = ks.dedup.erase k ++ [k] := by
  induction ks with
  | nil => rfl
  | cons a ks ih =>
    rw [List.cons_append]
    by_cases ha : a ∈ ks
    · rw [List.dedup_cons_of_mem (List.mem_append_left _ ha), List.dedup_cons_of_mem ha, ih]
    · by_cases hak : a = k
      · subst hak
        rw [List.dedup_cons_of_mem (by simp), List.dedup_cons_of_notMem ha, ih,
          List.erase_cons_head, List.erase_of_not_mem (mt List.mem_dedup.mp ha)]
      · have hnot : a ∉ ks ++ [k] := by simp [ha, hak]
        rw [List.dedup_cons_of_notMem hnot, List.dedup_cons_of_notMem ha, ih,
          List.erase_cons_tail (by simpa using hak), List.cons_append]

theorem length_dedup_concat (ks : List κ) (k : κ) :
    (ks ++ [k]).dedup.length = if k ∈ ks then ks.dedup.length else ks.dedup.length + 1 := by
  rw [dedup_concat, List.length_append, List.length_erase]
  by_cases h : k ∈ ks
  · have hpos : 0 < ks.dedup.length := List.length_pos_of_mem (List.mem_dedup.mpr h)
    rw [if_pos h, if_pos (List.mem_dedup.mpr h), List.length_singleton]
    omega
  · rw [if_neg h, if_neg (mt List.mem_dedup.mp h), List.length_singleton]

/-- **A cache stays a map when something is added to it.** -/
theorem Holds.write {adds : List (κ × ν)} {t : Slots n κ ν} (h : Holds adds t) {k : κ} {i : Fin n}
    (hp : Place t k i) (v : ν) :
    Holds (adds ++ [(k, v)]) (Function.update t i (some (k, v))) where
  filled := h.filled.write hp v
  unique := unique_write h.filled h.unique hp v
  fresh := by
    intro j c w hj
    rw [latest_concat]
    by_cases hji : j = i
    · subst hji
      rw [Function.update_self] at hj
      cases hj
      exact if_pos rfl
    · rw [Function.update_of_ne hji] at hj
      have hck : c ≠ k := fun hck => by
        subst hck
        exact hp.alone h.filled h.unique hji w hj
      rw [if_neg hck]
      exact h.fresh j c w hj
  was_added := by
    intro a ha
    rw [added_concat, List.mem_append, List.mem_singleton]
    rcases mem_keys_write.mp ha with rfl | ⟨j, _, w, hj⟩
    · exact .inr rfl
    · exact .inl (h.was_added a (mem_keys.mpr ⟨j, w, hj⟩))
  complete := by
    intro hlen a ha
    rw [added_concat] at hlen ha
    rw [length_dedup_concat] at hlen
    by_cases hak : a = k
    · exact mem_keys_write.mpr (.inl hak)
    have hmem : a ∈ added adds := by simpa [hak] using ha
    have hadds : (added adds).dedup.length ≤ n := by
      split at hlen
      · exact hlen
      · omega
    refine (mem_keys_write_of_ne h.unique hak).mpr ⟨h.complete hadds a hmem, ?_⟩
    refine (hp.kept_or_full hak).resolve_right fun ⟨hfull, hkn⟩ => ?_
    -- a full cache already holds `n` different keys
    have hka : k ∉ added adds := fun hk => hkn (h.complete hadds k hk)
    have hle : (keys t).length ≤ (added adds).dedup.length :=
      ((nodup_keys h.unique).subperm fun c hc => List.mem_dedup.mpr (h.was_added c hc)).length_le
    rw [length_keys_of_full hfull] at hle
    rw [if_neg hka] at hlen
    omega

theorem Holds.find_latest {adds : List (κ × ν)} {t : Slots n κ ν} (h : Holds adds t) {k : κ} {v : ν}
    (hf : find t k = some v) : latest adds k = some v := by
  obtain ⟨i, hi⟩ := exists_slot_of_find hf
  exact h.fresh i k v hi

/-- A cache that was never full of other keys holds exactly what was added. -/
theorem Holds.find_ne_none_iff {adds : List (κ × ν)} {t : Slots n κ ν} (h : Holds adds t)
    (hn : (added adds).dedup.length ≤ n) (k : κ) : find t k ≠ none ↔ k ∈ added adds := by
  rw [← mem_keys_iff_find]
  exact ⟨h.was_added k, h.complete hn k⟩

/-! ## The keys added latest -/

/-- The different keys, the one added latest first. -/
def recent (ks : List κ) : List κ := ks.dedup.reverse

/-- How many additions ago the last one of `k` was. -/
def age (ks : List κ) (k : κ) : Nat := ks.reverse.idxOf k

theorem nodup_recent (ks : List κ) : (recent ks).Nodup := List.nodup_reverse.mpr ks.nodup_dedup

theorem mem_recent {ks : List κ} {k : κ} : k ∈ recent ks ↔ k ∈ ks := by
  rw [recent, List.mem_reverse, List.mem_dedup]

theorem recent_concat (ks : List κ) (k : κ) :
    recent (ks ++ [k]) = k :: (recent ks).erase k := by
  have herase : (recent ks).erase k = (ks.dedup.erase k).reverse := by
    rw [(nodup_recent ks).erase_eq_filter, ks.nodup_dedup.erase_eq_filter, recent,
      List.filter_reverse]
  rw [herase, recent, dedup_concat, List.reverse_concat]

theorem age_concat_self (ks : List κ) (k : κ) : age (ks ++ [k]) k = 0 := by
  rw [age, List.reverse_concat, List.idxOf_cons_self]

theorem age_concat {ks : List κ} {k a : κ} (h : a ≠ k) : age (ks ++ [k]) a = age ks a + 1 := by
  rw [age, List.reverse_concat, List.idxOf_cons_ne _ h.symm]
  rfl

theorem sorted_recent (ks : List κ) :
    (recent ks).Pairwise fun a b => age ks a < age ks b := by
  induction ks using List.reverseRecOn with
  | nil => exact .nil
  | append_singleton ks k ih =>
    rw [recent_concat]
    have hne : ∀ a ∈ (recent ks).erase k, a ≠ k := fun a ha =>
      ((nodup_recent ks).mem_erase_iff.mp ha).1
    refine List.pairwise_cons.mpr ⟨fun a ha => ?_, ?_⟩
    · rw [age_concat_self, age_concat (hne a ha)]
      exact Nat.succ_pos _
    · refine (ih.sublist List.erase_sublist).imp_of_mem fun ha hb hlt => ?_
      rw [age_concat (hne _ ha), age_concat (hne _ hb)]
      exact Nat.succ_lt_succ hlt

/-- The cache holds the `n` keys added latest. -/
def HoldsRecent (ks : List κ) (t : Slots n κ ν) : Prop := (keys t).Perm ((recent ks).take n)

theorem HoldsRecent.mem_iff {ks : List κ} {t : Slots n κ ν} (h : HoldsRecent ks t) {k : κ} :
    k ∈ keys t ↔ k ∈ (recent ks).take n := List.Perm.mem_iff h

theorem take_erase_of_notMem {l : List κ} {k : κ} {m : Nat} (h : k ∉ l.take m) :
    (l.erase k).take m = l.take m := by
  induction l generalizing m with
  | nil => rfl
  | cons a l ih =>
    cases m with
    | zero => rfl
    | succ m =>
      rw [List.take_succ_cons, List.mem_cons, not_or] at h
      rw [List.erase_cons_tail (by simpa using Ne.symm h.1), List.take_succ_cons,
        List.take_succ_cons, ih h.2]

theorem take_erase_of_mem {l : List κ} {k : κ} {m : Nat} (h : k ∈ l.take (m + 1)) :
    (l.erase k).take m = (l.take (m + 1)).erase k := by
  induction l generalizing m with
  | nil => exact absurd h List.not_mem_nil
  | cons a l ih =>
    by_cases hak : a = k
    · subst hak
      rw [List.erase_cons_head, List.take_succ_cons, List.erase_cons_head]
    · rw [List.take_succ_cons, List.mem_cons] at h
      rw [List.erase_cons_tail (by simpa using hak), List.take_succ_cons,
        List.erase_cons_tail (by simpa using hak)]
      cases m with
      | zero => simp [Ne.symm hak] at h
      | succ m => rw [List.take_succ_cons, ih (h.resolve_left (Ne.symm hak))]

/-- In a full cache of the keys added latest, an entry is the oldest when its key is the last of
them. -/
theorem HoldsRecent.oldest_iff {ks : List κ} {t : Slots n κ ν} (h : HoldsRecent ks t)
    (hu : UniqueNames t) (hfull : ∀ j, t j ≠ none) {i : Fin n} {e : κ} {w : ν}
    (hi : t i = some (e, w)) :
    (∀ j, j ≠ i → ∀ a v, t j = some (a, v) → age ks a < age ks e) ↔
      (recent ks)[n - 1]? = some e := by
  obtain ⟨m, rfl⟩ : ∃ m, n = m + 1 := ⟨n - 1, by have := i.isLt; omega⟩
  have hlen : m < (recent ks).length := by
    have := h.length_eq
    rw [length_keys_of_full hfull, List.length_take] at this
    omega
  have htake : (recent ks).take (m + 1) = (recent ks).take m ++ [(recent ks)[m]] :=
    List.take_succ_eq_append_getElem hlen
  have hsorted := (sorted_recent ks).sublist (List.take_sublist (m + 1) _)
  rw [htake] at hsorted
  have hbefore := (List.pairwise_append.mp hsorted).2.2
  have hmem : ∀ a, a ∈ keys t ↔ a ∈ (recent ks).take m ∨ a = (recent ks)[m] := fun a => by
    rw [h.mem_iff, htake, List.mem_append, List.mem_singleton]
  rw [Nat.add_sub_cancel, List.getElem?_eq_getElem hlen, Option.some_inj]
  constructor
  · intro hage
    by_contra hne
    obtain ⟨j, v, hj⟩ := mem_keys.mp ((hmem (recent ks)[m]).mpr (.inr rfl))
    have hji : j ≠ i := by
      rintro rfl
      rw [hi] at hj
      cases hj
      exact hne rfl
    have he := ((hmem e).mp (mem_keys.mpr ⟨i, w, hi⟩)).resolve_right (Ne.symm hne)
    have hlt := hbefore e he _ (List.mem_singleton_self _)
    have hgt := hage j hji _ v hj
    omega
  · rintro heq j hji a v hj
    have hae : a ≠ (recent ks)[m] := fun hae => hji (hu j i a v w hj (by rw [hi, hae, heq]))
    have ha := ((hmem a).mp (mem_keys.mpr ⟨j, v, hj⟩)).resolve_right hae
    rw [← heq]
    exact hbefore a ha _ (List.mem_singleton_self _)

/-- **A cache that evicts its oldest entry goes on to hold the keys added latest.** -/
theorem HoldsRecent.write {ks : List κ} {t : Slots n κ ν} (h : HoldsRecent ks t) (hf : Filled t)
    (hu : UniqueNames t) {k : κ} {i : Fin n} (hp : Place t k i) (v : ν)
    (hold : (∀ j, t j ≠ none) → k ∉ keys t →
      ∃ e w, t i = some (e, w) ∧ (recent ks)[n - 1]? = some e) :
    HoldsRecent (ks ++ [k]) (Function.update t i (some (k, v))) := by
  obtain ⟨m, rfl⟩ : ∃ m, n = m + 1 := ⟨n - 1, by have := i.isLt; omega⟩
  have hnodup := (nodup_recent ks).sublist (List.take_sublist (m + 1) _)
  refine (List.perm_ext_iff_of_nodup (nodup_keys (unique_write hf hu hp v))
    ((nodup_recent _).sublist (List.take_sublist _ _))).mpr fun a => ?_
  rw [recent_concat, List.take_succ_cons, List.mem_cons]
  by_cases hak : a = k
  · exact iff_of_true (mem_keys_write.mpr (.inl hak)) (.inl hak)
  rw [or_iff_right hak, mem_keys_write_of_ne hu hak, h.mem_iff]
  have hkept := hp.kept_or_full hak
  cases hp with
  | update hk =>
    have hkey : k ∈ keys t := mem_keys.mpr ⟨i, _, hk⟩
    rw [and_iff_left (hkept.resolve_right fun hfull => hfull.2 hkey),
      take_erase_of_mem (h.mem_iff.mp hkey), hnodup.mem_erase_iff, and_iff_right hak]
  | append hnone _ =>
    have hall : (recent ks).length ≤ m := by
      have := h.length_eq.symm.trans_lt (length_keys_lt hnone)
      rw [List.length_take] at this
      omega
    rw [and_iff_left (hkept.resolve_right fun hfull => hfull.1 i hnone),
      List.take_of_length_le (List.length_erase_le.trans hall),
      List.take_of_length_le (Nat.le_succ_of_le hall), (nodup_recent ks).mem_erase_iff,
      and_iff_right hak]
  | evict hfull hnot =>
    have hkn : k ∉ keys t := fun hk => by
      obtain ⟨j, w, hj⟩ := mem_keys.mp hk
      exact hnot j w hj
    obtain ⟨e, w, hi, he⟩ := hold hfull hkn
    rw [Nat.add_sub_cancel] at he
    have htake : (recent ks).take (m + 1) = (recent ks).take m ++ [e] := by
      rw [List.take_add_one, he]
      rfl
    have hkm : k ∉ (recent ks).take m := fun hk =>
      hkn (h.mem_iff.mpr (by rw [htake]; exact List.mem_append_left _ hk))
    rw [htake, List.nodup_append] at hnodup
    have hem : e ∉ (recent ks).take m := fun hmem =>
      hnodup.2.2 e hmem e (List.mem_singleton_self e) rfl
    -- the entry written over is that of `e`
    have hgone : (∀ x, t i ≠ some (a, x)) ↔ a ≠ e := by
      rw [hi]
      simp [eq_comm]
    rw [take_erase_of_notMem hkm, htake, List.mem_append, List.mem_singleton, hgone]
    constructor
    · rintro ⟨hmem, hae⟩
      exact hmem.resolve_right hae
    · exact fun ha => ⟨.inl ha, fun hae => hem (hae ▸ ha)⟩

end Cache
