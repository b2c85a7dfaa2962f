import EphemeralOS.Lib.Cache
import EphemeralOS.Net.Arp
import EphemeralOS.Net.Calls

/-!
# The ARP cache as a map

The valid entries are a `Cache`: `arp_add_entry` writes where a cache may write
(`arpSlot_place`), so after any additions the cache is a map
(`holds_afterArpCalls`). Nothing advances `arp_timer`, so all timestamps are
equal and the entry that is replaced is the first one, however old it is
(`arpSlot_full`). It is the oldest exactly in the runs of `evictsOldest_iff`.
-/

namespace EphemeralOS

open Directory (Slots UniqueNames find)

def ArpEntry.slot (e : ArpEntry) : Option (UInt32 × Mac) :=
  if e.valid then some (e.ip, e.mac) else none

theorem ArpEntry.slot_eq_none_iff {e : ArpEntry} : e.slot = none ↔ e.valid = false := by
  rw [slot]
  cases e.valid <;> simp

theorem ArpEntry.slot_eq_some_iff {e : ArpEntry} {ip : UInt32} {mac : Mac} :
    e.slot = some (ip, mac) ↔ e.For ip ∧ e.mac = mac := by
  rw [slot, For]
  cases e.valid <;> simp

theorem ArpEntry.slot_of_valid {e : ArpEntry} (h : e.valid = true) : e.slot = some (e.ip, e.mac) :=
  if_pos h

def NetState.arpTable (s : NetState) : Slots 32 UInt32 Mac := fun i => (s.arpCache i).slot

theorem arpResolve_eq_find (ip : UInt32) (s : NetState) : arpResolve ip s = find s.arpTable ip := by
  cases hf : find s.arpTable ip with
  | none =>
    have hnone := Directory.find_eq_none_iff.mp hf
    rw [arpResolve, List.find?_eq_none.mpr fun i _ hi => ?_]
    · rfl
    · exact hnone i _ (ArpEntry.slot_eq_some_iff.mpr ⟨of_decide_eq_true hi, rfl⟩)
  | some mac =>
    obtain ⟨i, hi, hbefore⟩ := Directory.find_eq_some_iff.mp hf
    obtain ⟨hfor, rfl⟩ := ArpEntry.slot_eq_some_iff.mp hi
    exact arpResolve_first hfor fun j hj hjfor =>
      hbefore j hj _ (ArpEntry.slot_eq_some_iff.mpr ⟨hjfor, rfl⟩)

/-! ## The entry that is written -/

theorem arpSlot_cons (cache : Fin 32 → ArpEntry) (ip : UInt32) (i : Fin 32) (is : List (Fin 32))
    (oldestIndex : Fin 32) (oldestTime : UInt32) :
    arpSlot cache ip (i :: is) oldestIndex oldestTime =
      if (cache i).For ip then i
      else if ¬ (cache i).valid then i
      else if (cache i).timestamp < oldestTime then arpSlot cache ip is i (cache i).timestamp
      else arpSlot cache ip is oldestIndex oldestTime := rfl

/-- The loop of `arp_add_entry` stops at the first entry that is for the address or not valid. -/
theorem arpSlot_cases (cache : Fin 32 → ArpEntry) (ip : UInt32) {is : List (Fin 32)}
    (his : is.Pairwise (· < ·)) (oldestIndex : Fin 32) (oldestTime : UInt32) :
    (∃ i ∈ is, arpSlot cache ip is oldestIndex oldestTime = i ∧
      ((cache i).For ip ∨ (cache i).valid = false) ∧
      ∀ j ∈ is, j < i → (cache j).valid = true ∧ ¬ (cache j).For ip) ∨
    ∀ j ∈ is, (cache j).valid = true ∧ ¬ (cache j).For ip := by
  induction is generalizing oldestIndex oldestTime with
  | nil => exact .inr fun j hj => absurd hj List.not_mem_nil
  | cons i is ih =>
    obtain ⟨hlt, hpair⟩ := List.pairwise_cons.mp his
    have hfirst : ∀ j ∈ i :: is, j < i → (cache j).valid = true ∧ ¬ (cache j).For ip := by
      intro j hj hji
      rcases List.mem_cons.mp hj with rfl | hj
      · exact absurd hji (Fin.lt_irrefl _)
      · exact absurd (hlt j hj) (Fin.lt_asymm hji)
    by_cases hfor : (cache i).For ip
    · exact .inl ⟨i, List.mem_cons_self, by rw [arpSlot_cons, if_pos hfor], .inl hfor, hfirst⟩
    cases hvalid : (cache i).valid with
    | false =>
      refine .inl ⟨i, List.mem_cons_self, ?_, .inr hvalid, hfirst⟩
      rw [arpSlot_cons, if_neg hfor, if_pos (by rw [hvalid]; exact Bool.false_ne_true)]
    | true =>
      -- the loop goes on, with one of two candidates
      have hgo : ∃ o t,
          arpSlot cache ip (i :: is) oldestIndex oldestTime = arpSlot cache ip is o t := by
        rw [arpSlot_cons, if_neg hfor, if_neg (not_not_intro hvalid)]
        split
        · exact ⟨_, _, rfl⟩
        · exact ⟨_, _, rfl⟩
      obtain ⟨o, t, hgo⟩ := hgo
      have hcons : ∀ {P : Fin 32 → Prop}, P i → (∀ j ∈ is, P j) → ∀ j ∈ i :: is, P j :=
        fun hi his j hj => (List.mem_cons.mp hj).elim (fun h => h ▸ hi) (his j)
      rw [hgo]
      rcases ih hpair o t with ⟨k, hk, heq, hstop, hbefore⟩ | hall
      · exact .inl ⟨k, List.mem_cons_of_mem _ hk, heq, hstop,
          hcons (fun _ => ⟨hvalid, hfor⟩) hbefore⟩
      · exact .inr (hcons ⟨hvalid, hfor⟩ hall)

/-- The entry that `arp_add_entry` writes. -/
def arpPlace (ip : UInt32) (s : NetState) : Fin 32 :=
  arpSlot s.arpCache ip (List.finRange 32) 0 0xFFFFFFFF

theorem arpAddEntry_arpCache (ip : UInt32) (mac : Mac) (s : NetState) :
    (arpAddEntry ip mac s).arpCache =
      Function.update s.arpCache (arpPlace ip s) ⟨ip, mac, s.arpTimer, true⟩ := rfl

theorem arpTable_arpAddEntry (ip : UInt32) (mac : Mac) (s : NetState) :
    (arpAddEntry ip mac s).arpTable =
      Function.update s.arpTable (arpPlace ip s) (some (ip, mac)) := by
  funext i
  rw [NetState.arpTable, arpAddEntry_arpCache]
  by_cases hi : i = arpPlace ip s
  · rw [hi, Function.update_self, Function.update_self]
    rfl
  · rw [Function.update_of_ne hi, Function.update_of_ne hi]
    rfl

/-- **`arp_add_entry` writes where a cache may write.** -/
theorem arpPlace_place (ip : UInt32) (s : NetState) :
    Cache.Place s.arpTable ip (arpPlace ip s) := by
  have hother : ∀ {j : Fin 32}, (s.arpCache j).valid = true ∧ ¬ (s.arpCache j).For ip →
      s.arpTable j ≠ none ∧ ∀ mac, s.arpTable j ≠ some (ip, mac) := fun hj =>
    ⟨fun hnone => Bool.false_ne_true ((ArpEntry.slot_eq_none_iff.mp hnone).symm.trans hj.1),
      fun mac hmac => hj.2 (ArpEntry.slot_eq_some_iff.mp hmac).1⟩
  rcases arpSlot_cases s.arpCache ip (List.pairwise_lt_finRange 32) 0 0xFFFFFFFF
    with ⟨i, _, heq, hstop, hbefore⟩ | hall
  · rw [arpPlace, heq]
    rcases hstop with hfor | hinvalid
    · exact .update (ArpEntry.slot_eq_some_iff.mpr ⟨hfor, rfl⟩)
    · exact .append (ArpEntry.slot_eq_none_iff.mpr hinvalid) fun j hj =>
        hother (hbefore j (List.mem_finRange j) hj)
  · exact .evict (fun j => (hother (hall j (List.mem_finRange j))).1)
      fun j => (hother (hall j (List.mem_finRange j))).2

/-! ## Calls -/

inductive ArpCall
  | addEntry (ip : UInt32) (mac : Mac)
  | receive (data : Memory) (length : UInt16)

def ArpCall.apply : ArpCall → NetState → NetState
  | .addEntry ip mac => arpAddEntry ip mac
  | .receive data length => arpReceive data length

def ArpCall.added : ArpCall → Option (UInt32 × Mac)
  | .addEntry ip mac => some (ip, mac)
  | .receive data length =>
    let arp := arpPacketLayout.dec (data.bytes 0 28)
    if length < 28 ∨ ntohs arp.htype ≠ arpHtypeEthernet ∨ ntohs arp.ptype ≠ arpPtypeIpv4 then none
    else some (ntohl arp.spa, arp.sha)

/-- The state after `arp_init` and the calls. -/
def afterArpCalls (calls : List ArpCall) (s : NetState) : NetState :=
  calls.foldl (fun s c => c.apply s) (arpInit s)

def arpAdditions (calls : List ArpCall) : List (UInt32 × Mac) := calls.filterMap ArpCall.added

theorem arpTable_ethSendFrame (destMac : Mac) (ethType : UInt16) (data : List UInt8)
    (s : NetState) : (ethSendFrame destMac ethType data s).arpTable = s.arpTable := by
  simp only [ethSendFrame, networkSendPacket]
  split
  · rfl
  · split
    · rfl
    · rfl

/-- A call makes its addition and leaves the rest of the cache alone. -/
theorem arpTable_apply (c : ArpCall) (s : NetState) : (c.apply s).arpTable =
    match c.added with
    | some (ip, mac) => (arpAddEntry ip mac s).arpTable
    | none => s.arpTable := by
  cases c with
  | addEntry ip mac => rfl
  | receive data length =>
    simp only [ArpCall.apply, arpReceive, ArpCall.added]
    by_cases hlen : length < 28
    · rw [if_pos hlen, if_pos (.inl hlen)]
    rw [if_neg hlen]
    generalize arpPacketLayout.dec (data.bytes 0 28) = arp
    by_cases hform : ntohs arp.htype ≠ arpHtypeEthernet ∨ ntohs arp.ptype ≠ arpPtypeIpv4
    · rw [if_pos hform, if_pos (.inr hform)]
    rw [if_neg hform, if_neg (not_or_intro hlen hform)]
    split
    · exact arpTable_ethSendFrame _ _ _ _
    · rfl

theorem afterArpCalls_concat (calls : List ArpCall) (c : ArpCall) (s : NetState) :
    afterArpCalls (calls ++ [c]) s = c.apply (afterArpCalls calls s) := List.foldl_concat ..

theorem holds_afterArpCalls (s : NetState) (calls : List ArpCall) :
    Cache.Holds (arpAdditions calls) (afterArpCalls calls s).arpTable := by
  induction calls using List.reverseRecOn with
  | nil => exact .empty
  | append_singleton calls c ih =>
    rw [afterArpCalls_concat, arpTable_apply, arpAdditions, List.filterMap_append]
    cases hc : c.added with
    | none => rwa [List.filterMap_cons_none hc, List.filterMap_nil, List.append_nil]
    | some a =>
      obtain ⟨ip, mac⟩ := a
      rw [List.filterMap_cons_some hc, List.filterMap_nil]
      change Cache.Holds _ (arpAddEntry ip mac _).arpTable
      rw [arpTable_arpAddEntry]
      exact ih.write (arpPlace_place ip _) mac

theorem arpTable_eq_some_of_valid {s : NetState} {i : Fin 32} (h : (s.arpCache i).valid = true) :
    s.arpTable i = some ((s.arpCache i).ip, (s.arpCache i).mac) := ArpEntry.slot_of_valid h

theorem arpTable_ne_none_iff {s : NetState} {i : Fin 32} :
    s.arpTable i ≠ none ↔ (s.arpCache i).valid = true := by
  rw [ne_eq, NetState.arpTable, ArpEntry.slot_eq_none_iff, Bool.not_eq_false]

theorem arpResolve_last {calls : List ArpCall} {ip : UInt32} {mac : Mac} (s : NetState)
    (h : (arpAdditions calls).getLast? = some (ip, mac)) :
    arpResolve ip (afterArpCalls calls s) = some mac := by
  induction calls using List.reverseRecOn with
  | nil => cases h
  | append_singleton calls c ih =>
    rw [arpAdditions, List.filterMap_append] at h
    rw [afterArpCalls_concat, arpResolve_eq_find, arpTable_apply]
    cases hc : c.added with
    | none =>
      rw [List.filterMap_cons_none hc, List.filterMap_nil, List.append_nil] at h
      rw [← arpResolve_eq_find]
      exact ih h
    | some a =>
      rw [List.filterMap_cons_some hc, List.filterMap_nil, List.getLast?_concat] at h
      cases h
      exact (arpResolve_eq_find ip _).symm.trans (arpResolve_arpAddEntry ip mac _)

/-- **The ARP cache is a map.** -/
theorem arpCache_map (s : NetState) (calls : List ArpCall) :
    let t := afterArpCalls calls s
    (∀ i j, j < i → (t.arpCache i).valid = true → (t.arpCache j).valid = true) ∧
    (∀ i j, (t.arpCache i).valid = true → (t.arpCache j).valid = true →
      (t.arpCache i).ip = (t.arpCache j).ip → i = j) ∧
    (∀ ip mac, (arpAdditions calls).getLast? = some (ip, mac) → arpResolve ip t = some mac) ∧
    (∀ ip mac, arpResolve ip t = some mac → Cache.latest (arpAdditions calls) ip = some mac) ∧
    ((Cache.added (arpAdditions calls)).dedup.length ≤ 32 →
      ∀ ip, (arpResolve ip t).isSome ↔ ip ∈ Cache.added (arpAdditions calls)) := by
  have h := holds_afterArpCalls s calls
  refine ⟨fun i j hji hi => ?_, fun i j hi hj hip => ?_, fun ip mac => arpResolve_last s,
    fun ip mac hf => ?_, fun hlen ip => ?_⟩
  · exact arpTable_ne_none_iff.mp (h.filled i j hji (arpTable_ne_none_iff.mpr hi))
  · exact h.unique i j _ _ _ (arpTable_eq_some_of_valid hi)
      (by rw [arpTable_eq_some_of_valid hj, hip])
  · exact h.find_latest ((arpResolve_eq_find ip _).symm.trans hf)
  · rw [Option.isSome_iff_ne_none, arpResolve_eq_find]
    exact h.find_ne_none_iff hlen ip

/-! ## Eviction -/

/-- The state after `arp_init` and calls of `arp_add_entry`. -/
def arpAdded (adds : List (UInt32 × Mac)) (s : NetState) : NetState :=
  adds.foldl (fun s a => arpAddEntry a.1 a.2 s) (arpInit s)

/-- When an address that is not in the cache is added to a full one, the entry that is replaced is
the one that was added the longest ago. -/
def EvictsOldest (s : NetState) (adds : List (UInt32 × Mac)) (ip : UInt32) (mac : Mac) : Prop :=
  (∀ j, ((arpAdded adds s).arpCache j).valid = true ∧ ((arpAdded adds s).arpCache j).ip ≠ ip) →
  ∀ i, (arpAddEntry ip mac (arpAdded adds s)).arpCache i ≠ (arpAdded adds s).arpCache i →
    ∀ j, j ≠ i → Cache.age (Cache.added adds) ((arpAdded adds s).arpCache j).ip <
      Cache.age (Cache.added adds) ((arpAdded adds s).arpCache i).ip

/-- The 32 addresses added latest are found. -/
def LatestHit (s : NetState) (adds : List (UInt32 × Mac)) : Prop :=
  ∀ ip ∈ (Cache.recent (Cache.added adds)).take 32, (arpResolve ip (arpAdded adds s)).isSome

/-- An address that is not among the 32 added latest, when there are 32. -/
def Evicting (ips : List UInt32) (ip : UInt32) : Prop :=
  32 ≤ (Cache.recent ips).length ∧ ip ∉ (Cache.recent ips).take 32

instance (ips : List UInt32) (ip : UInt32) : Decidable (Evicting ips ip) :=
  inferInstanceAs (Decidable (_ ∧ _))

/-- One more address for `front`, with the addresses before it. -/
def frontStep (p : List UInt32 × Option UInt32) (ip : UInt32) : List UInt32 × Option UInt32 :=
  (p.1 ++ [ip], if p.1 = [] ∨ Evicting p.1 ip then some ip else p.2)

/-- The first address, or the last one since that was not among the 32 added latest. -/
def front (ips : List UInt32) : Option UInt32 := (ips.foldl frontStep ([], none)).2

/-- Whenever an address comes that is not among the 32 added latest, `front` is the one of these
that was added the longest ago. -/
def FrontOldest (ips : List UInt32) : Prop :=
  ∀ pre ip post, ips = pre ++ ip :: post → Evicting pre ip →
    (Cache.recent pre)[31]? = front pre

theorem front_concat (ips : List UInt32) (ip : UInt32) :
    front (ips ++ [ip]) = if ips = [] ∨ Evicting ips ip then some ip else front ips := by
  have hfst : ∀ ks : List UInt32, (ks.foldl frontStep ([], none)).1 = ks := fun ks => by
    induction ks using List.reverseRecOn with
    | nil => rfl
    | append_singleton ks k ih => rw [List.foldl_concat, frontStep, ih]
  rw [front, List.foldl_concat, frontStep, hfst]
  rfl

/-- A property of the steps of a run, with one more step. -/
theorem steps_concat {α : Type} {P : List α → α → Prop} {as : List α} {a : α} :
    (∀ pre b post, as ++ [a] = pre ++ b :: post → P pre b) ↔
      (∀ pre b post, as = pre ++ b :: post → P pre b) ∧ P as a := by
  constructor
  · refine fun h => ⟨fun pre b post heq => h pre b (post ++ [a]) ?_, h as a [] rfl⟩
    rw [heq, List.append_assoc, List.cons_append]
  · rintro ⟨h, ha⟩ pre b post heq
    induction post using List.reverseRecOn with
    | nil =>
      obtain ⟨rfl, hb⟩ := List.append_inj' heq rfl
      cases hb
      exact ha
    | append_singleton post c _ =>
      rw [← List.cons_append, ← List.append_assoc] at heq
      exact h pre b post (List.append_inj' heq rfl).1

theorem arpAdded_concat (adds : List (UInt32 × Mac)) (ip : UInt32) (mac : Mac) (s : NetState) :
    arpAdded (adds ++ [(ip, mac)]) s = arpAddEntry ip mac (arpAdded adds s) := List.foldl_concat ..

theorem holds_arpAdded (s : NetState) (adds : List (UInt32 × Mac)) :
    Cache.Holds adds (arpAdded adds s).arpTable := by
  induction adds using List.reverseRecOn with
  | nil => exact .empty
  | append_singleton adds a ih =>
    obtain ⟨ip, mac⟩ := a
    rw [arpAdded_concat, arpTable_arpAddEntry]
    exact ih.write (arpPlace_place ip _) mac

/-- `arp_add_entry` does not advance `arp_timer`, and all it writes is stamped 0. -/
theorem arpTimer_arpAdded (s : NetState) (adds : List (UInt32 × Mac)) :
    (arpAdded adds s).arpTimer = 0 ∧ ∀ i, ((arpAdded adds s).arpCache i).valid = true →
      ((arpAdded adds s).arpCache i).timestamp = 0 := by
  induction adds using List.reverseRecOn with
  | nil => exact ⟨rfl, fun _ h => nomatch h⟩
  | append_singleton adds a ih =>
    obtain ⟨ip, mac⟩ := a
    rw [arpAdded_concat]
    refine ⟨ih.1, fun i => ?_⟩
    rw [arpAddEntry_arpCache]
    by_cases hi : i = arpPlace ip (arpAdded adds s)
    · rw [hi, Function.update_self]
      exact fun _ => ih.1
    · rw [Function.update_of_ne hi]
      exact ih.2 i

/-- In a full cache no timestamp is smaller than the first. -/
theorem arpSlot_full {cache : Fin 32 → ArpEntry} {ip : UInt32} {is : List (Fin 32)}
    {oldestIndex : Fin 32} (h : ∀ i ∈ is, (cache i).valid = true ∧ ¬ (cache i).For ip)
    (htime : ∀ i ∈ is, (cache i).timestamp = 0) :
    arpSlot cache ip is oldestIndex 0 = oldestIndex := by
  induction is with
  | nil => rfl
  | cons i is ih =>
    obtain ⟨hvalid, hfor⟩ := h i List.mem_cons_self
    rw [arpSlot_cons, if_neg hfor, if_neg (not_not_intro hvalid), htime i List.mem_cons_self,
      if_neg (UInt32.lt_irrefl 0)]
    exact ih (fun j hj => h j (List.mem_cons_of_mem _ hj))
      fun j hj => htime j (List.mem_cons_of_mem _ hj)

/-- **The entry evicted is the first.** -/
theorem arpPlace_full {s : NetState} {ip : UInt32}
    (h : ∀ i, (s.arpCache i).valid = true ∧ ¬ (s.arpCache i).For ip)
    (htime : ∀ i, (s.arpCache i).valid = true → (s.arpCache i).timestamp = 0) :
    arpPlace ip s = 0 := by
  have hfirst : List.finRange 32 = 0 :: (List.finRange 31).map Fin.succ := List.finRange_succ
  rw [arpPlace, hfirst, arpSlot_cons, if_neg (h 0).2, if_neg (not_not_intro (h 0).1),
    htime 0 (h 0).1, if_pos (by decide)]
  exact arpSlot_full (fun i _ => h i) fun i _ => htime i (h i).1

/-- The cache holds the 32 addresses added latest, `front` in its first entry. -/
structure FrontFirst (s : NetState) (adds : List (UInt32 × Mac)) : Prop where
  recent : Cache.HoldsRecent (Cache.added adds) (arpAdded adds s).arpTable
  first : ((arpAdded adds s).arpTable 0).map Prod.fst = front (Cache.added adds)

theorem FrontFirst.start (s : NetState) : FrontFirst s [] where
  recent := .refl _
  first := rfl

section Step

variable {s : NetState} {adds : List (UInt32 × Mac)} (h : FrontFirst s adds) (ip : UInt32)

include h

theorem FrontFirst.evicting_iff :
    (∀ j, ((arpAdded adds s).arpCache j).valid = true ∧ ((arpAdded adds s).arpCache j).ip ≠ ip) ↔
      Evicting (Cache.added adds) ip := by
  have hlen := h.recent.length_eq
  rw [List.length_take] at hlen
  rw [Evicting, ← h.recent.mem_iff, Cache.mem_keys]
  constructor
  · intro hall
    rw [Cache.length_keys_of_full fun j => arpTable_ne_none_iff.mpr (hall j).1] at hlen
    refine ⟨by omega, fun ⟨j, mac, hj⟩ => ?_⟩
    exact (hall j).2 (ArpEntry.slot_eq_some_iff.mp hj).1.2
  · rintro ⟨hfull, hnot⟩ j
    have hvalid : ((arpAdded adds s).arpCache j).valid = true := by
      by_contra hj
      have := Cache.length_keys_lt (not_not.mp (mt arpTable_ne_none_iff.mp hj))
      omega
    refine ⟨hvalid, fun hip => hnot ⟨j, ((arpAdded adds s).arpCache j).mac, ?_⟩⟩
    rw [← hip]
    exact arpTable_eq_some_of_valid hvalid

theorem FrontFirst.place (hev : Evicting (Cache.added adds) ip) :
    arpPlace ip (arpAdded adds s) = 0 :=
  have hall := (h.evicting_iff ip).mpr hev
  arpPlace_full (fun i => ⟨(hall i).1, fun hfor => (hall i).2 hfor.2⟩) (arpTimer_arpAdded s adds).2

theorem FrontFirst.evictsOldest_iff (mac : Mac) : EvictsOldest s adds ip mac ↔
    (Evicting (Cache.added adds) ip →
      (Cache.recent (Cache.added adds))[31]? = front (Cache.added adds)) := by
  rw [EvictsOldest, h.evicting_iff]
  refine imp_congr_right fun hev => ?_
  have hall := (h.evicting_iff ip).mpr hev
  have hfirst := arpTable_eq_some_of_valid (hall 0).1
  have hchanged : ∀ i, (arpAddEntry ip mac (arpAdded adds s)).arpCache i ≠
      (arpAdded adds s).arpCache i ↔ i = 0 := by
    intro i
    rw [arpAddEntry_arpCache, h.place ip hev]
    constructor
    · intro hne
      by_contra hi
      exact hne (Function.update_of_ne hi ..)
    · rintro rfl heq
      rw [Function.update_self] at heq
      exact (hall 0).2 (congrArg ArpEntry.ip heq).symm
  have holdest := h.recent.oldest_iff (holds_arpAdded s adds).unique
    (fun j => arpTable_ne_none_iff.mpr (hall j).1) hfirst
  rw [← h.first, hfirst, Option.map_some, ← holdest]
  constructor
  · intro hage j hj ip' mac' hslot
    rw [← (ArpEntry.slot_eq_some_iff.mp hslot).1.2]
    exact hage 0 ((hchanged 0).mpr rfl) j hj
  · intro hage i hi j hj
    obtain rfl := (hchanged i).mp hi
    exact hage j hj _ _ (arpTable_eq_some_of_valid (hall j).1)

omit ip in
/-- Once something has been added, the first entry is not empty. -/
theorem FrontFirst.first_ne_none (hadds : Cache.added adds ≠ []) :
    (arpAdded adds s).arpTable 0 ≠ none := by
  intro hnone
  obtain ⟨ip, hip⟩ := List.exists_mem_of_ne_nil _ hadds
  have hempty : Cache.keys (arpAdded adds s).arpTable = [] := by
    refine List.eq_nil_iff_forall_not_mem.mpr fun k hk => ?_
    obtain ⟨i, v, hi⟩ := Cache.mem_keys.mp hk
    rw [(holds_arpAdded s adds).filled.none_after hnone (Fin.zero_le i)] at hi
    cases hi
  have hlen := h.recent.length_eq
  have hpos := List.length_pos_of_mem (Cache.mem_recent.mpr hip)
  rw [hempty, List.length_take, List.length_nil] at hlen
  omega

theorem FrontFirst.first_write (mac : Mac) :
    ((arpAdded (adds ++ [(ip, mac)]) s).arpTable 0).map Prod.fst =
      front (Cache.added adds ++ [ip]) := by
  have hold := holds_arpAdded s adds
  have hev := h.evicting_iff ip
  rw [front_concat, arpAdded_concat, arpTable_arpAddEntry]
  have hadded : ∀ {i ip' mac'}, (arpAdded adds s).arpTable i = some (ip', mac') →
      Cache.added adds ≠ [] := fun hslot =>
    List.ne_nil_of_mem (hold.was_added _ (Cache.mem_keys.mpr ⟨_, _, hslot⟩))
  cases arpPlace_place ip (arpAdded adds s) with
  | update hk =>
    have hnot : ¬ Evicting (Cache.added adds) ip := fun hevict =>
      (hev.mpr hevict _).2 (ArpEntry.slot_eq_some_iff.mp hk).1.2
    rw [if_neg (not_or_intro (hadded hk) hnot), ← h.first]
    by_cases hzero : 0 = arpPlace ip (arpAdded adds s)
    · rw [← hzero] at hk ⊢
      rw [Function.update_self, hk]
      rfl
    · rw [Function.update_of_ne hzero]
  | append hnone hbefore =>
    have hnot : ¬ Evicting (Cache.added adds) ip := fun hevict =>
      arpTable_ne_none_iff.mpr (hev.mpr hevict _).1 hnone
    by_cases hzero : 0 = arpPlace ip (arpAdded adds s)
    · -- nothing has been added
      have hnil : Cache.added adds = [] := by
        by_contra hadds
        exact h.first_ne_none hadds (hzero ▸ hnone)
      rw [if_pos (.inl hnil), ← hzero, Function.update_self]
      rfl
    · obtain ⟨⟨ip', mac'⟩, hslot⟩ := Option.ne_none_iff_exists'.mp
        (hbefore 0 (Fin.pos_of_ne_zero (Ne.symm hzero))).1
      rw [if_neg (not_or_intro (hadded hslot) hnot), ← h.first, Function.update_of_ne hzero]
  | evict hfull hnot =>
    have hevict : Evicting (Cache.added adds) ip := hev.mp fun j =>
      ⟨arpTable_ne_none_iff.mp (hfull j), fun hip => hnot j ((arpAdded adds s).arpCache j).mac (by
        rw [← hip]
        exact arpTable_eq_some_of_valid (arpTable_ne_none_iff.mp (hfull j)))⟩
    rw [if_pos (.inr hevict), h.place ip hevict, Function.update_self]
    rfl

/-- **While the first entry is the oldest whenever one is evicted, the cache holds the addresses
added latest.** -/
theorem FrontFirst.next (mac : Mac) (hold : Evicting (Cache.added adds) ip →
      (Cache.recent (Cache.added adds))[31]? = front (Cache.added adds)) :
    FrontFirst s (adds ++ [(ip, mac)]) where
  recent := by
    have hholds := holds_arpAdded s adds
    rw [arpAdded_concat, arpTable_arpAddEntry, Cache.added_concat]
    refine h.recent.write hholds.filled hholds.unique (arpPlace_place ip _) mac fun hfull hkey => ?_
    have hvalid := fun j => arpTable_ne_none_iff.mp (hfull j)
    have hev : Evicting (Cache.added adds) ip := (h.evicting_iff ip).mp fun j =>
      ⟨hvalid j, fun hip => hkey (Cache.mem_keys.mpr ⟨j, ((arpAdded adds s).arpCache j).mac, by
        rw [← hip]
        exact arpTable_eq_some_of_valid (hvalid j)⟩)⟩
    rw [h.place ip hev]
    refine ⟨_, _, arpTable_eq_some_of_valid (hvalid 0), (hold hev).trans ?_⟩
    rw [← h.first, arpTable_eq_some_of_valid (hvalid 0)]
    rfl
  first := by
    rw [Cache.added_concat]
    exact h.first_write ip mac

end Step

theorem frontOldest_concat {adds : List (UInt32 × Mac)} {ip : UInt32} {mac : Mac} :
    FrontOldest (Cache.added (adds ++ [(ip, mac)])) ↔ FrontOldest (Cache.added adds) ∧
      (Evicting (Cache.added adds) ip →
        (Cache.recent (Cache.added adds))[31]? = front (Cache.added adds)) := by
  rw [Cache.added_concat]
  exact steps_concat

theorem FrontOldest.frontFirst (s : NetState) {adds : List (UInt32 × Mac)}
    (h : FrontOldest (Cache.added adds)) : FrontFirst s adds := by
  induction adds using List.reverseRecOn with
  | nil => exact .start s
  | append_singleton adds a ih =>
    obtain ⟨ip, mac⟩ := a
    obtain ⟨hadds, hlast⟩ := frontOldest_concat.mp h
    exact (ih hadds).next ip mac hlast

/-- Every eviction of a run is one of the oldest entry exactly if the condition holds of the run. -/
theorem evictsOldest_run_iff (s : NetState) (adds : List (UInt32 × Mac)) :
    (∀ pre a post, adds = pre ++ a :: post → EvictsOldest s pre a.1 a.2) ↔
      FrontOldest (Cache.added adds) := by
  induction adds using List.reverseRecOn with
  | nil =>
    exact ⟨fun _ pre _ post h => absurd (congrArg List.length h) (by simp [Cache.added]),
      fun _ pre _ post h => absurd (congrArg List.length h) (by simp)⟩
  | append_singleton adds a ih =>
    obtain ⟨ip, mac⟩ := a
    rw [steps_concat, ih, frontOldest_concat]
    exact and_congr_right fun h => (h.frontFirst s).evictsOldest_iff ip mac

theorem FrontFirst.latestHit {s : NetState} {adds : List (UInt32 × Mac)} (h : FrontFirst s adds) :
    LatestHit s adds := by
  intro ip hip
  rw [Option.isSome_iff_ne_none, arpResolve_eq_find, ← Cache.mem_keys_iff_find, h.recent.mem_iff]
  exact hip

/-- **The oldest entry is the one evicted, and the 32 addresses added latest are found, exactly
in the runs where the first entry is the oldest whenever an address comes that is not in the
cache.** -/
theorem arpEviction_iff (s : NetState) (adds : List (UInt32 × Mac)) :
    ((∀ pre a post, adds = pre ++ a :: post → EvictsOldest s pre a.1 a.2) ∧
      ∀ pre post, adds = pre ++ post → LatestHit s pre) ↔ FrontOldest (Cache.added adds) := by
  rw [evictsOldest_run_iff, and_iff_left_iff_imp]
  rintro h pre post rfl
  refine FrontFirst.latestHit (FrontOldest.frontFirst s fun p ip q heq => ?_)
  refine h p ip (q ++ Cache.added post) ?_
  rw [Cache.added, List.map_append, ← List.cons_append, ← List.append_assoc, ← heq]
  rfl

/-- The addresses 1 to 32, the first of them again, then one more: the first, added just before, is
evicted. -/
theorem arpEviction_newest :
    let adds : List (UInt32 × Mac) :=
      (List.range 32).map (fun i => (UInt32.ofNat (i + 1), CArray.zero)) ++ [(1, CArray.zero)]
    ¬ EvictsOldest (.static true CArray.zero) adds 33 CArray.zero ∧
      ¬ LatestHit (.static true CArray.zero) (adds ++ [(33, CArray.zero)]) := by
  intro adds
  constructor
  · intro h
    have hfull : ∀ j, ((arpAdded adds (.static true CArray.zero)).arpCache j).valid = true ∧
        ((arpAdded adds (.static true CArray.zero)).arpCache j).ip ≠ 33 := by decide +kernel
    have hlt := h hfull 0 (fun heq => absurd (congrArg ArpEntry.ip heq) (by decide +kernel)) 1
      (by decide)
    exact absurd hlt (by decide +kernel)
  · intro h
    have hhit := h 1 (by decide +kernel)
    exact absurd hhit (by decide +kernel)

end EphemeralOS
