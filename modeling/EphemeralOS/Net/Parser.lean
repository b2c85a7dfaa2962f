import EphemeralOS.Net.Dns

/-!
# The response parser on arbitrary bytes

`dns_response_handler` moves a cursor by lengths that it reads from the data, and
so past the end of the data. Its loops end nevertheless, each of its reads lies
inside the payload (`dnsReads` lists them, and no other byte has a part in the
answer), and what it takes for the address are the four bytes behind a record
header that it has come to (`response_parser_safe`).
-/

namespace EphemeralOS

open Binary

section Reads

variable (data : Memory) (limit : Nat)

/-- The offsets that the loop over a name reads: a byte is tested, tested again, and added. -/
def skipReads : Nat → Nat → List Nat
  | 0, _ => []
  | rounds + 1, ptr =>
    if ptr < limit then
      if data ptr ≠ 0 then
        if data ptr &&& 0xC0 = 0xC0 then [ptr, ptr]
        else [ptr, ptr, ptr] ++ skipReads rounds (ptr + ((data ptr).toNat + 1))
      else [ptr]
    else []

def nameReads (ptr : Nat) : List Nat :=
  skipReads data limit limit ptr ++
    let ptr := skipName data limit limit ptr
    if ptr ≥ limit then [] else [ptr]

/-- The offsets that the loop over the answer records reads. -/
def answerReads : Nat → Nat → List Nat
  | 0, _ => []
  | count + 1, ptr =>
    if ¬ ptr < limit then [] else
    nameReads data limit ptr ++
    match afterName data limit ptr with
    | none => []
    | some ptr =>
      if ptr + 10 > limit then [] else
      let type := read16 data ptr
      let rdlength := read16 data (ptr + 8)
      [ptr, ptr + 1, ptr + 8, ptr + 9] ++
      if type = dnsQueryTypeA ∧ rdlength = 4 ∧ ptr + 10 + 4 ≤ limit then
        [ptr + 10, ptr + 11, ptr + 12, ptr + 13]
      else answerReads count (ptr + 10 + rdlength.toNat)

end Reads

/-- The offsets that `dns_response_handler` reads: the header's `flags` and `ancount`, and the
names and records. -/
def dnsReads (data : Memory) (length : UInt16) : List Nat :=
  if length < 12 then [] else
  let header := dnsHeaderLayout.dec (data.bytes 0 12)
  [2, 3] ++
  if ntohs header.flags &&& dnsFlagQr = 0 then [] else
  [6, 7] ++
  let ancount := ntohs header.ancount
  if ancount = 0 then [] else
  nameReads data length.toNat 12 ++
  match afterName data length.toNat 12 with
  | none => []
  | some ptr => answerReads data length.toNat ancount.toNat (ptr + 4)

section InBounds

variable {data : Memory} {limit : Nat}

theorem skipReads_lt : ∀ (rounds ptr : Nat), ∀ i ∈ skipReads data limit rounds ptr, i < limit
  | 0, _ => fun i hi => absurd hi List.not_mem_nil
  | rounds + 1, ptr => by
    rw [skipReads]
    split
    case isFalse => exact fun i hi => absurd hi List.not_mem_nil
    next hlt =>
    split
    · split
      · simpa using hlt
      · intro i hi
        rcases List.mem_append.mp hi with hi | hi
        · have : i = ptr := by simpa using hi
          omega
        · exact skipReads_lt rounds _ i hi
    · simpa using hlt

theorem nameReads_lt (ptr : Nat) : ∀ i ∈ nameReads data limit ptr, i < limit := by
  intro i hi
  rcases List.mem_append.mp hi with hi | hi
  · exact skipReads_lt _ _ i hi
  · simp only at hi
    split at hi
    · cases hi
    · rw [List.mem_singleton.mp hi]
      omega

theorem answerReads_lt : ∀ (count ptr : Nat), ∀ i ∈ answerReads data limit count ptr, i < limit
  | 0, _ => fun i hi => absurd hi List.not_mem_nil
  | count + 1, ptr => by
    intro i hi
    rw [answerReads] at hi
    split at hi
    · cases hi
    rcases List.mem_append.mp hi with hi | hi
    · exact nameReads_lt ptr i hi
    split at hi
    · cases hi
    next ptr _ =>
    split at hi
    · cases hi
    rcases List.mem_append.mp hi with hi | hi
    · simp only [List.mem_cons, List.not_mem_nil, or_false] at hi
      omega
    split at hi
    · simp only [List.mem_cons, List.not_mem_nil, or_false] at hi
      omega
    · exact answerReads_lt count _ i hi

/-- **Every read lies inside the payload.** -/
theorem dnsReads_lt (data : Memory) (length : UInt16) :
    ∀ i ∈ dnsReads data length, i < length.toNat := by
  intro i hi
  simp only [dnsReads] at hi
  split at hi
  · cases hi
  next h12 =>
  have hlen : 12 ≤ length.toNat :=
    Nat.le_of_not_lt fun hlt => h12 (UInt16.lt_iff_toNat_lt.mpr hlt)
  rcases List.mem_append.mp hi with hi | hi
  · simp only [List.mem_cons, List.not_mem_nil, or_false] at hi
    omega
  split at hi
  · cases hi
  rcases List.mem_append.mp hi with hi | hi
  · simp only [List.mem_cons, List.not_mem_nil, or_false] at hi
    omega
  split at hi
  · cases hi
  rcases List.mem_append.mp hi with hi | hi
  · exact nameReads_lt 12 i hi
  split at hi
  · cases hi
  · exact answerReads_lt _ _ i hi

end InBounds

/-! ## Nothing else is read -/

section Congr

variable {data data' : Memory} {limit : Nat}

theorem skipName_reads : ∀ (rounds ptr : Nat),
    (∀ i ∈ skipReads data limit rounds ptr, data i = data' i) →
      skipName data limit rounds ptr = skipName data' limit rounds ptr
  | 0, _, _ => rfl
  | rounds + 1, ptr, h => by
    rw [skipReads] at h
    rw [skipName, skipName]
    split at h
    case isFalse hge => rw [if_neg fun hc => hge hc.1, if_neg fun hc => hge hc.1]
    next hlt =>
    split at h
    next hne =>
      split at h
      · next hptr =>
        have hat : data ptr = data' ptr := h ptr (by simp)
        rw [← hat, if_pos ⟨hlt, hne⟩, if_pos hptr, if_pos ⟨hlt, hne⟩, if_pos hptr]
      · next hlabel =>
        have hat : data ptr = data' ptr := h ptr (by simp)
        rw [← hat, if_pos ⟨hlt, hne⟩, if_neg hlabel, if_pos ⟨hlt, hne⟩, if_neg hlabel]
        exact skipName_reads rounds _ fun i hi => h i (List.mem_append_right _ hi)
    next hzero =>
      have hat : data ptr = data' ptr := h ptr (by simp)
      rw [← hat, if_neg fun hc => hzero hc.2, if_neg fun hc => hzero hc.2]

theorem afterName_reads {ptr : Nat} (h : ∀ i ∈ nameReads data limit ptr, data i = data' i) :
    afterName data limit ptr = afterName data' limit ptr := by
  have hskip := skipName_reads limit ptr fun i hi => h i (List.mem_append_left _ hi)
  simp only [afterName, ← hskip]
  split
  · rfl
  · next hlt =>
    have hat := h (skipName data limit limit ptr)
      (List.mem_append_right _ (by simp only [if_neg hlt, List.mem_singleton]))
    rw [hat]

theorem answerLoop_reads : ∀ (count ptr : Nat),
    (∀ i ∈ answerReads data limit count ptr, data i = data' i) →
      answerLoop data limit count ptr = answerLoop data' limit count ptr
  | 0, _, _ => rfl
  | count + 1, ptr, h => by
    rw [answerReads] at h
    rw [answerLoop, answerLoop]
    split at h
    · next hge => rw [if_pos hge, if_pos hge]
    next hlt =>
    have hname := afterName_reads fun i hi => h i (List.mem_append_left _ hi)
    rw [if_neg hlt, if_neg hlt, ← hname]
    cases hafter : afterName data limit ptr with
    | none => rfl
    | some ptr =>
      simp only [hafter] at h ⊢
      split at h
      · next hroom => rw [if_pos hroom, if_pos hroom]
      next hroom =>
      have htype : read16 data ptr = read16 data' ptr := by
        rw [read16, read16, h ptr (by simp), h (ptr + 1) (by simp)]
      have hlength : read16 data (ptr + 8) = read16 data' (ptr + 8) := by
        rw [read16, read16, h (ptr + 8) (by simp), h (ptr + 8 + 1) (by simp)]
      rw [if_neg hroom, if_neg hroom, ← htype, ← hlength]
      split at h
      · next haddress =>
        rw [if_pos haddress, if_pos haddress, read32, read32, h (ptr + 10) (by simp),
          h (ptr + 10 + 1) (by simp), h (ptr + 10 + 2) (by simp), h (ptr + 10 + 3) (by simp)]
      · next haddress =>
        rw [if_neg haddress, if_neg haddress]
        exact answerLoop_reads count _ fun i hi =>
          h i (List.mem_append_right _ (List.mem_append_right _ hi))

/-- **The answer depends on the bytes of `dnsReads` only.** -/
theorem dnsAnswer_reads {length : UInt16} (h : ∀ i ∈ dnsReads data length, data i = data' i) :
    dnsAnswer data length = dnsAnswer data' length := by
  simp only [dnsReads] at h
  simp only [dnsAnswer]
  split at h
  · next hshort => rw [if_pos hshort, if_pos hshort]
  next hshort =>
  have hflags : (dnsHeaderLayout.dec (data.bytes 0 12)).flags =
      (dnsHeaderLayout.dec (data'.bytes 0 12)).flags := by
    change Layout.word16.dec [data 2, data 3] = Layout.word16.dec [data' 2, data' 3]
    rw [h 2 (by simp), h 3 (by simp)]
  rw [if_neg hshort, if_neg hshort, ← hflags]
  split at h
  · next hqr => rw [if_pos hqr, if_pos hqr]
  next hqr =>
  have hancount : (dnsHeaderLayout.dec (data.bytes 0 12)).ancount =
      (dnsHeaderLayout.dec (data'.bytes 0 12)).ancount := by
    change Layout.word16.dec [data 6, data 7] = Layout.word16.dec [data' 6, data' 7]
    rw [h 6 (by simp), h 7 (by simp)]
  rw [if_neg hqr, if_neg hqr, ← hancount]
  split at h
  · next hzero => rw [if_pos hzero, if_pos hzero]
  next hzero =>
  have h := fun i hi => h i (List.mem_append_right _ (List.mem_append_right _ hi))
  have hname := afterName_reads fun i hi => h i (List.mem_append_left _ hi)
  rw [if_neg hzero, if_neg hzero, ← hname]
  cases hafter : afterName data length.toNat 12 with
  | none => rfl
  | some ptr =>
    simp only [hafter] at h ⊢
    exact answerLoop_reads _ _ fun i hi => h i (List.mem_append_right _ hi)

/-- **`dns_response_handler` reads nothing behind the payload.** -/
theorem dnsAnswer_congr {length : UInt16} (h : ∀ i < length.toNat, data i = data' i) :
    dnsAnswer data length = dnsAnswer data' length :=
  dnsAnswer_reads fun i hi => h i (dnsReads_lt data length i hi)

end Congr

/-- The loop over a name, run from `ptr` on, ends with the cursor at the second offset. -/
inductive NameLoop (data : Memory) (limit : Nat) : Nat → Nat → Prop
  | stop {ptr : Nat} : ¬ (ptr < limit ∧ data ptr ≠ 0) → NameLoop data limit ptr ptr
  | pointer {ptr : Nat} : ptr < limit ∧ data ptr ≠ 0 → data ptr &&& 0xC0 = 0xC0 →
      NameLoop data limit ptr (ptr + 2)
  | label {ptr out : Nat} : ptr < limit ∧ data ptr ≠ 0 → data ptr &&& 0xC0 ≠ 0xC0 →
      NameLoop data limit (ptr + ((data ptr).toNat + 1)) out → NameLoop data limit ptr out

/-- Each round moves the cursor on, so what is left of the data bounds the rounds. -/
theorem nameLoop_skipName {data : Memory} {limit : Nat} : ∀ (rounds ptr : Nat),
    limit - ptr ≤ rounds → NameLoop data limit ptr (skipName data limit rounds ptr)
  | 0, ptr, h => .stop fun hc => by omega
  | rounds + 1, ptr, h => by
    rw [skipName]
    split
    · next hc =>
      split
      · next hptr => exact .pointer hc hptr
      · next hlabel => exact .label hc hlabel (nameLoop_skipName rounds _ (by omega))
    · next hc => exact .stop hc

/-! ## What is taken -/

/-- The loop over the answers comes to a record at the second offset, with so many to go. -/
inductive RecordAt (data : Memory) (length : UInt16) : Nat → Nat → Prop
  | first {ptr : Nat} : 12 ≤ length.toNat →
      ntohs (dnsHeaderLayout.dec (data.bytes 0 12)).flags &&& dnsFlagQr ≠ 0 →
      afterName data length.toNat 12 = some ptr →
      RecordAt data length (ntohs (dnsHeaderLayout.dec (data.bytes 0 12)).ancount).toNat (ptr + 4)
  | next {count ptr header : Nat} : RecordAt data length (count + 1) ptr → ptr < length.toNat →
      afterName data length.toNat ptr = some header → header + 10 ≤ length.toNat →
      RecordAt data length count (header + 10 + (read16 data (header + 8)).toNat)

def HeaderAt (data : Memory) (length : UInt16) (header : Nat) : Prop :=
  ∃ count ptr, RecordAt data length (count + 1) ptr ∧ ptr < length.toNat ∧
    afterName data length.toNat ptr = some header ∧ header + 10 ≤ length.toNat

/-- Four bytes behind a record header with type A and rdlength 4. -/
def AddressIn (data : Memory) (length : UInt16) (ip : UInt32) : Prop :=
  ∃ header, HeaderAt data length header ∧ read16 data header = dnsQueryTypeA ∧
    read16 data (header + 8) = 4 ∧ header + 10 + 4 ≤ length.toNat ∧ ip = read32 data (header + 10)

theorem answerLoop_address {data : Memory} {length : UInt16} {ip : UInt32} :
    ∀ {count ptr : Nat}, RecordAt data length count ptr →
      answerLoop data length.toNat count ptr = some ip → AddressIn data length ip
  | 0, _, _, h => nomatch h
  | count + 1, ptr, hat, h => by
    rw [answerLoop] at h
    split at h
    · cases h
    next hlt =>
    have hlt := not_not.mp hlt
    split at h
    · cases h
    next header hname =>
    split at h
    · cases h
    next hroom =>
    have hroom := Nat.not_lt.mp hroom
    simp only at h
    split at h
    · next haddress =>
      cases h
      exact ⟨header, ⟨count, ptr, hat, hlt, hname, hroom⟩, haddress.1, haddress.2.1, haddress.2.2,
        rfl⟩
    · exact answerLoop_address (.next hat hlt hname hroom) h

theorem dnsAnswer_address {data : Memory} {length : UInt16} {ip : UInt32}
    (h : dnsAnswer data length = some ip) : AddressIn data length ip := by
  simp only [dnsAnswer] at h
  split at h
  · cases h
  next h12 =>
  split at h
  · cases h
  next hqr =>
  split at h
  · cases h
  split at h
  · cases h
  next ptr hname =>
  exact answerLoop_address (.first
    (Nat.le_of_not_lt fun hlt => h12 (UInt16.lt_iff_toNat_lt.mpr hlt)) hqr hname) h

/-- **The parser is safe on arbitrary bytes**: its loops end wherever they start, all that it reads
lies inside the payload, and it leaves the state alone or takes an address from a record that it has
parsed. -/
theorem response_parser_safe (data : Memory) (length : UInt16) :
    (∀ ptr, NameLoop data length.toNat ptr (skipName data length.toNat length.toNat ptr)) ∧
      (∀ i ∈ dnsReads data length, i < length.toNat) ∧
      (∀ data' : Memory, (∀ i ∈ dnsReads data length, data i = data' i) →
        ∀ srcIp srcPort s, dnsResponseHandler srcIp srcPort data' length s =
          dnsResponseHandler srcIp srcPort data length s) ∧
      ((∀ srcIp srcPort s, dnsResponseHandler srcIp srcPort data length s = s) ∨
        ∃ ip, AddressIn data length ip ∧ ∀ srcIp srcPort s,
          dnsResponseHandler srcIp srcPort data length s =
            { s with resolvedIp := ip, resolutionComplete := true }) := by
  refine ⟨fun ptr => nameLoop_skipName _ ptr (Nat.sub_le _ _), dnsReads_lt data length, ?_, ?_⟩
  · intro data' h srcIp srcPort s
    rw [dnsResponseHandler, dnsResponseHandler, dnsAnswer_reads h]
  unfold dnsResponseHandler
  cases h : dnsAnswer data length with
  | none => exact .inl fun _ _ _ => rfl
  | some ip => exact .inr ⟨ip, dnsAnswer_address h, fun _ _ _ => rfl⟩

end EphemeralOS
