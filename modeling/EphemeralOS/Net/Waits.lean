import EphemeralOS.Net.Ping

/-!
# Whether a reply is noticed

`icmp_send_echo_request` enters a ping in a slot that is not answered, or in one
older than 5000 ticks; when there is none, the ping goes out without an entry.
The timer moves only while a wait goes without an answer, so sixteen pings that
are all answered at once fill the table for good.

A reply is marked in a slot that is entered for it (`Answering.marked`), and a
full table never changes (`NetSteps.full`), so a reply received during the wait
is noticed exactly if the request found a slot, or an old answer to the same
ping is still there (`reply_noticed_iff`).
-/

namespace EphemeralOS

open Run

/-- What has happened from `s` to `s'`, the latest first. -/
def NetState.since (s s' : NetState) : List NetEvent :=
  s'.trace.take (s'.trace.length - s.trace.length)

theorem since_eq {s s' : NetState} {l : List NetEvent} (h : s'.trace = l ++ s.trace) :
    s.since s' = l := by
  have hlen : s'.trace.length - s.trace.length = l.length := by
    rw [h, List.length_append]
    omega
  rw [NetState.since, hlen, h, List.take_left]

theorem since_trans {s t u : NetState} (h : s.trace <:+ t.trace) (h' : t.trace <:+ u.trace) :
    s.since u = t.since u ++ s.since t := by
  obtain ⟨es, hes⟩ := h
  obtain ⟨es', hes'⟩ := h'
  rw [since_eq hes.symm, since_eq hes'.symm]
  apply since_eq
  rw [← hes', ← hes, List.append_assoc]

def FullTable (s : NetState) : Prop := ∀ i, (s.pingStates i).received = true

theorem NetStep.full {s s' : NetState} (hstep : NetStep s s') (h : FullTable s) :
    s'.pingStates = s.pingStates := by
  cases hstep with
  | sent frame => rfl
  | polled _ => rfl
  | learned cache => rfl
  | numbered => rfl
  | called callback srcIp srcPort payload length =>
    obtain ⟨-, -, hstates, -⟩ := udpCallback_call_frame callback srcIp srcPort payload length
      (s.log (.called callback srcIp srcPort (payload.bytes 0 length.toNat)))
    exact hstates
  | answered srcIp sequence =>
    have hnone : pingPending (s.log (.answered srcIp sequence)) srcIp sequence = none := by
      refine List.find?_eq_none.mpr fun i _ hi => ?_
      exact (of_decide_eq_true hi).2.2 (h i)
    rw [icmpAnswer, hnone]
    rfl

/-- **A full table does not change while frames are received.** -/
theorem NetSteps.full {s s' : NetState} (hsteps : NetSteps s s') (h : FullTable s) :
    s'.pingStates = s.pingStates := by
  induction hsteps with
  | refl => rfl
  | tail _ hstep ih =>
    refine (hstep.full fun i => ?_).trans ih
    rw [ih]
    exact h i

/-! ## Replies are marked -/

def Listed (s : NetState) (ip : UInt32) (sequence : UInt16) : Prop :=
  ∃ i, (s.pingStates i).ip = ip ∧ (s.pingStates i).sequence = sequence

/-- What a part of a run without requests does to the table. -/
structure Answering (s s' : NetState) : Prop where
  trace : s.trace <:+ s'.trace
  ip : ∀ i, (s'.pingStates i).ip = (s.pingStates i).ip
  sequence : ∀ i, (s'.pingStates i).sequence = (s.pingStates i).sequence
  received : ∀ i, (s.pingStates i).received → (s'.pingStates i).received
  marked : ∀ ip sequence, Listed s ip sequence → .answered ip sequence ∈ s.since s' →
    pingAnswered s' ip sequence

theorem pingAnswered_iff {s : NetState} {ip : UInt32} {sequence : UInt16} :
    pingAnswered s ip sequence = true ↔ ∃ i, (s.pingStates i).ip = ip ∧
      (s.pingStates i).sequence = sequence ∧ (s.pingStates i).received = true := by
  simp only [pingAnswered, List.any_eq_true, List.mem_finRange, true_and, decide_eq_true_eq]

theorem pingAnswered_congr {s s' : NetState} (h : s'.pingStates = s.pingStates) (ip : UInt32)
    (sequence : UInt16) : pingAnswered s' ip sequence = pingAnswered s ip sequence := by
  rw [pingAnswered, pingAnswered, h]

theorem Answering.listed {s s' : NetState} (h : Answering s s') {ip : UInt32} {sequence : UInt16}
    (hl : Listed s ip sequence) : Listed s' ip sequence := by
  obtain ⟨i, hip, hseq⟩ := hl
  exact ⟨i, (h.ip i).trans hip, (h.sequence i).trans hseq⟩

theorem Answering.answered {s s' : NetState} (h : Answering s s') {ip : UInt32}
    {sequence : UInt16} (ha : pingAnswered s ip sequence) : pingAnswered s' ip sequence := by
  obtain ⟨i, hip, hseq, hr⟩ := pingAnswered_iff.mp ha
  exact pingAnswered_iff.mpr ⟨i, (h.ip i).trans hip, (h.sequence i).trans hseq, h.received i hr⟩

theorem Answering.of_eq {s s' : NetState} {l : List NetEvent} (htrace : s'.trace = l ++ s.trace)
    (hl : ∀ ip sequence, .answered ip sequence ∉ l) (h : s'.pingStates = s.pingStates) :
    Answering s s' where
  trace := ⟨l, htrace.symm⟩
  ip i := by rw [h]
  sequence i := by rw [h]
  received i hi := by rwa [h]
  marked ip sequence _ hmem := by
    rw [since_eq htrace] at hmem
    exact absurd hmem (hl ip sequence)

theorem Answering.refl (s : NetState) : Answering s s :=
  .of_eq (l := []) rfl (fun _ _ => List.not_mem_nil) rfl

theorem Answering.trans {s t u : NetState} (h : Answering s t) (h' : Answering t u) :
    Answering s u where
  trace := h.trace.trans h'.trace
  ip i := (h'.ip i).trans (h.ip i)
  sequence i := (h'.sequence i).trans (h.sequence i)
  received i hi := h'.received i (h.received i hi)
  marked ip sequence hl hmem := by
    rw [since_trans h.trace h'.trace] at hmem
    rcases List.mem_append.mp hmem with hlater | hearlier
    · exact h'.marked ip sequence (h.listed hl) hlater
    · exact h'.answered (h.marked ip sequence hl hearlier)

theorem icmpAnswer_answering (srcIp : UInt32) (sequence : UInt16) (s : NetState) :
    Answering s (icmpAnswer srcIp sequence (s.log (.answered srcIp sequence))) := by
  generalize hs' : icmpAnswer srcIp sequence (s.log (.answered srcIp sequence)) = s'
  have htrace : s'.trace = [.answered srcIp sequence] ++ s.trace := by
    obtain ⟨pingStates, h⟩ := icmpAnswer_frame srcIp sequence (s.log (.answered srcIp sequence))
    rw [← hs', h]
    rfl
  -- an event of this step is the reply itself
  have hself : ∀ {ip seq}, .answered ip seq ∈ s.since s' → ip = srcIp ∧ seq = sequence := by
    intro ip seq hmem
    rw [since_eq htrace, List.mem_singleton] at hmem
    cases hmem
    exact ⟨rfl, rfl⟩
  rw [icmpAnswer] at hs'
  split at hs'
  · next i hi =>
    rw [pingPending] at hi
    have hpending := List.find?_some hi
    obtain ⟨hip, hseq, -⟩ := of_decide_eq_true hpending
    have hstates : s'.pingStates =
        Function.update s.pingStates i { s.pingStates i with received := true } := by
      rw [← hs']
      rfl
    have hj : ∀ j, (s'.pingStates j).ip = (s.pingStates j).ip ∧
        (s'.pingStates j).sequence = (s.pingStates j).sequence ∧
        ((s.pingStates j).received → (s'.pingStates j).received) := by
      intro j
      rw [hstates]
      by_cases hji : j = i
      · subst hji
        rw [Function.update_self]
        exact ⟨rfl, rfl, fun _ => rfl⟩
      · rw [Function.update_of_ne hji]
        exact ⟨rfl, rfl, id⟩
    refine ⟨⟨_, htrace.symm⟩, fun j => (hj j).1, fun j => (hj j).2.1, fun j => (hj j).2.2, ?_⟩
    intro ip seq _ hmem
    obtain ⟨rfl, rfl⟩ := hself hmem
    refine pingAnswered_iff.mpr ⟨i, (hj i).1.trans hip, (hj i).2.1.trans hseq, ?_⟩
    rw [hstates, Function.update_self]
  · next hnone =>
    have hstates : s'.pingStates = s.pingStates := by
      rw [← hs']
      rfl
    refine ⟨⟨_, htrace.symm⟩, fun j => by rw [hstates], fun j => by rw [hstates],
      fun j hr => by rwa [hstates], ?_⟩
    -- the slot entered for the ping is not waiting, so it is answered
    rintro ip seq ⟨j, hip, hseq⟩ hmem
    obtain ⟨rfl, rfl⟩ := hself hmem
    have hj := List.find?_eq_none.mp hnone j (List.mem_finRange j)
    refine pingAnswered_iff.mpr ⟨j, by rw [hstates, hip], by rw [hstates, hseq], ?_⟩
    by_contra hr
    rw [hstates] at hr
    exact hj (decide_eq_true ⟨hip, hseq, hr⟩)

/-- **Receiving only answers.** -/
theorem NetStep.answering {s s' : NetState} (hstep : NetStep s s') : Answering s s' := by
  cases hstep with
  | sent frame => exact .of_eq (l := [_]) rfl (by simp) rfl
  | polled _ => exact .of_eq (l := []) rfl (by simp) rfl
  | learned cache => exact .of_eq (l := []) rfl (by simp) rfl
  | numbered => exact .of_eq (l := []) rfl (by simp) rfl
  | called callback srcIp srcPort payload length =>
    obtain ⟨-, htrace, hstates, -⟩ := udpCallback_call_frame callback srcIp srcPort payload length
      (s.log (.called callback srcIp srcPort (payload.bytes 0 length.toNat)))
    exact .of_eq (l := [_]) htrace (by simp) hstates
  | answered srcIp sequence => exact icmpAnswer_answering srcIp sequence s

theorem NetSteps.answering {s s' : NetState} (hsteps : NetSteps s s') : Answering s s' := by
  induction hsteps with
  | refl => exact .refl s
  | tail _ hstep ih => exact ih.trans hstep.answering

theorem waitLoop_answering (destIp : UInt32) (sequence : UInt16) (startTime timeoutMs : UInt32)
    (rounds : Nat) (s : NetState) :
    Answering s (waitLoop destIp sequence startTime timeoutMs rounds s).2 :=
  waitLoop_keeps (P := Answering s) (fun t ht => ht.trans (poll_steps t).answering)
    (fun _ ht => ht.trans (.of_eq (l := []) rfl (by simp) rfl)) _ _ _ _ _ (.refl s)

/-- **A reply to a listed ping ends the wait.** -/
theorem waitLoop_notices {destIp : UInt32} {sequence : UInt16} {startTime timeoutMs : UInt32}
    {rounds : Nat} {s : NetState} (hl : Listed s destIp sequence)
    (hmem : .answered destIp sequence ∈
      s.since (waitLoop destIp sequence startTime timeoutMs rounds s).2) :
    (waitLoop destIp sequence startTime timeoutMs rounds s).1 = true := by
  induction rounds generalizing s with
  | zero =>
    rw [waitLoop, since_eq (l := []) rfl] at hmem
    cases hmem
  | succ rounds ih =>
    have hpoll := (poll_steps s).answering
    simp only [waitLoop] at hmem ⊢
    split at hmem
    · next hlt =>
      rw [if_pos hlt]
      split at hmem
      · next hans => rw [if_pos hans]
      · next hans =>
        rw [if_neg hans]
        have htick : Answering (poll s) { poll s with icmpTimer := (poll s).icmpTimer + 1 } :=
          .of_eq (l := []) rfl (by simp) rfl
        have hround := hpoll.trans htick
        rw [since_trans hround.trace (waitLoop_answering _ _ _ _ _ _).trace] at hmem
        rcases List.mem_append.mp hmem with hlater | hnow
        · exact ih (hround.listed hl) hlater
        · -- the reply came in this round, after which no slot was answered
          exact absurd (hround.marked _ _ hl hnow) hans
    · rw [since_eq (l := []) rfl] at hmem
      cases hmem

/-- With a full table, what a wait finds was there before. -/
theorem waitLoop_full {destIp : UInt32} {sequence : UInt16} {startTime timeoutMs : UInt32}
    {rounds : Nat} {s : NetState} (h : FullTable s)
    (hwait : (waitLoop destIp sequence startTime timeoutMs rounds s).1 = true) :
    pingAnswered s destIp sequence := by
  have hkept := waitLoop_keeps (P := fun t => t.pingStates = s.pingStates)
    (fun t ht => ((poll_steps t).full (fun i => by rw [ht]; exact h i)).trans ht)
    (fun _ ht => ht) destIp sequence startTime timeoutMs rounds rfl
  rw [← pingAnswered_congr hkept]
  exact waitLoop_true hwait

/-! ## Rounds -/

def NetOp.isPing : NetOp → Bool
  | .ping _ _ _ => true
  | _ => false

/-- A request and the wait for its reply; what happens between the two is no request. -/
structure PingRound where
  destIp : UInt32
  id : UInt16
  sequence : UInt16
  between : List NetOp
  timeoutMs : UInt32
  quiet : ∀ op ∈ between, op.isPing = false
  waits : 0 < timeoutMs

/-- What happens to the stack when each request is followed by its wait. -/
inductive PingCall
  | round (r : PingRound)
  | call (op : NetOp) (quiet : op.isPing = false)

def PingRound.begun (r : PingRound) (s : NetState) : NetState :=
  r.between.foldl (fun s op => op.apply s) ((NetOp.ping r.destIp r.id r.sequence).apply s)

def PingRound.wait (r : PingRound) (s : NetState) : Bool × NetState :=
  icmpWaitReply r.destIp r.sequence r.timeoutMs (r.begun s)

def PingCall.apply : PingCall → NetState → NetState
  | .round r, s => (r.wait s).2
  | .call op _, s => op.apply s

def PingRound.Replied (r : PingRound) (s : NetState) : Prop :=
  .answered r.destIp r.sequence ∈ (r.begun s).since (r.wait s).2

instance (r : PingRound) (s : NetState) : Decidable (r.Replied s) :=
  inferInstanceAs (Decidable (_ ∈ _))

/-- The calls that are no requests change the table only by answers. -/
theorem NetOp.answering {op : NetOp} (h : op.isPing = false) (s : NetState) :
    Answering s (op.apply s) := by
  cases op with
  | arrive packets => exact .of_eq (l := []) rfl (by simp) rfl
  | receive frame length => exact (ethReceiveFrame_steps frame length s).answering
  | ping destIp id sequence => cases h
  | wait destIp sequence timeoutMs => exact waitLoop_answering _ _ _ _ _ s
  | resolve hostname =>
    have hreset : Answering s (dnsReset s) := .of_eq (l := []) rfl (by simp) rfl
    simp only [NetOp.apply, dnsResolve]
    split
    · exact .refl s
    · exact hreset.trans (dnsAsk_steps hostname s).answering
  | sync localTime =>
    have hreset : Answering s (ntpReset s) := .of_eq (l := []) rfl (by simp) rfl
    simp only [NetOp.apply, ntpSyncTime]
    exact hreset.trans (ntpAsk_steps localTime s).answering
  | setIp ip => exact .of_eq (l := []) rfl (by simp) rfl
  | setDnsServer ip => exact .of_eq (l := []) rfl (by simp) rfl
  | setNtpServer ip => exact .of_eq (l := []) rfl (by simp) rfl

theorem NetOp.full {op : NetOp} (h : op.isPing = false) {s : NetState} (hs : FullTable s) :
    (op.apply s).pingStates = s.pingStates := by
  cases op with
  | arrive packets => rfl
  | receive frame length => exact (ethReceiveFrame_steps frame length s).full hs
  | ping destIp id sequence => cases h
  | wait destIp sequence timeoutMs =>
    exact waitLoop_keeps (P := fun t => t.pingStates = s.pingStates)
      (fun t ht => ((poll_steps t).full (fun i => by rw [ht]; exact hs i)).trans ht)
      (fun _ ht => ht) _ _ _ _ _ rfl
  | resolve hostname =>
    simp only [NetOp.apply, dnsResolve]
    split
    · rfl
    · exact (dnsAsk_steps hostname s).full (s := dnsReset s) hs
  | sync localTime =>
    simp only [NetOp.apply, ntpSyncTime]
    exact (ntpAsk_steps localTime s).full (s := ntpReset s) hs
  | setIp ip => rfl
  | setDnsServer ip => rfl
  | setNtpServer ip => rfl

theorem foldl_answering {ops : List NetOp} (h : ∀ op ∈ ops, op.isPing = false) (s : NetState) :
    Answering s (ops.foldl (fun s op => op.apply s) s) := by
  induction ops generalizing s with
  | nil => exact .refl s
  | cons op ops ih =>
    obtain ⟨hop, hops⟩ := List.forall_mem_cons.mp h
    exact (op.answering hop s).trans (ih hops _)

theorem foldl_full {ops : List NetOp} (h : ∀ op ∈ ops, op.isPing = false) {s : NetState}
    (hs : FullTable s) : (ops.foldl (fun s op => op.apply s) s).pingStates = s.pingStates := by
  induction ops generalizing s with
  | nil => rfl
  | cons op ops ih =>
    obtain ⟨hop, hops⟩ := List.forall_mem_cons.mp h
    have hkept := op.full hop hs
    exact (ih hops fun i => by rw [hkept]; exact hs i).trans hkept

/-! ## One round -/

theorem pingSlot_eq_none {s : NetState} :
    pingSlot s = none ↔ ∀ i, pingFree s i = false := by
  rw [pingSlot, List.find?_eq_none]
  simp only [List.mem_finRange, true_implies, Bool.not_eq_true]

theorem pingStart_listed {s : NetState} {i : Fin 16} (hi : pingFree s i = true) (destIp : UInt32)
    (sequence : UInt16) : Listed (pingStart destIp sequence s) destIp sequence := by
  rw [pingStart]
  cases hs : pingSlot s with
  | none =>
    rw [pingSlot_eq_none.mp hs i] at hi
    cases hi
  | some slot =>
    exact ⟨slot, by simp only [Function.update_self], by simp only [Function.update_self]⟩

theorem ping_listed {s : NetState} {i : Fin 16} (hi : pingFree s i = true) (destIp : UInt32)
    (id sequence : UInt16) : Listed ((NetOp.ping destIp id sequence).apply s) destIp sequence := by
  refine (ipSend_steps ethReceiveFrame_steps _ _ _ _).answering.listed ?_
  exact pingStart_listed (s := s.log (.pinged destIp id sequence)) hi destIp sequence

theorem ping_full {s : NetState} (h : ∀ i, pingFree s i = false) (destIp : UInt32)
    (id sequence : UInt16) :
    FullTable s ∧ ((NetOp.ping destIp id sequence).apply s).pingStates = s.pingStates := by
  have hfull : FullTable s := by
    intro i
    have hi := h i
    rw [pingFree, Bool.or_eq_false_iff, Bool.not_eq_false'] at hi
    exact hi.1
  have hstart : pingStart destIp sequence (s.log (.pinged destIp id sequence)) =
      s.log (.pinged destIp id sequence) := by
    have hslot : pingSlot (s.log (.pinged destIp id sequence)) = pingSlot s := rfl
    rw [pingStart, hslot, pingSlot_eq_none.mpr h]
  refine ⟨hfull, ?_⟩
  simp only [NetOp.apply, icmpSendEchoRequest]
  rw [hstart]
  exact (ipSend_steps ethReceiveFrame_steps _ _ _ _).full (s := s.log _) hfull

def ReplyNoticed (c : PingCall) (s : NetState) : Prop :=
  ∀ r, c = .round r → r.Replied s → (r.wait s).1 = true

/-- The request of a round finds a slot, or an old answer to the same ping is there. -/
def SlotFound (c : PingCall) (s : NetState) : Prop :=
  ∀ r, c = .round r → r.Replied s →
    (∃ i, pingFree s i = true) ∨ pingAnswered s r.destIp r.sequence = true

theorem replyNoticed_iff (c : PingCall) (s : NetState) : ReplyNoticed c s ↔ SlotFound c s := by
  refine forall_congr' fun r => forall_congr' fun _ => forall_congr' fun hreplied => ?_
  by_cases hfree : ∃ i, pingFree s i = true
  · obtain ⟨i, hi⟩ := hfree
    have hl := (foldl_answering r.quiet _).listed (ping_listed hi r.destIp r.id r.sequence)
    exact ⟨fun _ => .inl ⟨i, hi⟩, fun _ => waitLoop_notices hl hreplied⟩
  · have hnone : ∀ i, pingFree s i = false := fun i => by
      rw [← Bool.not_eq_true]
      exact fun hi => hfree ⟨i, hi⟩
    obtain ⟨hfull, hping⟩ := ping_full hnone r.destIp r.id r.sequence
    have hfull' : FullTable ((NetOp.ping r.destIp r.id r.sequence).apply s) := fun i => by
      rw [hping]
      exact hfull i
    have hbegun : (r.begun s).pingStates = s.pingStates := (foldl_full r.quiet hfull').trans hping
    have hanswered := pingAnswered_congr hbegun r.destIp r.sequence
    constructor
    · intro hwait
      refine .inr ?_
      rw [← hanswered]
      exact waitLoop_full (fun i => by rw [hbegun]; exact hfull i) hwait
    · intro h
      obtain ⟨i, hip, hseq, -⟩ := pingAnswered_iff.mp (h.resolve_left hfree)
      exact waitLoop_notices ⟨i, by rw [hbegun, hip], by rw [hbegun, hseq]⟩ hreplied

/-- **In every run of pings, each wait notices the reply it gets exactly if each request so answered
finds a slot or an old answer.** -/
theorem reply_noticed_iff (calls : List PingCall) (s : NetState) :
    Every PingCall.apply ReplyNoticed calls (icmpInit s) ↔
      Every PingCall.apply SlotFound calls (icmpInit s) :=
  every_congr replyNoticed_iff calls (icmpInit s)

/-- An echo reply from 10.0.2.2. -/
def quickReply (sequence : UInt16) : List UInt8 :=
  ethHeaderLayout.enc ⟨broadcastMac, CArray.zero, htons ethTypeIp⟩ ++
    ipHeaderLayout.enc ⟨0x45, 0, htons 28, 0, 0, 64, ipProtoIcmp, 0, htonl 0x0A000202,
      htonl 0x0A00020F⟩ ++
    icmpHeaderLayout.enc ⟨icmpTypeEchoReply, icmpCodeEcho, 0, htons 1234, htons sequence⟩

/-- A ping of 10.0.2.2 that is answered before the timer moves. -/
def quickPing (sequence : UInt16) : PingRound where
  destIp := 0x0A000202
  id := 1234
  sequence := sequence
  between := [.arrive [some ⟨.ofList (quickReply sequence), 42⟩]]
  timeoutMs := 10
  quiet := fun op h => by
    rw [List.mem_singleton.mp h]
    rfl
  waits := by decide

def quickPings (n : Nat) : List PingCall :=
  (List.range n).map fun i => .round (quickPing (UInt16.ofNat i))

/-- The seventeenth finds no slot, and its wait times out though the reply is there. -/
theorem seventeenth_reply_lost :
    ¬ Every PingCall.apply ReplyNoticed (quickPings 17) (icmpInit kernelNet) := by
  intro h
  have hsplit : quickPings 17 = quickPings 16 ++ [.round (quickPing 16)] := rfl
  rw [hsplit, every_append] at h
  have hlast := h.2.1 _ rfl
  revert hlast
  decide +kernel

end EphemeralOS
