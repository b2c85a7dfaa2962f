import EphemeralOS.Net.Replies

/-!
# Whether a ping was answered

The slots of `ping_states` are never cleared, and `icmp_wait_reply` takes any
answered slot for its destination and sequence. A request reuses a slot that is
not answered, or one older than 5000 ticks, and else leaves the answered slots
alone; so an old answer to the same sequence number counts for the new request.

`PingInv` says that every answered slot has an answer since the last request of
its kind. Receiving keeps it, and a request keeps it if no other slot is
answered for the same destination and sequence (`FreshPing`).
-/

namespace EphemeralOS

open Run

/-- Going back from the latest event, there is an echo reply from `ip` with `sequence` before there
is a request of that kind. -/
def AnsweredSince (ip : UInt32) (sequence : UInt16) : List NetEvent → Prop
  | [] => False
  | .answered ip' sequence' :: trace =>
    (ip' = ip ∧ sequence' = sequence) ∨ AnsweredSince ip sequence trace
  | .pinged ip' _ sequence' :: trace =>
    ¬ (ip' = ip ∧ sequence' = sequence) ∧ AnsweredSince ip sequence trace
  | _ :: trace => AnsweredSince ip sequence trace

instance AnsweredSince.decidable (ip : UInt32) (sequence : UInt16) :
    ∀ trace, Decidable (AnsweredSince ip sequence trace)
  | [] => inferInstanceAs (Decidable False)
  | .answered _ _ :: trace =>
    have := AnsweredSince.decidable ip sequence trace
    inferInstanceAs (Decidable (_ ∨ _))
  | .pinged _ _ _ :: trace =>
    have := AnsweredSince.decidable ip sequence trace
    inferInstanceAs (Decidable (_ ∧ _))
  | .sent _ :: trace => AnsweredSince.decidable ip sequence trace
  | .called _ _ _ _ :: trace => AnsweredSince.decidable ip sequence trace

/-- Every answered slot was answered since the last request of its kind. -/
def PingInv (s : NetState) : Prop :=
  ∀ i, (s.pingStates i).received →
    AnsweredSince (s.pingStates i).ip (s.pingStates i).sequence s.trace

/-- No slot but the one that the request takes is answered for this destination and sequence. -/
def FreshPing (destIp : UInt32) (sequence : UInt16) (s : NetState) : Prop :=
  ∀ i, (s.pingStates i).received → (s.pingStates i).ip = destIp →
    (s.pingStates i).sequence = sequence → pingSlot s = some i

/-! ## What keeps the invariant -/

theorem pingInv_icmpInit (s : NetState) : PingInv (icmpInit s) :=
  fun _ h => absurd h Bool.false_ne_true

theorem PingInv.of_eq {s s' : NetState} (h : PingInv s) (hstates : s'.pingStates = s.pingStates)
    (htrace : s'.trace = s.trace) : PingInv s' := by
  intro i hi
  rw [hstates] at hi ⊢
  rw [htrace]
  exact h i hi

theorem pingInv_update {s : NetState} (h : PingInv s) {i : Fin 16} {entry : PingState}
    (hentry : entry.received → AnsweredSince entry.ip entry.sequence s.trace) :
    PingInv { s with pingStates := Function.update s.pingStates i entry } := by
  intro j hj
  by_cases hji : j = i
  · subst hji
    simp only [Function.update_self] at hj ⊢
    exact hentry hj
  · simp only [Function.update_of_ne hji] at hj ⊢
    exact h j hj

theorem icmpAnswer_pingInv {s : NetState} (h : PingInv s) (srcIp : UInt32) (sequence : UInt16) :
    PingInv (icmpAnswer srcIp sequence (s.log (.answered srcIp sequence))) := by
  have hlog : PingInv (s.log (.answered srcIp sequence)) := fun i hi => .inr (h i hi)
  rw [icmpAnswer]
  split
  · next i hi =>
    rw [pingPending] at hi
    have hpending := List.find?_some hi
    obtain ⟨hip, hseq, -⟩ := of_decide_eq_true hpending
    exact pingInv_update hlog fun _ => .inl ⟨hip.symm, hseq.symm⟩
  · exact hlog

/-- **Receiving keeps the invariant.** -/
theorem NetStep.pingInv {s s' : NetState} (hstep : NetStep s s') (h : PingInv s) : PingInv s' := by
  cases hstep with
  | sent frame => exact h
  | polled _ => exact h
  | learned cache => exact h
  | numbered => exact h
  | called callback srcIp srcPort payload length =>
    obtain ⟨-, htrace, hstates, -⟩ := udpCallback_call_frame callback srcIp srcPort payload length
      (s.log (.called callback srcIp srcPort (payload.bytes 0 length.toNat)))
    have hlog : PingInv (s.log (.called callback srcIp srcPort (payload.bytes 0 length.toNat))) := h
    exact hlog.of_eq hstates htrace
  | answered srcIp sequence => exact icmpAnswer_pingInv h srcIp sequence

theorem NetSteps.pingInv {s s' : NetState} (hsteps : NetSteps s s') (h : PingInv s) :
    PingInv s' := by
  induction hsteps with
  | refl => exact h
  | tail _ hstep ih => exact hstep.pingInv ih

/-- **A fresh request keeps the invariant.** -/
theorem pingStart_pingInv {s : NetState} (h : PingInv s) {destIp : UInt32} {sequence : UInt16}
    (hfresh : FreshPing destIp sequence s) (id : UInt16) :
    PingInv (pingStart destIp sequence (s.log (.pinged destIp id sequence))) := by
  have hkept : ∀ i, pingSlot s ≠ some i → (s.pingStates i).received →
      AnsweredSince (s.pingStates i).ip (s.pingStates i).sequence
        (.pinged destIp id sequence :: s.trace) :=
    fun i hi hr => ⟨fun e => hi (hfresh i hr e.1.symm e.2.symm), h i hr⟩
  have hslot : pingSlot (s.log (.pinged destIp id sequence)) = pingSlot s := rfl
  rw [pingStart, hslot]
  cases hs : pingSlot s with
  | none =>
    intro i hi
    exact hkept i (by rw [hs]; exact (Option.some_ne_none i).symm) hi
  | some slot =>
    intro j hj
    by_cases hjs : j = slot
    · subst hjs
      simp only [Function.update_self] at hj
      cases hj
    · simp only [Function.update_of_ne hjs] at hj ⊢
      exact hkept j (by rw [hs]; exact fun e => hjs (Option.some.inj e).symm) hj

def FreshOp (op : NetOp) (s : NetState) : Prop :=
  ∀ destIp id sequence, op = .ping destIp id sequence → FreshPing destIp sequence s

theorem PingInv.step {s : NetState} (h : PingInv s) (op : NetOp) (hop : FreshOp op s) :
    PingInv (op.apply s) := by
  cases op with
  | arrive packets => exact h
  | receive frame length => exact (ethReceiveFrame_steps frame length s).pingInv h
  | ping destIp id sequence =>
    have hstart := pingStart_pingInv h (hop destIp id sequence rfl) id
    simp only [NetOp.apply, icmpSendEchoRequest]
    exact (ipSend_steps ethReceiveFrame_steps _ _ _ _).pingInv hstart
  | wait destIp sequence timeoutMs =>
    simp only [NetOp.apply, icmpWaitReply]
    exact waitLoop_keeps (fun t ht => (poll_steps t).pingInv ht) (fun _ ht => ht) _ _ _ _ _ h
  | resolve hostname =>
    have hreset : PingInv (dnsReset s) := h.of_eq rfl rfl
    have hsteps := dnsAsk_steps hostname s
    simp only [NetOp.apply, dnsResolve]
    generalize dnsAsk hostname s = asked at hsteps ⊢
    split
    · exact h
    · exact hsteps.pingInv hreset
  | sync localTime =>
    have hreset : PingInv (ntpReset s) := h.of_eq rfl rfl
    have hsteps := ntpAsk_steps localTime s
    simp only [NetOp.apply, ntpSyncTime]
    generalize ntpAsk localTime s = asked at hsteps ⊢
    exact hsteps.pingInv hreset
  | setIp ip => exact h
  | setDnsServer ip => exact h
  | setNtpServer ip => exact h

theorem waitLoop_true {destIp : UInt32} {sequence : UInt16} {startTime timeoutMs : UInt32}
    {rounds : Nat} {s : NetState}
    (h : (waitLoop destIp sequence startTime timeoutMs rounds s).1 = true) :
    pingAnswered (waitLoop destIp sequence startTime timeoutMs rounds s).2 destIp sequence := by
  induction rounds generalizing s with
  | zero => cases h
  | succ rounds ih =>
    simp only [waitLoop] at h ⊢
    split at h
    · next hlt =>
      rw [if_pos hlt]
      split at h
      · next hans =>
        rw [if_pos hans]
        exact hans
      · next hans =>
        rw [if_neg hans]
        exact ih h
    · cases h

theorem PingInv.answered {s : NetState} (h : PingInv s) {destIp : UInt32} {sequence : UInt16}
    (hans : pingAnswered s destIp sequence) : AnsweredSince destIp sequence s.trace := by
  obtain ⟨i, -, hi⟩ := List.any_eq_true.mp hans
  obtain ⟨rfl, rfl, hreceived⟩ := of_decide_eq_true hi
  exact h i hreceived

/-- **In a run whose requests are all fresh, a ping success is real.** -/
theorem ping_success_real {s : NetState}
    (hs : Reached (fun s => ∃ s₀, s = icmpInit s₀) NetOp.apply FreshOp s)
    {destIp : UInt32} {sequence : UInt16} {timeoutMs : UInt32}
    (h : (icmpWaitReply destIp sequence timeoutMs s).1 = true) :
    AnsweredSince destIp sequence (icmpWaitReply destIp sequence timeoutMs s).2.trace := by
  have hinv : PingInv s := by
    refine hs.invariant ?_ fun s op ih hop => ih.step op hop
    rintro s ⟨s₀, rfl⟩
    exact pingInv_icmpInit s₀
  exact (hinv.step (.wait destIp sequence timeoutMs) nofun).answered (waitLoop_true h)

/-- An echo reply from 10.0.2.2 with the sequence number 1. -/
def replyFrame : List UInt8 :=
  ethHeaderLayout.enc ⟨broadcastMac, CArray.zero, htons ethTypeIp⟩ ++
    ipHeaderLayout.enc ⟨0x45, 0, htons 28, 0, 0, 64, ipProtoIcmp, 0, htonl 0x0A000202,
      htonl 0x0A00020F⟩ ++
    icmpHeaderLayout.enc ⟨icmpTypeEchoReply, icmpCodeEcho, 0, htons 1234, htons 1⟩

/-- 10.0.2.2 has been pinged and has replied. -/
def repliedNet : NetState :=
  (NetOp.receive (.ofList replyFrame) 42).apply
    ((NetOp.ping 0x0A000202 1234 1).apply (icmpInit kernelNet))

theorem repliedNet_success :
    (icmpWaitReply 0x0A000202 1 1000 repliedNet).1 = true ∧
    AnsweredSince 0x0A000202 1 (icmpWaitReply 0x0A000202 1 1000 repliedNet).2.trace := by
  have hwait : (icmpWaitReply 0x0A000202 1 1000 repliedNet).1 = true := by decide +kernel
  refine ⟨hwait, ping_success_real (.next (.next (.start ⟨kernelNet, rfl⟩) ?_) ?_) hwait⟩
  · rintro destIp id sequence - i hi
    cases hi
  · exact nofun

/-- It is pinged again with the same sequence number: the wait succeeds without a reply. -/
theorem repeated_ping_success :
    Reached (fun s => ∃ s₀, s = icmpInit s₀) NetOp.apply (fun _ _ => True)
      ((NetOp.ping 0x0A000202 1234 1).apply repliedNet) ∧
    (icmpWaitReply 0x0A000202 1 1000 ((NetOp.ping 0x0A000202 1234 1).apply repliedNet)).1 = true ∧
    ¬ AnsweredSince 0x0A000202 1
      (icmpWaitReply 0x0A000202 1 1000 ((NetOp.ping 0x0A000202 1234 1).apply repliedNet)).2.trace :=
  ⟨.next (.next (.next (.start ⟨kernelNet, rfl⟩) trivial) trivial) trivial, by decide +kernel,
    by decide +kernel⟩

end EphemeralOS
