import EphemeralOS.Net.Answers
import EphemeralOS.Net.Parser
import EphemeralOS.Net.Replies

/-!
# Whose answer `dns_resolve` takes

`dns_response_handler` ignores the source of a datagram and its id, and each
datagram with an answer overwrites the result. A call returns the answer of the
last such datagram handled while it sends and polls (`dnsResolve_eq_some`), and
so it takes only the answer to its own query exactly if that datagram comes
from `dns_server` and carries the id of the query, or carries 0.0.0.0
(`resolve_own_answer_iff`).
-/

namespace EphemeralOS

open Run

/-- What `dns_response_handler` is called with. -/
structure Datagram where
  srcIp : UInt32
  srcPort : UInt16
  payload : List UInt8
  deriving DecidableEq

def NetEvent.datagram : NetEvent → Option Datagram
  | .called .dnsResponseHandler srcIp srcPort payload => some ⟨srcIp, srcPort, payload⟩
  | _ => none

/-- The address that the handler takes from a datagram. -/
def Datagram.answer (d : Datagram) : Option UInt32 :=
  dnsAnswer (.ofList d.payload) (UInt16.ofNat d.payload.length)

/-- The result variables: `resolution_complete` and `resolved_ip`. -/
def NetState.result (s : NetState) : Bool × UInt32 := (s.resolutionComplete, s.resolvedIp)

/-- The last datagram with an answer, in events of which the latest is the first. -/
def lastAnswered (events : List NetEvent) : Option Datagram :=
  (events.filterMap NetEvent.datagram).find? (·.answer.isSome)

theorem lastAnswered_answer {events : List NetEvent} {d : Datagram}
    (h : lastAnswered events = some d) : ∃ ip, d.answer = some ip := by
  rw [lastAnswered] at h
  have hsome := List.find?_some h
  exact Option.isSome_iff_exists.mp hsome

/-- The result after events: the last answer overwrites it. -/
def resultAfter (events : List NetEvent) (r : Bool × UInt32) : Bool × UInt32 :=
  match lastAnswered events with
  | some d => (true, d.answer.getD 0)
  | none => r

theorem resultAfter_append (later earlier : List NetEvent) (r : Bool × UInt32) :
    resultAfter (later ++ earlier) r = resultAfter later (resultAfter earlier r) := by
  simp only [resultAfter, lastAnswered, List.filterMap_append, List.find?_append]
  cases (later.filterMap NetEvent.datagram).find? (·.answer.isSome) with
  | some d => rfl
  | none => rfl

theorem datagram_answer (payload : Memory) (length srcPort : UInt16) (srcIp : UInt32) :
    Datagram.answer ⟨srcIp, srcPort, payload.bytes 0 length.toNat⟩ = dnsAnswer payload length := by
  rw [Datagram.answer, Memory.length_bytes, UInt16.ofNat_toNat]
  refine dnsAnswer_congr fun i hi => ?_
  simp [Memory.ofList, Memory.bytes, hi]

theorem dnsResponseHandler_result (srcIp : UInt32) (srcPort : UInt16) (payload : Memory)
    (length : UInt16) (s : NetState) :
    (dnsResponseHandler srcIp srcPort payload length s).result =
      resultAfter [.called .dnsResponseHandler srcIp srcPort (payload.bytes 0 length.toNat)]
        s.result := by
  have hanswer := datagram_answer payload length srcPort srcIp
  simp only [resultAfter, lastAnswered, List.filterMap_cons, NetEvent.datagram,
    List.filterMap_nil, List.find?_singleton, hanswer, dnsResponseHandler]
  cases hans : dnsAnswer payload length with
  | some ip =>
    rw [hans] at hanswer
    simp only [Option.isSome_some, if_true, hanswer, Option.getD_some]
    rfl
  | none => rfl

theorem ntpResponseHandler_result (srcIp : UInt32) (srcPort : UInt16) (payload : Memory)
    (length : UInt16) (s : NetState) :
    (ntpResponseHandler srcIp srcPort payload length s).result = s.result := by
  have hframe : ∀ {t : NetState}, (∃ a b, t = { s with syncedTimestamp := a, syncComplete := b }) →
      t.result = s.result := by
    rintro t ⟨a, b, rfl⟩
    rfl
  refine hframe ?_
  simp only [ntpResponseHandler]
  split <;> [skip; split <;> [skip; split]] <;> exact ⟨_, _, rfl⟩

/-- **One step changes the result only by an answer.** -/
theorem NetStep.result {s s' : NetState} (h : NetStep s s') :
    ∃ es, s'.trace = es ++ s.trace ∧ s'.result = resultAfter es s.result := by
  cases h with
  | sent frame => exact ⟨[_], rfl, rfl⟩
  | polled h => exact ⟨[], rfl, rfl⟩
  | learned cache => exact ⟨[], rfl, rfl⟩
  | numbered => exact ⟨[], rfl, rfl⟩
  | called callback srcIp srcPort payload length =>
    obtain ⟨-, htrace, -⟩ := udpCallback_call_frame callback srcIp srcPort payload length
      (s.log (.called callback srcIp srcPort (payload.bytes 0 length.toNat)))
    refine ⟨[_], htrace, ?_⟩
    cases callback with
    | dnsResponseHandler => exact dnsResponseHandler_result srcIp srcPort payload length (s.log _)
    | ntpResponseHandler => exact ntpResponseHandler_result srcIp srcPort payload length (s.log _)
    | other n => rfl
  | answered srcIp sequence =>
    obtain ⟨pingStates, h⟩ := icmpAnswer_frame srcIp sequence (s.log (.answered srcIp sequence))
    rw [h]
    exact ⟨[_], rfl, rfl⟩

theorem NetSteps.result {s s' : NetState} (h : NetSteps s s') :
    ∃ es, s'.trace = es ++ s.trace ∧ s'.result = resultAfter es s.result := by
  induction h with
  | refl => exact ⟨[], rfl, rfl⟩
  | tail _ hstep ih =>
    obtain ⟨es, htrace, hresult⟩ := ih
    obtain ⟨es', htrace', hresult'⟩ := hstep.result
    refine ⟨es' ++ es, ?_, ?_⟩
    · rw [htrace', htrace, List.append_assoc]
    · rw [hresult', hresult, resultAfter_append]

/-! ## One call -/

def callEvents (hostname : List UInt8) (s : NetState) : List NetEvent :=
  (dnsAsk hostname s).trace.take ((dnsAsk hostname s).trace.length - s.trace.length)

/-- The last datagram with an answer that is handled during a call. -/
def decisive (hostname : List UInt8) (s : NetState) : Option Datagram :=
  lastAnswered (callEvents hostname s)

/-- From `dns_server`, with the id that the call put in its query. -/
def Genuine (hostname : List UInt8) (s : NetState) (d : Datagram) : Prop :=
  d.srcIp = s.dnsServer ∧
    (dnsHeaderLayout.dec d.payload).id =
      (dnsHeaderLayout.dec (dnsQuery s.dnsTransactionId hostname)).id

/-- **A call returns the answer of the last datagram with one.** -/
theorem dnsResolve_eq_some {hostname : List UInt8} (hname : isIpAddress hostname = false)
    (s : NetState) (ip : UInt32) : (dnsResolve hostname s).1 = some ip ↔
      ip ≠ 0 ∧ ∃ d, decisive hostname s = some d ∧ d.answer = some ip := by
  obtain ⟨es, htrace, hresult⟩ := (dnsAsk_steps hostname s).result
  have hlen : (dnsAsk hostname s).trace.length - s.trace.length = es.length := by
    rw [htrace, List.length_append]
    exact Nat.add_sub_cancel _ _
  have hdecisive : decisive hostname s = lastAnswered es := by
    rw [decisive, callEvents, hlen, htrace, List.take_left]
  have hcall : (dnsResolve hostname s).1 =
      if (dnsAsk hostname s).result.1 ∧ (dnsAsk hostname s).result.2 ≠ 0
        then some (dnsAsk hostname s).result.2 else none := by
    rw [dnsResolve, hname]
    rfl
  rw [hcall, hresult, hdecisive, resultAfter]
  cases hlast : lastAnswered es with
  | none =>
    -- no answer: the result is what `dnsReset` has set
    rw [if_neg fun h => Bool.false_ne_true h.1]
    constructor
    · intro h
      cases h
    · rintro ⟨-, d, hd, -⟩
      cases hd
  | some d =>
    obtain ⟨a, ha⟩ := lastAnswered_answer hlast
    simp only [ha, Option.getD_some, true_and]
    constructor
    · intro h
      split at h
      · next h0 =>
        cases h
        exact ⟨h0, d, rfl, ha⟩
      · cases h
    · rintro ⟨h0, d', hd, hip⟩
      cases hd
      rw [ha] at hip
      cases hip
      rw [if_pos h0]

/-! ## Runs -/

/-- An event that is a call of `dns_resolve` for a host name returns only an address that comes from
a genuine datagram. -/
def OwnAnswer (op : NetOp) (s : NetState) : Prop :=
  ∀ hostname, op = .resolve hostname → isIpAddress hostname = false →
    ∀ ip, (dnsResolve hostname s).1 = some ip →
      ∃ d, decisive hostname s = some d ∧ d.answer = some ip ∧ Genuine hostname s d

/-- The last datagram with an answer is genuine, or its answer is 0.0.0.0. -/
def GenuineLast (op : NetOp) (s : NetState) : Prop :=
  ∀ hostname, op = .resolve hostname → isIpAddress hostname = false →
    ∀ d, decisive hostname s = some d → Genuine hostname s d ∨ d.answer = some 0

theorem ownAnswer_iff (op : NetOp) (s : NetState) : OwnAnswer op s ↔ GenuineLast op s := by
  constructor
  · intro h hostname hop hname d hd
    obtain ⟨ip, hip⟩ := lastAnswered_answer hd
    by_cases h0 : ip = 0
    · exact .inr (h0 ▸ hip)
    · obtain ⟨d', hd', -, hgen⟩ :=
        h hostname hop hname ip ((dnsResolve_eq_some hname s ip).mpr ⟨h0, d, hd, hip⟩)
      rw [hd] at hd'
      cases hd'
      exact .inl hgen
  · intro h hostname hop hname ip hcall
    obtain ⟨h0, d, hd, hip⟩ := (dnsResolve_eq_some hname s ip).mp hcall
    refine ⟨d, hd, hip, (h hostname hop hname d hd).resolve_right fun hz => h0 ?_⟩
    rw [hip] at hz
    exact Option.some.inj hz

/-- **In every run, `dns_resolve` takes only answers to its own queries exactly if in each call the
last datagram with an answer is genuine or says 0.0.0.0.** -/
theorem resolve_own_answer_iff (ops : List NetOp) (s : NetState) :
    Every NetOp.apply OwnAnswer ops s ↔ Every NetOp.apply GenuineLast ops s :=
  every_congr ownAnswer_iff ops s

/-- An answer for `os.org` that no query asked for: from 10.9.9.9, with the id 7. -/
def forged : Datagram :=
  ⟨0x0A090909, 4444, Dns.Response.wire { sampleResponse sampleName with id := 7 }⟩

def forgedFrame : List UInt8 :=
  ethHeaderLayout.enc ⟨broadcastMac, CArray.zero, htons ethTypeIp⟩ ++
    ipHeaderLayout.enc ⟨0x45, 0, htons 74, 0, 0, 64, ipProtoUdp, 0, htonl forged.srcIp,
      htonl 0x0A00020F⟩ ++
    udpHeaderLayout.enc ⟨htons forged.srcPort, htons dnsPort, htons 54, 0⟩ ++ forged.payload

/-- The first query of the kernel has the id 1 and goes to 10.0.2.3; the forged answer is taken. -/
theorem forged_answer_taken : ¬ Every NetOp.apply OwnAnswer
    [.arrive [some ⟨.ofList forgedFrame, 88⟩], .resolve (ascii "os.org")] kernelNet := by
  have hcall : (dnsResolve (ascii "os.org")
      ((NetOp.arrive [some ⟨.ofList forgedFrame, 88⟩]).apply kernelNet)).1 = some 0x0A000202 := by
    decide +kernel
  have hlast : decisive (ascii "os.org")
      ((NetOp.arrive [some ⟨.ofList forgedFrame, 88⟩]).apply kernelNet) = some forged := by
    decide +kernel
  rintro ⟨-, h, -⟩
  obtain ⟨d, hd, -, hsource, -⟩ := h _ rfl (by decide) _ hcall
  rw [hlast] at hd
  cases hd
  exact absurd hsource (by decide +kernel)

end EphemeralOS
