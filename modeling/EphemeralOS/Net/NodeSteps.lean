import Mathlib.Data.List.Infix
import EphemeralOS.Net.ColdStart

/-!
# What a node sends and learns

A node sends ARP requests, ARP replies and IP packets, learns addresses from ARP
packets, and notes the answers to its pings. `NodeStep` says when it does one of
these, in terms of the packets that it has heard; what else it does is left open
(`NetQuiet`). Receiving and all calls are sequences of such steps
(`ethReceiveFrame_nodeSteps`, `NetOp.nodeSteps`).
-/

namespace EphemeralOS

open Relation

/-- Nothing is sent, learned or answered; a UDP callback may be called. -/
structure NetQuiet (s s' : NetState) : Prop where
  initialized : s'.initialized = s.initialized
  ipAddress : s'.ipAddress = s.ipAddress
  localMac : s'.localMac = s.localMac
  arpCache : s'.arpCache = s.arpCache
  pingStates : s'.pingStates = s.pingStates
  arrivals : s'.arrivals <:+ s.arrivals
  trace : s'.trace = s.trace ∨ ∃ callback srcIp srcPort payload,
    s'.trace = .called callback srcIp srcPort payload :: s.trace

/-- A packet of which `icmp_receive` gets a message of `n` bytes, from `srcIp`. -/
inductive ToIcmp (localIp : UInt32) (p : Packet) : UInt32 → Memory → UInt16 → Prop
  | intro {off n srcIp off' n'} : ethPayload p.bytes p.length = some (.ip, off, n) →
      ipPayload localIp (p.bytes.shift off) n = some (ipProtoIcmp, srcIp, off', n') → ¬ n' < 8 →
      ToIcmp localIp p srcIp ((p.bytes.shift off).shift off') n'

def icmpHeaderAt (m : Memory) : IcmpHeader := icmpHeaderLayout.dec (m.bytes 0 8)

/-- What a node may be asked to send: to which address, of which protocol, and what. -/
abbrev Asking := UInt32 → UInt8 → List UInt8 → Prop

/-- What `ip_send` is given: what the node is asked to send, or the answer to an echo request that
has been heard. -/
inductive Message (heard : Packet → Prop) (asks : Asking) (localIp : UInt32) : Asking
  | asked {destIp protocol data} : asks destIp protocol data →
      Message heard asks localIp destIp protocol data
  | answer {p srcIp m n} : heard p → ToIcmp localIp p srcIp m n →
      (icmpHeaderAt m).type = icmpTypeEchoRequest →
      Message heard asks localIp srcIp ipProtoIcmp (echoReply m n)

/-- A step of a node that has heard the packets `heard`. -/
inductive NodeStep (heard : Packet → Prop) (asks : NetState → Asking) (s : NetState) :
    NetState → Prop
  | quiet {s' : NetState} : NetQuiet s s' → NodeStep heard asks s s'
  | arrived {packets : List (Option Packet)} : (∀ p, some p ∈ packets → heard p) →
      NodeStep heard asks s { s with arrivals := s.arrivals ++ packets }
  | asked (targetIp : UInt32) : NodeStep heard asks s (arpSendRequest targetIp s)
  | arp {p : Packet} {off : Nat} {n : UInt16} : heard p →
      ethPayload p.bytes p.length = some (.arp, off, n) →
      NodeStep heard asks s (arpReceive (p.bytes.shift off) n s)
  | pinged (destIp : UInt32) (id sequence : UInt16) :
      NodeStep heard asks s (pingStart destIp sequence (s.log (.pinged destIp id sequence)))
  | answered {p : Packet} {srcIp : UInt32} {m : Memory} {n sequence : UInt16} : heard p →
      ToIcmp s.ipAddress p srcIp m n → (icmpHeaderAt m).type = icmpTypeEchoReply →
      sequence = ntohs (icmpHeaderAt m).sequence →
      NodeStep heard asks s (icmpAnswer srcIp sequence (s.log (.answered srcIp sequence)))
  | sent {destIp : UInt32} {protocol : UInt8} {data : List UInt8} {mac : Mac} (id : UInt16) :
      Message heard (asks s) s.ipAddress destIp protocol data →
      ¬ ipHeaderMinLen + UInt16.ofNat data.length > 1500 →
      arpResolve (ipTarget s.ipAddress destIp) s = some mac →
      NodeStep heard asks s (ethSendFrame mac ethTypeIp
        ((ipPacket { s with ipIdCounter := id } destIp protocol data).take
          (ipHeaderMinLen + UInt16.ofNat data.length).toNat) s)

abbrev NodeSteps (heard : Packet → Prop) (asks : NetState → Asking) : NetState → NetState → Prop :=
  ReflTransGen (NodeStep heard asks)

/-- What could be asked for can be as the history goes on. -/
def Lasting (asks : NetState → Asking) : Prop :=
  ∀ {s s' : NetState}, s.trace <:+ s'.trace → ∀ {destIp protocol data},
    asks s destIp protocol data → asks s' destIp protocol data

def Heard (heard : Packet → Prop) (s : NetState) : Prop := ∀ p, some p ∈ s.arrivals → heard p

/-! ## What a step keeps -/

theorem NetQuiet.refl (s : NetState) : NetQuiet s s :=
  ⟨rfl, rfl, rfl, rfl, rfl, List.suffix_refl _, .inl rfl⟩

theorem NetQuiet.outbox {s s' : NetState} (h : NetQuiet s s') : s'.outbox = s.outbox := by
  rcases h.trace with h | ⟨callback, srcIp, srcPort, payload, h⟩
  · rw [NetState.outbox, h]
    rfl
  · rw [NetState.outbox, h]
    exact outbox_log_other (e := .called callback srcIp srcPort payload) rfl s

theorem networkSendPacket_cases (data : List UInt8) (s : NetState) :
    networkSendPacket data s = s ∨
      networkSendPacket data s =
        s.log (.sent (data ++ List.replicate (60 - data.length) 0)) := by
  rw [networkSendPacket]
  split
  · exact .inl rfl
  · exact .inr rfl

/-- Sending leaves everything but the history as it is. -/
theorem ethSendFrame_cases (destMac : Mac) (ethType : UInt16) (data : List UInt8) (s : NetState) :
    ethSendFrame destMac ethType data s = s ∨
      ∃ frame, ethSendFrame destMac ethType data s = s.log (.sent frame) := by
  simp only [ethSendFrame]
  split
  · exact .inl rfl
  · rcases networkSendPacket_cases _ s with h | h
    · exact .inl h
    · exact .inr ⟨_, h⟩

structure SameNode (s s' : NetState) : Prop where
  initialized : s'.initialized = s.initialized
  ipAddress : s'.ipAddress = s.ipAddress
  localMac : s'.localMac = s.localMac

theorem SameNode.trans {s s' s'' : NetState} (h : SameNode s s') (h' : SameNode s' s'') :
    SameNode s s'' :=
  ⟨h'.initialized.trans h.initialized, h'.ipAddress.trans h.ipAddress,
    h'.localMac.trans h.localMac⟩

theorem sameNode_ethSendFrame (destMac : Mac) (ethType : UInt16) (data : List UInt8)
    (s : NetState) : SameNode s (ethSendFrame destMac ethType data s) ∧
      (ethSendFrame destMac ethType data s).arrivals = s.arrivals ∧
      (ethSendFrame destMac ethType data s).arpCache = s.arpCache ∧
      (ethSendFrame destMac ethType data s).pingStates = s.pingStates := by
  rcases ethSendFrame_cases destMac ethType data s with h | ⟨frame, h⟩
  · rw [h]
    exact ⟨⟨rfl, rfl, rfl⟩, rfl, rfl, rfl⟩
  · rw [h]
    exact ⟨⟨rfl, rfl, rfl⟩, rfl, rfl, rfl⟩

/-- The packet that `arp_receive` does not drop. -/
def arpAccepted (data : Memory) (length : UInt16) : Option ArpPacket :=
  if length < 28 then none else
  let arp := arpPacketLayout.dec (data.bytes 0 28)
  if ntohs arp.htype ≠ arpHtypeEthernet ∨ ntohs arp.ptype ≠ arpPtypeIpv4 then none else some arp

/-- A request for the address `localIp`. -/
def ArpPacket.AsksFor (localIp : UInt32) (a : ArpPacket) : Prop :=
  ntohs a.oper = arpOperRequest ∧ ntohl a.tpa = localIp

instance (localIp : UInt32) (a : ArpPacket) : Decidable (a.AsksFor localIp) :=
  inferInstanceAs (Decidable (_ ∧ _))

theorem arpAccepted_some {data : Memory} {length : UInt16} {a : ArpPacket}
    (h : arpAccepted data length = some a) : a = arpPacketLayout.dec (data.bytes 0 28) := by
  simp only [arpAccepted] at h
  split at h
  · cases h
  split at h
  · cases h
  · exact (Option.some.inj h).symm

/-- What `arp_receive` does: it learns the sender's address, and answers a request for its own. -/
theorem arpReceive_cases (data : Memory) (length : UInt16) (s : NetState) :
    arpReceive data length s = s ∨ ∃ a, arpAccepted data length = some a ∧
      (arpReceive data length s = arpAddEntry (ntohl a.spa) a.sha s ∨
        a.AsksFor s.ipAddress ∧ arpReceive data length s =
          ethSendFrame a.sha ethTypeArp (arpPacketLayout.enc
            (arpPacket arpOperReply s.localMac s.ipAddress a.sha (ntohl a.spa)))
            (arpAddEntry (ntohl a.spa) a.sha s)) := by
  simp only [arpReceive, arpAccepted]
  split <;> [exact .inl rfl; skip]
  split <;> [exact .inl rfl; skip]
  refine .inr ⟨_, rfl, ?_⟩
  split
  · next h =>
    refine .inr ⟨h, ?_⟩
    simp only [arpPacket, ntohl, htonl_htonl]
    rfl
  · exact .inl rfl

/-- It leaves what waits and the pings alone, and sends one frame or none. -/
theorem sameNode_arpReceive (data : Memory) (length : UInt16) (s : NetState) :
    SameNode s (arpReceive data length s) ∧ (arpReceive data length s).arrivals = s.arrivals ∧
      (arpReceive data length s).pingStates = s.pingStates ∧
      ((arpReceive data length s).trace = s.trace ∨
        ∃ frame, (arpReceive data length s).trace = .sent frame :: s.trace) := by
  rcases arpReceive_cases data length s with h | ⟨a, -, h | ⟨-, h⟩⟩
  · rw [h]
    exact ⟨⟨rfl, rfl, rfl⟩, rfl, rfl, .inl rfl⟩
  · rw [h]
    exact ⟨⟨rfl, rfl, rfl⟩, rfl, rfl, .inl rfl⟩
  · rw [h]
    rcases ethSendFrame_cases a.sha ethTypeArp (arpPacketLayout.enc
      (arpPacket arpOperReply s.localMac s.ipAddress a.sha (ntohl a.spa)))
      (arpAddEntry (ntohl a.spa) a.sha s) with h | ⟨frame, h⟩
    · rw [h]
      exact ⟨⟨rfl, rfl, rfl⟩, rfl, rfl, .inl rfl⟩
    · rw [h]
      exact ⟨⟨rfl, rfl, rfl⟩, rfl, rfl, .inr ⟨frame, rfl⟩⟩

theorem NodeStep.sameNode {heard : Packet → Prop} {asks : NetState → Asking} {s s' : NetState}
    (h : NodeStep heard asks s s') : SameNode s s' := by
  cases h with
  | quiet h => exact ⟨h.initialized, h.ipAddress, h.localMac⟩
  | arrived h => exact ⟨rfl, rfl, rfl⟩
  | asked targetIp =>
    rw [arpSendRequest]
    exact (sameNode_ethSendFrame _ _ _ s).1
  | arp h heth => exact (sameNode_arpReceive _ _ s).1
  | pinged destIp id sequence =>
    obtain ⟨pingStates, h⟩ := pingStart_frame destIp sequence (s.log (.pinged destIp id sequence))
    rw [h]
    exact ⟨rfl, rfl, rfl⟩
  | answered hp hm htype hseq =>
    next p srcIp m n sequence =>
    obtain ⟨pingStates, h⟩ := icmpAnswer_frame srcIp sequence (s.log (.answered srcIp sequence))
    rw [h]
    exact ⟨rfl, rfl, rfl⟩
  | sent id h hlen hmac => exact (sameNode_ethSendFrame _ _ _ s).1

theorem NodeSteps.sameNode {heard : Packet → Prop} {asks : NetState → Asking} {s s' : NetState}
    (h : NodeSteps heard asks s s') : SameNode s s' := by
  induction h with
  | refl => exact ⟨rfl, rfl, rfl⟩
  | tail _ hstep ih => exact ih.trans hstep.sameNode

theorem NodeStep.heard {heard : Packet → Prop} {asks : NetState → Asking} {s s' : NetState}
    (h : NodeStep heard asks s s') (hs : Heard heard s) : Heard heard s' := by
  have hsame : ∀ {t : NetState}, t.arrivals = s.arrivals → Heard heard t :=
    fun ht p hp => hs p (ht ▸ hp)
  cases h with
  | quiet h => exact fun p hp => hs p (h.arrivals.mem hp)
  | arrived h =>
    intro p hp
    rcases List.mem_append.mp hp with hp | hp
    · exact hs p hp
    · exact h p hp
  | asked targetIp => exact hsame (sameNode_ethSendFrame _ _ _ s).2.1
  | arp h heth => exact hsame (sameNode_arpReceive _ _ s).2.1
  | pinged destIp id sequence =>
    obtain ⟨pingStates, h⟩ := pingStart_frame destIp sequence (s.log (.pinged destIp id sequence))
    rw [h]
    exact hs
  | answered hp hm htype hseq =>
    next p srcIp m n sequence =>
    obtain ⟨pingStates, h⟩ := icmpAnswer_frame srcIp sequence (s.log (.answered srcIp sequence))
    rw [h]
    exact hs
  | sent id h hlen hmac => exact hsame (sameNode_ethSendFrame _ _ _ s).2.1

theorem NodeSteps.heard {heard : Packet → Prop} {asks : NetState → Asking} {s s' : NetState}
    (h : NodeSteps heard asks s s') (hs : Heard heard s) : Heard heard s' := by
  induction h with
  | refl => exact hs
  | tail _ hstep ih => exact hstep.heard ih

theorem trace_ethSendFrame (destMac : Mac) (ethType : UInt16) (data : List UInt8) (s : NetState) :
    s.trace <:+ (ethSendFrame destMac ethType data s).trace := by
  rcases ethSendFrame_cases destMac ethType data s with h | ⟨frame, h⟩
  · rw [h]
  · rw [h]
    exact List.suffix_cons _ _

theorem NodeStep.trace {heard : Packet → Prop} {asks : NetState → Asking} {s s' : NetState}
    (h : NodeStep heard asks s s') : s.trace <:+ s'.trace := by
  cases h with
  | quiet h =>
    rcases h.trace with h | ⟨callback, srcIp, srcPort, payload, h⟩
    · exact h ▸ List.suffix_refl _
    · exact h ▸ List.suffix_cons _ _
  | arrived h => exact List.suffix_refl _
  | asked targetIp => exact trace_ethSendFrame _ _ _ s
  | arp h heth =>
    rcases (sameNode_arpReceive _ _ s).2.2.2 with h | ⟨frame, h⟩
    · exact h ▸ List.suffix_refl _
    · exact h ▸ List.suffix_cons _ _
  | pinged destIp id sequence =>
    obtain ⟨pingStates, h⟩ := pingStart_frame destIp sequence (s.log (.pinged destIp id sequence))
    rw [h]
    exact List.suffix_cons _ _
  | answered hp hm htype hseq =>
    next p srcIp m n sequence =>
    obtain ⟨pingStates, h⟩ := icmpAnswer_frame srcIp sequence (s.log (.answered srcIp sequence))
    rw [h]
    exact List.suffix_cons _ _
  | sent id h hlen hmac => exact trace_ethSendFrame _ _ _ s

theorem NodeSteps.trace {heard : Packet → Prop} {asks : NetState → Asking} {s s' : NetState}
    (h : NodeSteps heard asks s s') : s.trace <:+ s'.trace := by
  induction h with
  | refl => exact List.suffix_refl _
  | tail _ hstep ih => exact ih.trans hstep.trace

theorem Message.mono {heard heard' : Packet → Prop} {asks asks' : Asking} {localIp destIp : UInt32}
    {protocol : UInt8} {data : List UInt8} (h : Message heard asks localIp destIp protocol data)
    (hheard : ∀ p, heard p → heard' p)
    (hasks : asks destIp protocol data → asks' destIp protocol data) :
    Message heard' asks' localIp destIp protocol data := by
  cases h with
  | asked h => exact .asked (hasks h)
  | answer hp hm htype => exact .answer (hheard _ hp) hm htype

theorem NodeStep.mono {heard heard' : Packet → Prop} {asks asks' : NetState → Asking}
    {s s' : NetState} (h : NodeStep heard asks s s') (hheard : ∀ p, heard p → heard' p)
    (hasks : ∀ {destIp protocol data}, asks s destIp protocol data →
      asks' s destIp protocol data) : NodeStep heard' asks' s s' := by
  cases h with
  | quiet h => exact .quiet h
  | arrived h => exact .arrived fun p hp => hheard p (h p hp)
  | asked targetIp => exact .asked targetIp
  | arp h heth => exact .arp (hheard _ h) heth
  | pinged destIp id sequence => exact .pinged destIp id sequence
  | answered hp hm htype hseq => exact .answered (hheard _ hp) hm htype hseq
  | sent id h hlen hmac => exact .sent id (h.mono hheard hasks) hlen hmac

/-! ## Receiving -/

theorem quiet_call (callback : UdpCallback) (srcIp : UInt32) (srcPort : UInt16) (payload : Memory)
    (length : UInt16) (s : NetState) (bytes : List UInt8) :
    NetQuiet s (callback.call srcIp srcPort payload length
      (s.log (.called callback srcIp srcPort bytes))) := by
  obtain ⟨harr, htrace, hpings, -, hip, -⟩ := udpCallback_call_frame callback srcIp srcPort payload
    length (s.log (.called callback srcIp srcPort bytes))
  have hrest : ∀ t : NetState, (callback.call srcIp srcPort payload length t).initialized =
      t.initialized ∧ (callback.call srcIp srcPort payload length t).localMac = t.localMac ∧
      (callback.call srcIp srcPort payload length t).arpCache = t.arpCache := by
    intro t
    cases callback with
    | dnsResponseHandler =>
      simp only [UdpCallback.call, dnsResponseHandler]
      split <;> exact ⟨rfl, rfl, rfl⟩
    | ntpResponseHandler =>
      simp only [UdpCallback.call, ntpResponseHandler]
      split <;> [skip; split <;> [skip; split]] <;> exact ⟨rfl, rfl, rfl⟩
    | other n => exact ⟨rfl, rfl, rfl⟩
  obtain ⟨hinit, hmac, hcache⟩ := hrest (s.log (.called callback srcIp srcPort bytes))
  exact ⟨hinit, hip, hmac, hcache, hpings, harr ▸ List.suffix_refl _, .inr ⟨_, _, _, _, htrace⟩⟩

theorem quiet_udpReceive (srcIp : UInt32) (data : Memory) (length : UInt16) (s : NetState) :
    NetQuiet s (udpReceive srcIp data length s) := by
  simp only [udpReceive]
  split <;> [exact .refl s; skip]
  split
  · exact quiet_call _ _ _ _ _ s _
  · exact .refl s

/-- The packet keeps the identification of the state it was built in. -/
theorem ipPacket_congr {s s' : NetState} (h : s'.ipAddress = s.ipAddress) (destIp : UInt32)
    (protocol : UInt8) (data : List UInt8) : ipPacket s destIp protocol data =
      ipPacket { s' with ipIdCounter := s.ipIdCounter } destIp protocol data := by
  simp only [ipPacket, ipHeader, h]

section Receive

variable {heard : Packet → Prop} {asks : NetState → Asking}
  {receive : Memory → UInt16 → NetState → NetState}
  (hr : ∀ frame length s, heard ⟨frame, length⟩ → Heard heard s →
    NodeSteps heard asks s (receive frame length s))

include hr

theorem pollNetwork_nodeSteps {s : NetState} (hs : Heard heard s) :
    NodeSteps heard asks s (pollNetwork receive s) := by
  simp only [pollNetwork, networkReceivePacket]
  split
  · next packet s' h =>
    have hpolled : s.arrivals = some packet :: s'.arrivals ∧ NetQuiet s s' := by
      split at h
      · cases h
      · split at h
        · cases h
        · next ha =>
          cases h
          exact ⟨ha, rfl, rfl, rfl, rfl, rfl, ha ▸ List.suffix_cons _ _, .inl rfl⟩
    have hs' : Heard heard s' := fun p hp => hs p (hpolled.2.arrivals.mem hp)
    split
    · exact .head (.quiet hpolled.2)
        (hr _ _ s' (hs packet (hpolled.1 ▸ List.mem_cons_self)) hs')
    · exact .single (.quiet hpolled.2)
  · next s' h =>
    have hpolled : NetQuiet s s' := by
      split at h
      · cases h
        exact .refl s
      · split at h
        · cases h
          exact .refl s
        · next ha =>
          cases h
          exact ⟨rfl, rfl, rfl, rfl, rfl, ha ▸ List.suffix_cons _ _, .inl rfl⟩
    exact .single (.quiet hpolled)

theorem arpWait_nodeSteps (targetIp : UInt32) (retries : Nat) {s : NetState} (hs : Heard heard s) :
    NodeSteps heard asks s (arpWait receive targetIp retries s) := by
  induction retries generalizing s with
  | zero => exact .refl
  | succ retries ih =>
    have hp := pollNetwork_nodeSteps hr hs
    simp only [arpWait]
    split
    · exact hp
    · exact hp.trans (ih (hp.heard hs))

theorem ipSend_nodeSteps (hlast : Lasting asks) {destIp : UInt32} {protocol : UInt8}
    {data : List UInt8} {s : NetState} (hs : Heard heard s)
    (hdata : Message heard (asks s) s.ipAddress destIp protocol data) :
    NodeSteps heard asks s (ipSend receive destIp protocol data s) := by
  simp only [ipSend]
  split <;> [exact .refl; skip]
  next hlen =>
  -- the state in which the packet goes out
  have hsend : ∀ {t : NetState} {mac : Mac}, NodeSteps heard asks s t →
      arpResolve (ipTarget s.ipAddress destIp) t = some mac →
      NodeSteps heard asks s (ethSendFrame mac ethTypeIp ((ipPacket s destIp protocol data).take
        (ipHeaderMinLen + UInt16.ofNat data.length).toNat) t) := by
    intro t mac ht hmac
    have hip := ht.sameNode.ipAddress
    have hlater := hdata.mono (fun _ hp => hp) (hlast ht.trace)
    rw [ipPacket_congr hip]
    rw [← hip] at hmac hlater
    exact ht.tail (.sent s.ipIdCounter hlater hlen hmac)
  have hn : NodeSteps heard asks s s.numbered :=
    .single (.quiet ⟨rfl, rfl, rfl, rfl, rfl, List.suffix_refl _, .inl rfl⟩)
  have hw : NodeSteps heard asks s (arpWait receive (ipTarget s.ipAddress destIp) 10
      (arpSendRequest (ipTarget s.ipAddress destIp) s.numbered)) := by
    have hq : NodeSteps heard asks s _ := hn.tail (.asked (ipTarget s.ipAddress destIp))
    exact hq.trans (arpWait_nodeSteps hr _ 10 (hq.heard hs))
  split
  · next mac hmac => exact hsend hn hmac
  · split
    · next mac hmac => exact hsend hw hmac
    · exact hw

theorem ipReceive_nodeSteps (hlast : Lasting asks) {p : Packet} (hp : heard p) {off : Nat}
    {n : UInt16} (heth : ethPayload p.bytes p.length = some (.ip, off, n)) {s : NetState}
    (hs : Heard heard s) : NodeSteps heard asks s (ipReceive receive (p.bytes.shift off) n s) := by
  simp only [ipReceive]
  split <;> [exact .refl; skip]
  next protocol srcIp off' n' hip =>
  split
  · next hprotocol =>
    subst hprotocol
    simp only [icmpReceive]
    split <;> [exact .refl; skip]
    next hlen =>
    split
    · next htype =>
      exact ipSend_nodeSteps hr hlast hs (.answer hp (.intro heth hip hlen) htype)
    · split
      · next htype => exact .single (.answered hp (.intro heth hip hlen) htype rfl)
      · exact .refl
  · split
    · exact .single (.quiet (quiet_udpReceive _ _ _ s))
    · exact .refl

theorem ethReceiveFrameWith_nodeSteps (hlast : Lasting asks) (frame : Memory) (length : UInt16)
    (s : NetState) (hp : heard ⟨frame, length⟩) (hs : Heard heard s) :
    NodeSteps heard asks s (ethReceiveFrameWith receive frame length s) := by
  rw [ethReceiveFrameWith]
  split
  · next off n heth => exact .single (.arp (p := ⟨frame, length⟩) hp heth)
  · next off n heth => exact ipReceive_nodeSteps hr hlast (p := ⟨frame, length⟩) hp heth hs
  · exact .refl

end Receive

section Calls

variable {heard : Packet → Prop} {asks : NetState → Asking} (hlast : Lasting asks)

include hlast

theorem ethReceiveDepth_nodeSteps (depth : Nat) (frame : Memory) (length : UInt16) (s : NetState)
    (hp : heard ⟨frame, length⟩) (hs : Heard heard s) :
    NodeSteps heard asks s (ethReceiveDepth depth frame length s) := by
  induction depth generalizing frame length s with
  | zero => exact ethReceiveFrameWith_nodeSteps (fun _ _ _ _ _ => .refl) hlast frame length s hp hs
  | succ depth ih => exact ethReceiveFrameWith_nodeSteps ih hlast frame length s hp hs

/-- **Receiving is a sequence of steps** that are due to what was heard. -/
theorem ethReceiveFrame_nodeSteps (frame : Memory) (length : UInt16) (s : NetState)
    (hp : heard ⟨frame, length⟩) (hs : Heard heard s) :
    NodeSteps heard asks s (ethReceiveFrame frame length s) :=
  ethReceiveDepth_nodeSteps hlast _ frame length s hp hs

theorem poll_nodeSteps {s : NetState} (hs : Heard heard s) : NodeSteps heard asks s (poll s) :=
  pollNetwork_nodeSteps (ethReceiveFrame_nodeSteps hlast) hs

theorem pollUntil_nodeSteps (complete : NetState → Bool) (timeout : Nat) {s : NetState}
    (hs : Heard heard s) : NodeSteps heard asks s (pollUntil complete timeout s) := by
  induction timeout generalizing s with
  | zero => exact .refl
  | succ timeout ih =>
    have hp := poll_nodeSteps hlast hs
    rw [pollUntil]
    split
    · exact .refl
    · exact hp.trans (ih (hp.heard hs))

end Calls

/-- What `udp_send` gives to `ip_send`. -/
def udpDatagram (srcPort destPort : UInt16) (data : List UInt8) : List UInt8 :=
  (udpPacket srcPort destPort data).take (udpHeaderLen + UInt16.ofNat data.length).toNat

/-- A call of `udp_send` asks for a datagram, unless it is too long. -/
inductive AsksUdp (destIp : UInt32) (srcPort destPort : UInt16) (data : List UInt8) : Asking
  | datagram : (udpDatagram srcPort destPort data).length ≤ 1500 →
      AsksUdp destIp srcPort destPort data destIp ipProtoUdp (udpDatagram srcPort destPort data)

theorem udpSend_nodeSteps {heard : Packet → Prop} {asks : NetState → Asking} (hlast : Lasting asks)
    {destIp : UInt32} {srcPort destPort : UInt16} {data : List UInt8} {s : NetState}
    (hs : Heard heard s) (hasks : ∀ {d p datagram},
      AsksUdp destIp srcPort destPort data d p datagram → asks s d p datagram) :
    NodeSteps heard asks s (udpSend ethReceiveFrame destIp srcPort destPort data s) := by
  simp only [udpSend]
  split
  · exact .refl
  · next hlen =>
    refine ipSend_nodeSteps (ethReceiveFrame_nodeSteps hlast) hlast hs
      (.asked (hasks (.datagram ?_)))
    rw [gt_iff_lt, UInt16.lt_iff_toNat_lt, Nat.not_lt] at hlen
    exact Nat.le_trans (List.length_take_le _ _) hlen

/-! ## Calls -/

theorem quiet_dnsReset (s : NetState) : NetQuiet s (dnsReset s) :=
  ⟨rfl, rfl, rfl, rfl, rfl, List.suffix_refl _, .inl rfl⟩

theorem quiet_ntpReset (s : NetState) : NetQuiet s (ntpReset s) :=
  ⟨rfl, rfl, rfl, rfl, rfl, List.suffix_refl _, .inl rfl⟩

/-- A call that leaves the node its address, with nothing delivered that was not heard. -/
def NetOp.Hears (heard : Packet → Prop) : NetOp → Prop
  | .arrive packets => ∀ p, some p ∈ packets → heard p
  | .receive frame length => heard ⟨frame, length⟩
  | .setIp _ => False
  | _ => True

theorem NetOp.Hears.mono {heard heard' : Packet → Prop} (hle : ∀ p, heard p → heard' p) {op : NetOp}
    (h : op.Hears heard) : op.Hears heard' := by
  cases op with
  | arrive packets => exact fun p hp => hle p (h p hp)
  | receive frame length => exact hle _ h
  | setIp ip => exact h
  | _ => exact trivial

def NetOp.asks (s : NetState) : NetOp → Asking
  | .ping destIp id sequence => fun d p data =>
    d = destIp ∧ p = ipProtoIcmp ∧ data = echoRequest id sequence
  | .resolve hostname => AsksUdp s.dnsServer 12345 dnsPort (dnsQuery s.dnsTransactionId hostname)
  | .sync localTime => AsksUdp s.ntpServer ntpPort ntpPort (ntpRequest localTime)
  | _ => fun _ _ _ => False

/-- A ping is noted in the history before it is sent. -/
def NetOp.Noted : NetOp → NetState → Prop
  | .ping destIp id sequence, t => .pinged destIp id sequence ∈ t.trace
  | _, _ => True

/-- **Every call is a sequence of steps.** -/
theorem NetOp.nodeSteps {heard : Packet → Prop} {asks : NetState → Asking} (hlast : Lasting asks)
    {op : NetOp} (hop : op.Hears heard) {s : NetState} (hs : Heard heard s)
    (hasks : ∀ t, op.Noted t → ∀ {destIp protocol data}, op.asks s destIp protocol data →
      asks t destIp protocol data) : NodeSteps heard asks s (op.apply s) := by
  cases op with
  | arrive packets => exact .single (.arrived hop)
  | receive frame length => exact ethReceiveFrame_nodeSteps hlast frame length s hop hs
  | ping destIp id sequence =>
    have hp : NodeStep heard asks s _ := .pinged destIp id sequence
    have hmem : .pinged destIp id sequence ∈
        (pingStart destIp sequence (s.log (.pinged destIp id sequence))).trace := by
      obtain ⟨pingStates, h⟩ := pingStart_frame destIp sequence
        (s.log (.pinged destIp id sequence))
      rw [h]
      exact List.mem_cons_self
    exact (ReflTransGen.single hp).trans (ipSend_nodeSteps (ethReceiveFrame_nodeSteps hlast) hlast
      (hp.heard hs) (.asked (hasks _ hmem ⟨rfl, rfl, rfl⟩)))
  | wait destIp sequence timeoutMs =>
    refine (waitLoop_keeps (P := fun t => NodeSteps heard asks s t) (fun t ht => ?_)
      (fun t ht => ?_) destIp sequence s.icmpTimer timeoutMs timeoutMs.toNat .refl)
    · exact ht.trans (poll_nodeSteps hlast (ht.heard hs))
    · exact ht.tail (.quiet ⟨rfl, rfl, rfl, rfl, rfl, List.suffix_refl _, .inl rfl⟩)
  | resolve hostname =>
    simp only [NetOp.apply, dnsResolve]
    split
    · exact .refl
    · have hq : NodeStep heard asks s (dnsReset s) := .quiet (quiet_dnsReset s)
      have hsend := udpSend_nodeSteps hlast (hq.heard hs) (hasks (dnsReset s) trivial)
      exact .head hq (hsend.trans (pollUntil_nodeSteps hlast _ _ (hsend.heard (hq.heard hs))))
  | sync localTime =>
    have hq : NodeStep heard asks s (ntpReset s) := .quiet (quiet_ntpReset s)
    have hsend := udpSend_nodeSteps hlast (hq.heard hs) (hasks (ntpReset s) trivial)
    exact .head hq (hsend.trans (pollUntil_nodeSteps hlast _ _ (hsend.heard (hq.heard hs))))
  | setIp ip => exact hop.elim
  | setDnsServer ip =>
    exact .single (.quiet ⟨rfl, rfl, rfl, rfl, rfl, List.suffix_refl _, .inl rfl⟩)
  | setNtpServer ip =>
    exact .single (.quiet ⟨rfl, rfl, rfl, rfl, rfl, List.suffix_refl _, .inl rfl⟩)

end EphemeralOS
