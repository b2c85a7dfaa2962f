import EphemeralOS.Net.Stack
import EphemeralOS.Net.Dns
import Mathlib.Logic.Relation

/-!
# Receiving

`udp_receive`, `ip_receive` and `eth_receive_frame`. The last is recursive
through `ip_send`: `ethReceiveDepth` bounds the depth, and with as many levels
as there are arrivals it satisfies the equation of the source
(`ethReceiveFrame_eq`).

Whatever receiving does to the state is a sequence of `NetStep`s
(`ethReceiveFrame_steps`); what each step keeps, receiving keeps.
-/

namespace EphemeralOS

open Relation

def udpReceive (srcIp : UInt32) (data : Memory) (length : UInt16) (s : NetState) : NetState :=
  match udpPayload data length with
  | none => s
  | some (srcPort, destPort, off, payloadLength) =>
    let payload := data.shift off
    match udpHandlerFor s destPort with
    | some callback =>
      callback.call srcIp srcPort payload payloadLength
        (s.log (.called callback srcIp srcPort (payload.bytes 0 payloadLength.toNat)))
    | none => s

/-- `version` of `ip_receive`. -/
def IpHeader.version (h : IpHeader) : UInt8 := (h.versionIhl >>> 4) &&& 0x0F

/-- `ihl` of `ip_receive`, the length of the header. -/
def IpHeader.ihl (h : IpHeader) : UInt16 := ((h.versionIhl &&& 0x0F) * 4).toUInt16

def ipHeaderAt (data : Memory) : IpHeader := ipHeaderLayout.dec (data.bytes 0 20)

/-- What `ip_receive` passes on: protocol, source, offset and length. -/
def ipPayload (localIp : UInt32) (data : Memory) (length : UInt16) :
    Option (UInt8 × UInt32 × Nat × UInt16) :=
  if length < ipHeaderMinLen then none else
  let header := ipHeaderAt data
  if header.version ≠ ipVersion then none else
  let ihl := header.ihl
  if ihl < ipHeaderMinLen ∨ ihl > length then none else
  let totalLength := ntohs header.totalLength
  if totalLength > length then none else
  let destIp := ntohl header.destIp
  if destIp ≠ localIp ∧ destIp ≠ 0xFFFFFFFF then none else
  some (header.protocol, ntohl header.srcIp, ihl.toNat, totalLength - ihl)

section Receive

variable (receive : Memory → UInt16 → NetState → NetState)

def ipReceive (data : Memory) (length : UInt16) (s : NetState) : NetState :=
  match ipPayload s.ipAddress data length with
  | none => s
  | some (protocol, srcIp, off, payloadLength) =>
    let payload := data.shift off
    if protocol = ipProtoIcmp then icmpReceive receive srcIp payload payloadLength s
    else if protocol = ipProtoUdp then udpReceive srcIp payload payloadLength s
    else s

/-- The body of `eth_receive_frame`; the frames that `ip_send` polls go to `receive`. -/
def ethReceiveFrameWith (frame : Memory) (length : UInt16) (s : NetState) : NetState :=
  match ethPayload frame length with
  | some (.arp, off, payloadLength) => arpReceive (frame.shift off) payloadLength s
  | some (.ip, off, payloadLength) => ipReceive receive (frame.shift off) payloadLength s
  | none => s

end Receive

/-- `eth_receive_frame`, with at most `depth` calls of it inside one another. -/
def ethReceiveDepth : Nat → Memory → UInt16 → NetState → NetState
  | 0 => ethReceiveFrameWith fun _ _ s => s
  | depth + 1 => ethReceiveFrameWith (ethReceiveDepth depth)

def ethReceiveFrame (frame : Memory) (length : UInt16) (s : NetState) : NetState :=
  ethReceiveDepth s.arrivals.length frame length s

/-! ## Steps -/

inductive NetStep : NetState → NetState → Prop
  | sent (s : NetState) (frame : List UInt8) : NetStep s (s.log (.sent frame))
  | polled (s : NetState) {arrivals : List (Option Packet)} (h : arrivals <:+ s.arrivals) :
      NetStep s { s with arrivals := arrivals }
  | learned (s : NetState) (cache : Fin 32 → ArpEntry) : NetStep s { s with arpCache := cache }
  | numbered (s : NetState) : NetStep s { s with ipIdCounter := s.ipIdCounter + 1 }
  | called (s : NetState) (callback : UdpCallback) (srcIp : UInt32) (srcPort : UInt16)
      (payload : Memory) (length : UInt16) :
      NetStep s (callback.call srcIp srcPort payload length
        (s.log (.called callback srcIp srcPort (payload.bytes 0 length.toNat))))
  | answered (s : NetState) (srcIp : UInt32) (sequence : UInt16) :
      NetStep s (icmpAnswer srcIp sequence (s.log (.answered srcIp sequence)))

abbrev NetSteps : NetState → NetState → Prop := ReflTransGen NetStep

theorem networkSendPacket_steps (data : List UInt8) (s : NetState) :
    NetSteps s (networkSendPacket data s) := by
  rw [networkSendPacket]
  split
  · exact .refl
  · exact .single (.sent s _)

theorem ethSendFrame_steps (destMac : Mac) (ethType : UInt16) (data : List UInt8) (s : NetState) :
    NetSteps s (ethSendFrame destMac ethType data s) := by
  simp only [ethSendFrame]
  split
  · exact .refl
  · exact networkSendPacket_steps _ s

theorem arpSendRequest_steps (targetIp : UInt32) (s : NetState) :
    NetSteps s (arpSendRequest targetIp s) := by
  rw [arpSendRequest]
  exact ethSendFrame_steps _ _ _ s

theorem arpReceive_steps (data : Memory) (length : UInt16) (s : NetState) :
    NetSteps s (arpReceive data length s) := by
  simp only [arpReceive]
  split <;> [exact .refl; skip]
  split <;> [exact .refl; skip]
  split
  · exact .head (.learned s _) (ethSendFrame_steps _ _ _ _)
  · exact .single (.learned s _)

theorem udpReceive_steps (srcIp : UInt32) (data : Memory) (length : UInt16) (s : NetState) :
    NetSteps s (udpReceive srcIp data length s) := by
  simp only [udpReceive]
  split <;> [exact .refl; skip]
  split
  · exact .single (.called s _ _ _ _ _)
  · exact .refl

theorem networkReceivePacket_steps (s : NetState) : NetSteps s (networkReceivePacket s).2 := by
  rw [networkReceivePacket]
  split <;> [exact .refl; skip]
  split
  · exact .refl
  · next h => exact .single (.polled s (h ▸ List.suffix_cons _ _))

section Receive

variable {receive : Memory → UInt16 → NetState → NetState}
  (hr : ∀ frame length s, NetSteps s (receive frame length s))

include hr

theorem pollNetwork_steps (s : NetState) : NetSteps s (pollNetwork receive s) := by
  have hp := networkReceivePacket_steps s
  rw [pollNetwork]
  split
  · next packet s' h =>
    rw [h] at hp
    split
    · exact hp.trans (hr _ _ s')
    · exact hp
  · next s' h => rwa [h] at hp

theorem arpWait_steps (targetIp : UInt32) (retries : Nat) (s : NetState) :
    NetSteps s (arpWait receive targetIp retries s) := by
  induction retries generalizing s with
  | zero => exact .refl
  | succ retries ih =>
    have hp := pollNetwork_steps hr s
    simp only [arpWait]
    split
    · exact hp
    · exact hp.trans (ih _)

theorem ipSend_steps (destIp : UInt32) (protocol : UInt8) (data : List UInt8) (s : NetState) :
    NetSteps s (ipSend receive destIp protocol data s) := by
  simp only [ipSend]
  split <;> [exact .refl; skip]
  refine .head (.numbered s) ?_
  generalize ipTarget s.ipAddress destIp = targetIp
  generalize NetState.mk .. = t
  split
  · exact ethSendFrame_steps _ _ _ t
  · have hw : NetSteps t (arpWait receive targetIp 10 (arpSendRequest targetIp t)) :=
      (arpSendRequest_steps targetIp t).trans (arpWait_steps hr targetIp 10 _)
    split
    · exact hw.trans (ethSendFrame_steps _ _ _ _)
    · exact hw

theorem icmpReceive_steps (srcIp : UInt32) (data : Memory) (length : UInt16) (s : NetState) :
    NetSteps s (icmpReceive receive srcIp data length s) := by
  simp only [icmpReceive]
  split <;> [exact .refl; skip]
  split <;> [exact ipSend_steps hr _ _ _ s; skip]
  split
  · exact .single (.answered s _ _)
  · exact .refl

theorem ipReceive_steps (data : Memory) (length : UInt16) (s : NetState) :
    NetSteps s (ipReceive receive data length s) := by
  simp only [ipReceive]
  split <;> [exact .refl; skip]
  split <;> [exact icmpReceive_steps hr _ _ _ s; skip]
  split
  · exact udpReceive_steps _ _ _ s
  · exact .refl

theorem ethReceiveFrameWith_steps (frame : Memory) (length : UInt16) (s : NetState) :
    NetSteps s (ethReceiveFrameWith receive frame length s) := by
  rw [ethReceiveFrameWith]
  split
  · exact arpReceive_steps _ _ s
  · exact ipReceive_steps hr _ _ s
  · exact .refl

end Receive

theorem ethReceiveDepth_steps (depth : Nat) (frame : Memory) (length : UInt16) (s : NetState) :
    NetSteps s (ethReceiveDepth depth frame length s) := by
  induction depth generalizing frame length s with
  | zero => exact ethReceiveFrameWith_steps (fun _ _ _ => .refl) frame length s
  | succ depth ih => exact ethReceiveFrameWith_steps ih frame length s

/-- **Receiving is a sequence of steps.** -/
theorem ethReceiveFrame_steps (frame : Memory) (length : UInt16) (s : NetState) :
    NetSteps s (ethReceiveFrame frame length s) := ethReceiveDepth_steps _ frame length s

/-! ## What steps keep -/

theorem udpCallback_call_frame (callback : UdpCallback) (srcIp : UInt32) (srcPort : UInt16)
    (payload : Memory) (length : UInt16) (s : NetState) :
    let s' := callback.call srcIp srcPort payload length s
    s'.arrivals = s.arrivals ∧ s'.trace = s.trace ∧ s'.pingStates = s.pingStates ∧
      s'.icmpTimer = s.icmpTimer ∧ s'.ipAddress = s.ipAddress ∧ s'.udpHandlers = s.udpHandlers ∧
      s'.dnsServer = s.dnsServer ∧ s'.dnsTransactionId = s.dnsTransactionId := by
  cases callback with
  | dnsResponseHandler =>
    simp only [UdpCallback.call, dnsResponseHandler]
    split <;> exact ⟨rfl, rfl, rfl, rfl, rfl, rfl, rfl, rfl⟩
  | ntpResponseHandler =>
    simp only [UdpCallback.call, ntpResponseHandler]
    split <;> [skip; split <;> [skip; split]] <;> exact ⟨rfl, rfl, rfl, rfl, rfl, rfl, rfl, rfl⟩
  | other n => exact ⟨rfl, rfl, rfl, rfl, rfl, rfl, rfl, rfl⟩

theorem icmpAnswer_frame (srcIp : UInt32) (sequence : UInt16) (s : NetState) :
    ∃ pingStates, icmpAnswer srcIp sequence s = { s with pingStates := pingStates } := by
  rw [icmpAnswer]
  split
  · exact ⟨_, rfl⟩
  · exact ⟨s.pingStates, rfl⟩

structure SameSetup (s s' : NetState) : Prop where
  ipAddress : s'.ipAddress = s.ipAddress
  icmpTimer : s'.icmpTimer = s.icmpTimer
  udpHandlers : s'.udpHandlers = s.udpHandlers
  dnsServer : s'.dnsServer = s.dnsServer
  dnsTransactionId : s'.dnsTransactionId = s.dnsTransactionId

theorem SameSetup.refl (s : NetState) : SameSetup s s := ⟨rfl, rfl, rfl, rfl, rfl⟩

theorem SameSetup.trans {s s' s'' : NetState} (h : SameSetup s s') (h' : SameSetup s' s'') :
    SameSetup s s'' :=
  ⟨h'.ipAddress.trans h.ipAddress, h'.icmpTimer.trans h.icmpTimer,
    h'.udpHandlers.trans h.udpHandlers, h'.dnsServer.trans h.dnsServer,
    h'.dnsTransactionId.trans h.dnsTransactionId⟩

theorem NetStep.sameSetup {s s' : NetState} (h : NetStep s s') : SameSetup s s' := by
  cases h with
  | sent frame => exact ⟨rfl, rfl, rfl, rfl, rfl⟩
  | polled h => exact ⟨rfl, rfl, rfl, rfl, rfl⟩
  | learned cache => exact ⟨rfl, rfl, rfl, rfl, rfl⟩
  | numbered => exact ⟨rfl, rfl, rfl, rfl, rfl⟩
  | called callback srcIp srcPort payload length =>
    obtain ⟨-, -, -, h4, h5, h6, h7, h8⟩ :=
      udpCallback_call_frame callback srcIp srcPort payload length (s.log _)
    exact ⟨h5, h4, h6, h7, h8⟩
  | answered srcIp sequence =>
    obtain ⟨pingStates, h⟩ := icmpAnswer_frame srcIp sequence (s.log _)
    rw [h]
    exact ⟨rfl, rfl, rfl, rfl, rfl⟩

theorem NetSteps.sameSetup {s s' : NetState} (h : NetSteps s s') : SameSetup s s' := by
  induction h with
  | refl => exact .refl s
  | tail _ hstep ih => exact ih.trans hstep.sameSetup

theorem NetStep.arrivals {s s' : NetState} (h : NetStep s s') : s'.arrivals <:+ s.arrivals := by
  cases h with
  | polled h => exact h
  | called callback srcIp srcPort payload length =>
    obtain ⟨h, -⟩ := udpCallback_call_frame callback srcIp srcPort payload length (s.log _)
    rw [h]
    exact List.suffix_refl _
  | answered srcIp sequence =>
    obtain ⟨pingStates, h⟩ := icmpAnswer_frame srcIp sequence (s.log _)
    rw [h]
    exact List.suffix_refl _
  | _ => exact List.suffix_refl _

theorem NetSteps.arrivals {s s' : NetState} (h : NetSteps s s') : s'.arrivals <:+ s.arrivals := by
  induction h with
  | refl => exact List.suffix_refl _
  | tail _ hstep ih => exact hstep.arrivals.trans ih

theorem NetStep.trace {s s' : NetState} (h : NetStep s s') : s.trace <:+ s'.trace := by
  cases h with
  | sent frame => exact List.suffix_cons _ _
  | called callback srcIp srcPort payload length =>
    obtain ⟨-, h, -⟩ := udpCallback_call_frame callback srcIp srcPort payload length (s.log _)
    rw [h]
    exact List.suffix_cons _ _
  | answered srcIp sequence =>
    obtain ⟨pingStates, h⟩ := icmpAnswer_frame srcIp sequence (s.log _)
    rw [h]
    exact List.suffix_cons _ _
  | _ => exact List.suffix_refl _

theorem NetSteps.trace {s s' : NetState} (h : NetSteps s s') : s.trace <:+ s'.trace := by
  induction h with
  | refl => exact List.suffix_refl _
  | tail _ hstep ih => exact ih.trans hstep.trace

/-! ## The depth of the recursion -/

section Agree

variable {receive receive' : Memory → UInt16 → NetState → NetState} {n : Nat}
  (hr : ∀ frame length s, NetSteps s (receive frame length s))
  (hagree : ∀ frame length (s : NetState), s.arrivals.length < n →
    receive frame length s = receive' frame length s)

include hagree

theorem pollNetwork_congr {s : NetState} (hs : s.arrivals.length ≤ n) :
    pollNetwork receive s = pollNetwork receive' s := by
  simp only [pollNetwork, networkReceivePacket]
  split
  · next packet s' h =>
    -- a packet was found, so there is one arrival less
    have hlt : s'.arrivals.length < n := by
      split at h
      · cases h
      · split at h
        · cases h
        · next ha =>
          cases h
          rw [ha, List.length_cons] at hs
          exact hs
    rw [hagree _ _ _ hlt]
  · rfl

include hr

theorem arpWait_congr (targetIp : UInt32) (retries : Nat) {s : NetState}
    (hs : s.arrivals.length ≤ n) :
    arpWait receive targetIp retries s = arpWait receive' targetIp retries s := by
  induction retries generalizing s with
  | zero => rfl
  | succ retries ih =>
    have hp := (pollNetwork_steps hr s).arrivals.length_le
    simp only [arpWait]
    rw [← pollNetwork_congr hagree hs, ih (by omega)]

theorem ipSend_congr (destIp : UInt32) (protocol : UInt8) (data : List UInt8) {s : NetState}
    (hs : s.arrivals.length ≤ n) :
    ipSend receive destIp protocol data s = ipSend receive' destIp protocol data s := by
  have hq : ∀ targetIp (t : NetState), t.arrivals = s.arrivals →
      arpWait receive targetIp 10 (arpSendRequest targetIp t) =
        arpWait receive' targetIp 10 (arpSendRequest targetIp t) := by
    intro targetIp t ht
    have hle := (arpSendRequest_steps targetIp t).arrivals.length_le
    rw [ht] at hle
    exact arpWait_congr hr hagree targetIp 10 (by omega)
  simp only [ipSend]
  rw [hq _ { s with ipIdCounter := s.ipIdCounter + 1 } rfl]

theorem ethReceiveFrameWith_congr (frame : Memory) (length : UInt16) {s : NetState}
    (hs : s.arrivals.length ≤ n) :
    ethReceiveFrameWith receive frame length s = ethReceiveFrameWith receive' frame length s := by
  have hicmp : ∀ srcIp data length, icmpReceive receive srcIp data length s =
      icmpReceive receive' srcIp data length s := by
    intro srcIp data length
    simp only [icmpReceive]
    rw [ipSend_congr hr hagree _ _ _ hs]
  simp only [ethReceiveFrameWith, ipReceive, hicmp]

end Agree

/-- More levels than arrivals change nothing. -/
theorem ethReceiveDepth_succ (depth : Nat) (frame : Memory) (length : UInt16) {s : NetState}
    (hs : s.arrivals.length ≤ depth) :
    ethReceiveDepth (depth + 1) frame length s = ethReceiveDepth depth frame length s := by
  induction depth generalizing frame length s with
  | zero =>
    exact ethReceiveFrameWith_congr (ethReceiveDepth_steps 0)
      (fun _ _ _ h => absurd h (Nat.not_lt_zero _)) frame length hs
  | succ depth ih =>
    exact ethReceiveFrameWith_congr (ethReceiveDepth_steps (depth + 1))
      (fun frame length s h => ih frame length (by omega)) frame length hs

theorem ethReceiveDepth_eq {depth : Nat} (frame : Memory) (length : UInt16) {s : NetState}
    (hs : s.arrivals.length ≤ depth) :
    ethReceiveDepth depth frame length s = ethReceiveFrame frame length s := by
  induction depth with
  | zero => rw [ethReceiveFrame, Nat.le_zero.mp hs]
  | succ depth ih =>
    rcases Nat.lt_or_ge depth s.arrivals.length with h | h
    · rw [ethReceiveFrame, show s.arrivals.length = depth + 1 by omega]
    · rw [ethReceiveDepth_succ depth frame length h, ih h]

/-- **`eth_receive_frame` is what its source says.** The frames that `ip_send` polls while it
handles a frame are handled by `eth_receive_frame` itself. -/
theorem ethReceiveFrame_eq (frame : Memory) (length : UInt16) (s : NetState) :
    ethReceiveFrame frame length s = ethReceiveFrameWith ethReceiveFrame frame length s := by
  rw [ethReceiveFrame, ← ethReceiveDepth_succ _ frame length (Nat.le_refl _)]
  exact ethReceiveFrameWith_congr (ethReceiveDepth_steps _)
    (fun frame length s h => ethReceiveDepth_eq frame length (Nat.le_of_lt h)) frame length
    (Nat.le_refl _)

end EphemeralOS
