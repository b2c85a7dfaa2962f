import EphemeralOS.Net.Arp
import EphemeralOS.Net.Waits

/-!
# A ping between two nodes

Two nodes that run this stack, joined by a link. A call on one of them polls in
the middle, and what a poll finds depends on what the other node has done with
the frames sent so far; so the calls are given once more over any system that
contains the node (`Host`), with the node alone as the special case
(`alone_icmpSendEchoRequest`, `alone_icmpWaitReply`).

When two fresh nodes are joined, the first ping finds its way through the ARP
request and reply, the echo request and reply (`cold_start_ping`). The node that
answers learns the address from the ARP request and never has to ask.
-/

namespace EphemeralOS

open Binary

/-- A system with a node in it: the node's state, a step of the node alone, and what happens when
the node polls. -/
structure Host (σ : Type) where
  net : σ → NetState
  step : (NetState → NetState) → σ → σ
  poll : σ → σ

namespace Host

variable {σ : Type} (h : Host σ)

/-- The polling loop of `ip_send`. -/
def arpWait (targetIp : UInt32) : Nat → σ → σ
  | 0, x => x
  | retries + 1, x =>
    let x := h.poll x
    if (arpResolve targetIp (h.net x)).isSome then x else arpWait targetIp retries x

def ipSend (destIp : UInt32) (protocol : UInt8) (data : List UInt8) (x : σ) : σ :=
  let totalLength := ipHeaderMinLen + UInt16.ofNat data.length
  if totalLength > 1500 then x else
  let packet := (ipPacket (h.net x) destIp protocol data).take totalLength.toNat
  let targetIp := ipTarget (h.net x).ipAddress destIp
  let x := h.step NetState.numbered x
  match arpResolve targetIp (h.net x) with
  | some destMac => h.step (ethSendFrame destMac ethTypeIp packet) x
  | none =>
    let x := h.arpWait targetIp 10 (h.step (arpSendRequest targetIp) x)
    match arpResolve targetIp (h.net x) with
    | some destMac => h.step (ethSendFrame destMac ethTypeIp packet) x
    | none => x

def icmpSendEchoRequest (destIp : UInt32) (id sequence : UInt16) (x : σ) : σ :=
  h.ipSend destIp ipProtoIcmp (echoRequest id sequence)
    (h.step (fun s => pingStart destIp sequence (s.log (.pinged destIp id sequence))) x)

def waitLoop (destIp : UInt32) (sequence : UInt16) (startTime timeoutMs : UInt32) :
    Nat → σ → Bool × σ
  | 0, x => (false, x)
  | rounds + 1, x =>
    if (h.net x).icmpTimer - startTime < timeoutMs then
      let x := h.poll x
      if pingAnswered (h.net x) destIp sequence then (true, x)
      else waitLoop destIp sequence startTime timeoutMs rounds
        (h.step (fun s => { s with icmpTimer := s.icmpTimer + 1 }) x)
    else (false, x)

def icmpWaitReply (destIp : UInt32) (sequence : UInt16) (timeoutMs : UInt32) (x : σ) : Bool × σ :=
  h.waitLoop destIp sequence (h.net x).icmpTimer timeoutMs timeoutMs.toNat x

end Host

/-- The node alone: what it will find is in `arrivals`. -/
def alone : Host NetState := ⟨id, id, poll⟩

theorem alone_arpWait (targetIp : UInt32) (retries : Nat) (s : NetState) :
    alone.arpWait targetIp retries s = arpWait ethReceiveFrame targetIp retries s := by
  induction retries generalizing s with
  | zero => rfl
  | succ retries ih =>
    simp only [Host.arpWait, arpWait, ih]
    rfl

theorem alone_icmpSendEchoRequest (destIp : UInt32) (id sequence : UInt16) (s : NetState) :
    alone.icmpSendEchoRequest destIp id sequence s =
      icmpSendEchoRequest ethReceiveFrame destIp id sequence s := by
  simp only [Host.icmpSendEchoRequest, icmpSendEchoRequest, Host.ipSend, ipSend, alone_arpWait]
  rfl

theorem alone_waitLoop (destIp : UInt32) (sequence : UInt16) (startTime timeoutMs : UInt32)
    (rounds : Nat) (s : NetState) :
    alone.waitLoop destIp sequence startTime timeoutMs rounds s =
      waitLoop destIp sequence startTime timeoutMs rounds s := by
  induction rounds generalizing s with
  | zero => rfl
  | succ rounds ih =>
    simp only [Host.waitLoop, waitLoop, ih]
    rfl

theorem alone_icmpWaitReply (destIp : UInt32) (sequence : UInt16) (timeoutMs : UInt32)
    (s : NetState) : alone.icmpWaitReply destIp sequence timeoutMs s =
      icmpWaitReply destIp sequence timeoutMs s := alone_waitLoop _ _ _ _ _ s

def NetEvent.frame : NetEvent → Option (List UInt8)
  | .sent frame => some frame
  | _ => none

def NetState.outbox (s : NetState) : List (List UInt8) := s.trace.reverse.filterMap NetEvent.frame

/-- Two nodes, and the frames that the link has carried each way, in order. -/
structure TwoNodes where
  a : NetState
  b : NetState
  toA : List (List UInt8)
  toB : List (List UInt8)

def drain : Nat → NetState → NetState
  | 0, s => s
  | n + 1, s => if s.arrivals.isEmpty then s else drain n (poll s)

section Link

-- what the receive buffers hold before a frame is copied there
variable (buffer : Memory)

def arrival (frame : List UInt8) : Packet :=
  ⟨buffer.store 0 frame, UInt16.ofNat frame.length⟩

def NetState.deliver (frames : List (List UInt8)) (s : NetState) : NetState :=
  { s with arrivals := s.arrivals ++ frames.map fun frame => some (arrival buffer frame) }

namespace TwoNodes

/-- The frames that A has sent and B has not received. -/
def pendingB (x : TwoNodes) : List (List UInt8) := x.a.outbox.drop x.toB.length

/-- The frames that B has sent and A has not received. -/
def pendingA (x : TwoNodes) : List (List UInt8) := x.b.outbox.drop x.toA.length

/-- The link carries A's frames to B, B handles them, and the link carries B's frames to A. -/
def exchange (x : TwoNodes) : TwoNodes :=
  let b := x.b.deliver buffer x.pendingB
  let x := { x with b := drain b.arrivals.length b, toB := x.toB ++ x.pendingB }
  { x with a := x.a.deliver buffer x.pendingA, toA := x.toA ++ x.pendingA }

/-- A calls; before each of its polls the link carries what there is. -/
def callsOnA : Host TwoNodes where
  net := TwoNodes.a
  step f x := { x with a := f x.a }
  poll x :=
    let x := x.exchange buffer
    { x with a := EphemeralOS.poll x.a }

end TwoNodes

/-- What `icmp_receive` gets. -/
structure IcmpMessage where
  srcIp : UInt32
  type : UInt8
  id : UInt16
  sequence : UInt16
  data : List UInt8
  deriving DecidableEq

/-- The ICMP message in a packet, if it gets as far as `icmp_receive`. -/
def Packet.icmp (localIp : UInt32) (p : Packet) : Option IcmpMessage :=
  match ethPayload p.bytes p.length with
  | some (.ip, off, n) =>
    match ipPayload localIp (p.bytes.shift off) n with
    | some (protocol, srcIp, off', n') =>
      if protocol = ipProtoIcmp then
        let data := (p.bytes.shift off).shift off'
        let header := icmpHeaderLayout.dec (data.bytes 0 8)
        some ⟨srcIp, header.type, ntohs header.id, ntohs header.sequence,
          data.bytes 8 (n'.toNat - 8)⟩
      else none
    | none => none
  | _ => none

def icmpMessages (localIp : UInt32) (frames : List (List UInt8)) : List IcmpMessage :=
  frames.filterMap fun frame => (arrival buffer frame).icmp localIp

end Link

structure FreshNode (s : NetState) : Prop where
  initialized : s.initialized = true
  arpCache : ∀ i, (s.arpCache i).valid = false
  pingStates : ∀ i, (s.pingStates i).received = false
  arrivals : s.arrivals = []
  trace : s.trace = []

/-! ## Echo messages -/

def pingData : List UInt8 := (List.range 56).map fun i => 0x41 + UInt8.ofNat (i % 26)

def echoMessage (type : UInt8) (id sequence : UInt16) (data : List UInt8) : List UInt8 :=
  icmpMessage ⟨type, icmpCodeEcho, 0, htons id, htons sequence⟩ data

theorem length_echoMessage (type : UInt8) (id sequence : UInt16) (data : List UInt8) :
    (echoMessage type id sequence data).length = 8 + data.length := by
  simp only [echoMessage, icmpMessage, List.length_append, Layout.length_enc, sizeof_icmpHeader]

section Echo

variable {m : Memory} {type : UInt8} {id sequence : UInt16} {data : List UInt8}

theorem stands_echoMessage (hm : m.Stands 0 (echoMessage type id sequence data)) :
    (∃ checksum, icmpHeaderLayout.dec (m.bytes 0 8) =
      ⟨type, icmpCodeEcho, checksum, htons id, htons sequence⟩) ∧
      m.bytes 8 data.length = data := by
  simp only [echoMessage, icmpMessage] at hm
  obtain ⟨hheader, hdata⟩ := Memory.stands_append.mp hm
  rw [Memory.Stands, Layout.length_enc, sizeof_icmpHeader] at hheader
  rw [Layout.length_enc, sizeof_icmpHeader] at hdata
  exact ⟨⟨_, by rw [hheader, Layout.dec_enc]⟩, hdata⟩

variable {n : UInt16} (hn : n.toNat = 8 + data.length)

include hn

theorem echoReply_echoMessage
    (hm : m.Stands 0 (echoMessage icmpTypeEchoRequest id sequence data)) :
    echoReply m n = echoMessage icmpTypeEchoReply id sequence data := by
  obtain ⟨⟨checksum, hheader⟩, hdata⟩ := stands_echoMessage hm
  rw [echoReply, hheader, hn, Nat.add_sub_cancel_left, hdata]
  rfl

/-- **An echo request is answered with the same id, sequence and data.** -/
theorem icmpReceive_request (hm : m.Stands 0 (echoMessage icmpTypeEchoRequest id sequence data))
    (receive : Memory → UInt16 → NetState → NetState) (srcIp : UInt32) (s : NetState) :
    icmpReceive receive srcIp m n s =
      ipSend receive srcIp ipProtoIcmp (echoMessage icmpTypeEchoReply id sequence data) s := by
  obtain ⟨⟨checksum, hheader⟩, -⟩ := stands_echoMessage hm
  simp only [icmpReceive, hheader, echoReply_echoMessage hn hm]
  rw [if_neg, if_pos trivial]
  rw [UInt16.lt_iff_toNat_lt, hn]
  exact Nat.not_lt.mpr (Nat.le_add_right 8 _)

theorem icmpReceive_reply (hm : m.Stands 0 (echoMessage icmpTypeEchoReply id sequence data))
    (receive : Memory → UInt16 → NetState → NetState) (srcIp : UInt32) (s : NetState) :
    icmpReceive receive srcIp m n s =
      icmpAnswer srcIp sequence (s.log (.answered srcIp sequence)) := by
  obtain ⟨⟨checksum, hheader⟩, -⟩ := stands_echoMessage hm
  simp only [icmpReceive, hheader, ntohs, htons_htons]
  rw [if_neg, if_neg (by decide), if_pos trivial]
  rw [UInt16.lt_iff_toNat_lt, hn]
  exact Nat.not_lt.mpr (Nat.le_add_right 8 _)

end Echo

def echoFrame (s : NetState) (destMac : Mac) (destIp : UInt32) (type : UInt8)
    (id sequence : UInt16) (data : List UInt8) : List UInt8 :=
  ethFrame destMac s.localMac ethTypeIp
    (ipPacket s destIp ipProtoIcmp (echoMessage type id sequence data))

theorem arrival_stands (buffer : Memory) (frame : List UInt8) :
    (arrival buffer frame).bytes.Stands 0 frame := Memory.stands_store buffer 0 frame

theorem icmp_echoFrame (buffer : Memory) (s : NetState) (destMac : Mac) (destIp : UInt32)
    (type : UInt8) (id sequence : UInt16) {data : List UInt8} (h : data.length ≤ 1472) :
    (arrival buffer (echoFrame s destMac destIp type id sequence data)).icmp destIp =
      some ⟨s.ipAddress, type, id, sequence, data⟩ := by
  have hlen := length_echoMessage type id sequence data
  have hpayload : ∃ n n',
      ethPayload (arrival buffer (echoFrame s destMac destIp type id sequence data)).bytes
        (arrival buffer (echoFrame s destMac destIp type id sequence data)).length =
          some (.ip, 14, n) ∧ _ :=
    payload_ipFrame (arrival_stands buffer (echoFrame s destMac destIp type id sequence data))
      (by omega)
  generalize arrival buffer (echoFrame s destMac destIp type id sequence data) = p at hpayload ⊢
  obtain ⟨n, n', heth, hip, hn', hdata⟩ := hpayload
  obtain ⟨⟨checksum, hheader⟩, hbytes⟩ := stands_echoMessage hdata
  have hsub : n'.toNat - 8 = data.length := by omega
  rw [Packet.icmp, heth]
  simp only [hip, hheader, hsub, hbytes, ntohs, htons_htons, if_true]

theorem icmp_arpFrame (buffer : Memory) (destMac srcMac : Mac) (p : ArpPacket) (localIp : UInt32) :
    (arrival buffer (arpFrame destMac srcMac p)).icmp localIp = none := by
  obtain ⟨n, heth, -⟩ := ethPayload_ethFrame .arp
    (arrival_stands buffer (arpFrame destMac srcMac p)) (by rw [length_arpPacket]; decide)
  have heth' : ethPayload (arrival buffer (arpFrame destMac srcMac p)).bytes
      (arrival buffer (arpFrame destMac srcMac p)).length = some (.arp, 14, n) := heth
  rw [Packet.icmp, heth']

/-! ## One exchange -/

section Exchange

variable {buffer : Memory}

theorem poll_deliver {s : NetState} (hs : s.initialized = true) (ha : s.arrivals = [])
    {frame : List UInt8} (hf : 0 < (UInt16.ofNat frame.length).toNat) :
    poll (s.deliver buffer [frame]) =
      ethReceiveFrame (arrival buffer frame).bytes (UInt16.ofNat frame.length) s := by
  have hreceived : networkReceivePacket (s.deliver buffer [frame]) =
      (some (arrival buffer frame), s) := by
    have hlist : (s.deliver buffer [frame]).arrivals = [some (arrival buffer frame)] := by
      change s.arrivals ++ _ = _
      rw [ha]
      rfl
    have hback : { s.deliver buffer [frame] with arrivals := [] } = s := by
      rw [← ha]
      rfl
    rw [networkReceivePacket, hlist]
    change (if !s.initialized then _ else _) = _
    rw [hs, if_neg (by decide)]
    simp only [hback]
  rw [poll, pollNetwork, hreceived]
  exact if_pos (show (0 : UInt16) < _ from UInt16.lt_iff_toNat_lt.mpr hf)

/-- A frame from `a`, which `b` answers with one frame. -/
structure Answered (buffer : Memory) (a b : NetState) (toA toB : List (List UInt8))
    (f g : List UInt8) (b' : NetState) : Prop where
  idleA : a.arrivals = []
  idleB : b.arrivals = []
  readyA : a.initialized = true
  readyB : b.initialized = true
  sent : a.outbox = toB ++ [f]
  handled : ethReceiveFrame (arrival buffer f).bytes (UInt16.ofNat f.length) b = b'
  answer : b'.outbox = toA ++ [g]
  fits : 0 < (UInt16.ofNat f.length).toNat
  fits' : 0 < (UInt16.ofNat g.length).toNat

/-- **The next poll of `a` finds the answer.** -/
theorem Answered.poll {a b b' : NetState} {toA toB : List (List UInt8)} {f g : List UInt8}
    (h : Answered buffer a b toA toB f g b') :
    (TwoNodes.callsOnA buffer).poll ⟨a, b, toA, toB⟩ =
      ⟨ethReceiveFrame (arrival buffer g).bytes (UInt16.ofNat g.length) a, b', toA ++ [g],
        toB ++ [f]⟩ := by
  have hB : TwoNodes.pendingB ⟨a, b, toA, toB⟩ = [f] := by
    rw [TwoNodes.pendingB, h.sent, List.drop_left]
  have hA : TwoNodes.pendingA ⟨a, b', toA, toB ++ [f]⟩ = [g] := by
    rw [TwoNodes.pendingA, h.answer, List.drop_left]
  have hdrain : drain (b.deliver buffer [f]).arrivals.length (b.deliver buffer [f]) = b' := by
    have hlist : (b.deliver buffer [f]).arrivals = [some (arrival buffer f)] := by
      change b.arrivals ++ _ = _
      rw [h.idleB]
      rfl
    rw [hlist]
    change (if (b.deliver buffer [f]).arrivals.isEmpty then _ else _) = _
    rw [hlist, if_neg (by simp)]
    exact (poll_deliver h.readyB h.idleB h.fits).trans h.handled
  have hexchange : TwoNodes.exchange buffer ⟨a, b, toA, toB⟩ =
      ⟨a.deliver buffer [g], b', toA ++ [g], toB ++ [f]⟩ := by
    simp only [TwoNodes.exchange, hB, hdrain, hA]
  simp only [TwoNodes.callsOnA, hexchange, poll_deliver h.readyA h.idleA h.fits']

/-- `ip_send` to a node that answers the ARP request at the next poll. -/
theorem callsOnA_ipSend {x : TwoNodes} {destIp : UInt32} {protocol : UInt8} {data : List UInt8}
    (hsub : destIp &&& 0xFFFFFF00 = x.a.ipAddress &&& 0xFFFFFF00) (hdata : data.length ≤ 1480)
    (hnone : arpResolve destIp x.a = none) {x' : TwoNodes}
    (hpoll : (TwoNodes.callsOnA buffer).poll
      { x with a := arpSendRequest destIp x.a.numbered } = x')
    {mac : Mac} (hmac : arpResolve destIp x'.a = some mac) :
    (TwoNodes.callsOnA buffer).ipSend destIp protocol data x =
      { x' with
        a := networkSendPacket
          (ethFrame mac x'.a.localMac ethTypeIp (ipPacket x.a destIp protocol data)) x'.a } := by
  have hlen := length_ipPacket x.a destIp protocol data
  have htarget : ipTarget x.a.ipAddress destIp = destIp := if_pos hsub
  have hnone' : arpResolve destIp x.a.numbered = none := hnone
  have hwait : (TwoNodes.callsOnA buffer).arpWait destIp 10
      { x with a := arpSendRequest destIp x.a.numbered } =
        x' := by
    rw [Host.arpWait, hpoll]
    exact if_pos (by rw [show (TwoNodes.callsOnA buffer).net x' = x'.a from rfl, hmac]; rfl)
  rw [Host.ipSend, if_neg (totalLength_fits hdata)]
  simp only [TwoNodes.callsOnA] at hwait ⊢
  simp only [htarget, take_ipPacket hdata, hnone', hwait, hmac]
  rw [ethSendFrame_eq (by omega)]

end Exchange

/-! ## The first ping -/

theorem outbox_log_sent (s : NetState) (frame : List UInt8) :
    (s.log (.sent frame)).outbox = s.outbox ++ [frame] := by
  simp only [NetState.outbox, NetState.log, List.reverse_cons, List.filterMap_append]
  rfl

theorem outbox_log_other {e : NetEvent} (h : e.frame = none) (s : NetState) :
    (s.log e).outbox = s.outbox := by
  simp only [NetState.outbox, NetState.log, List.reverse_cons, List.filterMap_append,
    List.filterMap_cons, h, List.filterMap_nil, List.append_nil]

theorem pingStart_frame (destIp : UInt32) (sequence : UInt16) (s : NetState) :
    ∃ pingStates, pingStart destIp sequence s = { s with pingStates := pingStates } := by
  rw [pingStart]
  split
  · exact ⟨_, rfl⟩
  · exact ⟨s.pingStates, rfl⟩

section FirstPing

variable {buffer : Memory} {a b : NetState}

/-- The ARP request of `a` for `b`. -/
def arpRequestFrame (a b : NetState) : List UInt8 :=
  arpFrame broadcastMac a.localMac
    (arpPacket arpOperRequest a.localMac a.ipAddress CArray.zero b.ipAddress)

/-- The ARP reply of `b` to `a`. -/
def arpReplyFrame (a b : NetState) : List UInt8 :=
  arpFrame a.localMac b.localMac
    (arpPacket arpOperReply b.localMac b.ipAddress a.localMac a.ipAddress)

theorem arpRequestFrame_handled (hb : b.initialized = true) :
    ethReceiveFrame (arrival buffer (arpRequestFrame a b)).bytes
      (UInt16.ofNat (arpRequestFrame a b).length) b =
        (arpAddEntry a.ipAddress a.localMac b).log (.sent (arpReplyFrame a b)) := by
  rw [arpRequestFrame, ethReceiveFrame_arpFrame (arrival_stands buffer _), if_pos ⟨rfl, rfl⟩]
  exact networkSendPacket_arpFrame (s := arpAddEntry a.ipAddress a.localMac b) hb _ _ _

theorem arpReplyFrame_handled (s : NetState) :
    ethReceiveFrame (arrival buffer (arpReplyFrame a b)).bytes
      (UInt16.ofNat (arpReplyFrame a b).length) s = arpAddEntry b.ipAddress b.localMac s := by
  rw [arpReplyFrame, ethReceiveFrame_arpFrame (arrival_stands buffer _), if_neg]
  rintro ⟨h, -⟩
  exact absurd h (by decide)

theorem arpFrame_fits (destMac srcMac : Mac) (p : ArpPacket) :
    0 < (UInt16.ofNat (arpFrame destMac srcMac p).length).toNat := by
  rw [arpFrame, toNat_length_ethFrame (by rw [length_arpPacket]; decide)]
  omega

/-- **The ARP exchange**: each node learns the other's address. -/
theorem arp_exchange (buffer : Memory) (ha : a.initialized = true) (hb : b.initialized = true)
    (hai : a.arrivals = []) (hbi : b.arrivals = []) (hao : a.outbox = []) (hbo : b.outbox = []) :
    (TwoNodes.callsOnA buffer).poll ⟨arpSendRequest b.ipAddress a, b, [], []⟩ =
      ⟨arpAddEntry b.ipAddress b.localMac (a.log (.sent (arpRequestFrame a b))),
        (arpAddEntry a.ipAddress a.localMac b).log (.sent (arpReplyFrame a b)),
        [arpReplyFrame a b], [arpRequestFrame a b]⟩ := by
  have hsend : arpSendRequest b.ipAddress a = a.log (.sent (arpRequestFrame a b)) := by
    rw [arpSendRequest_eq, networkSendPacket_arpFrame ha]
    rfl
  have hanswered : Answered buffer (a.log (.sent (arpRequestFrame a b))) b [] []
      (arpRequestFrame a b) (arpReplyFrame a b)
      ((arpAddEntry a.ipAddress a.localMac b).log (.sent (arpReplyFrame a b))) :=
    { idleA := hai
      idleB := hbi
      readyA := ha
      readyB := hb
      sent := by rw [outbox_log_sent, hao]
      handled := arpRequestFrame_handled hb
      answer := by
        have hout : (arpAddEntry a.ipAddress a.localMac b).outbox = b.outbox := rfl
        rw [outbox_log_sent, hout, hbo]
      fits := by
        rw [arpRequestFrame]
        exact arpFrame_fits _ _ _
      fits' := by
        rw [arpReplyFrame]
        exact arpFrame_fits _ _ _ }
  rw [hsend, hanswered.poll, arpReplyFrame_handled]
  rfl

section Echoes

variable {id sequence : UInt16} {data : List UInt8} (hdata : data.length ≤ 1472)

include hdata

theorem length_echoPacket (s : NetState) (destIp : UInt32) (type : UInt8) :
    (ipPacket s destIp ipProtoIcmp (echoMessage type id sequence data)).length ≤ 1500 := by
  rw [length_ipPacket, length_echoMessage]
  omega

theorem echoFrame_fits (s : NetState) (destMac : Mac) (destIp : UInt32) (type : UInt8) :
    0 < (UInt16.ofNat (echoFrame s destMac destIp type id sequence data).length).toNat := by
  rw [echoFrame, toNat_length_ethFrame (length_echoPacket hdata s destIp type)]
  omega

/-- The echo request of a neighbour that is in the cache. -/
theorem echoRequest_handled {a₀ : NetState} (hb : b.initialized = true)
    (hip : a₀.ipAddress = a.ipAddress)
    (hsub : a.ipAddress &&& 0xFFFFFF00 = b.ipAddress &&& 0xFFFFFF00)
    (hmac : arpResolve a.ipAddress b = some a.localMac) (f : List UInt8)
    (hf : f = echoFrame a₀ b.localMac b.ipAddress icmpTypeEchoRequest id sequence data) :
    ethReceiveFrame (arrival buffer f).bytes (UInt16.ofNat f.length) b =
      b.numbered.log
        (.sent (echoFrame b a.localMac a.ipAddress icmpTypeEchoReply id sequence data)) := by
  have hstands := arrival_stands buffer f
  have hlen := length_echoMessage icmpTypeEchoRequest id sequence data
  have hlen' := length_echoMessage icmpTypeEchoReply id sequence data
  rw [hf, echoFrame] at hstands ⊢
  obtain ⟨n, hn, hbytes, hreceive⟩ := ethReceiveFrame_ipPacket (t := b) rfl hstands (by omega)
  rw [hlen] at hn
  rw [hreceive, if_pos rfl, icmpReceive_request hn hbytes, hip,
    ipSend_resolved _ hsub hmac (by omega)]
  exact networkSendPacket_ethFrame (s := b.numbered) hb
    (length_echoPacket hdata b a.ipAddress icmpTypeEchoReply) _ _ _

theorem echoReply_handled (s : NetState) (f : List UInt8)
    (hf : f = echoFrame b a.localMac a.ipAddress icmpTypeEchoReply id sequence data)
    (hs : s.ipAddress = a.ipAddress) :
    ethReceiveFrame (arrival buffer f).bytes (UInt16.ofNat f.length) s =
      icmpAnswer b.ipAddress sequence (s.log (.answered b.ipAddress sequence)) := by
  have hstands := arrival_stands buffer f
  have hlen := length_echoMessage icmpTypeEchoReply id sequence data
  rw [hf, echoFrame] at hstands ⊢
  obtain ⟨n, hn, hbytes, hreceive⟩ := ethReceiveFrame_ipPacket (t := s) hs hstands (by omega)
  rw [hlen] at hn
  rw [hreceive, if_pos rfl, icmpReceive_reply hn hbytes]

/-- **The echo exchange**: `b`, which knows the address of `a`, answers without asking. -/
theorem echo_exchange (buffer : Memory) {a₀ : NetState} {toA toB : List (List UInt8)}
    (ha : a.initialized = true) (hb : b.initialized = true) (hai : a.arrivals = [])
    (hbi : b.arrivals = [])
    (hip : a₀.ipAddress = a.ipAddress)
    (hsub : a.ipAddress &&& 0xFFFFFF00 = b.ipAddress &&& 0xFFFFFF00)
    (hmac : arpResolve a.ipAddress b = some a.localMac)
    (hao : a.outbox = toB ++
      [echoFrame a₀ b.localMac b.ipAddress icmpTypeEchoRequest id sequence data])
    (hbo : b.outbox = toA) :
    (TwoNodes.callsOnA buffer).poll ⟨a, b, toA, toB⟩ =
      ⟨icmpAnswer b.ipAddress sequence (a.log (.answered b.ipAddress sequence)),
        b.numbered.log
          (.sent (echoFrame b a.localMac a.ipAddress icmpTypeEchoReply id sequence data)),
        toA ++ [echoFrame b a.localMac a.ipAddress icmpTypeEchoReply id sequence data],
        toB ++ [echoFrame a₀ b.localMac b.ipAddress icmpTypeEchoRequest id sequence data]⟩ := by
  have hanswered : Answered buffer a b toA toB
      (echoFrame a₀ b.localMac b.ipAddress icmpTypeEchoRequest id sequence data)
      (echoFrame b a.localMac a.ipAddress icmpTypeEchoReply id sequence data)
      (b.numbered.log
        (.sent (echoFrame b a.localMac a.ipAddress icmpTypeEchoReply id sequence data))) :=
    { idleA := hai
      idleB := hbi
      readyA := ha
      readyB := hb
      sent := hao
      handled := echoRequest_handled hdata hb hip hsub hmac _ rfl
      answer := by
        have hout : b.numbered.outbox = b.outbox := rfl
        rw [outbox_log_sent, hout, hbo]
      fits := echoFrame_fits hdata _ _ _ _
      fits' := echoFrame_fits hdata _ _ _ _ }
  rw [hanswered.poll, echoReply_handled hdata a _ rfl rfl]

end Echoes

/-- What a node receives in an ARP frame and an echo frame. -/
theorem icmpMessages_pair (destMac srcMac : Mac) (p : ArpPacket) (s : NetState) (mac : Mac)
    (ip : UInt32) (type : UInt8) (id sequence : UInt16) {data : List UInt8}
    (hdata : data.length ≤ 1472) :
    icmpMessages buffer ip [arpFrame destMac srcMac p, echoFrame s mac ip type id sequence data] =
      [⟨s.ipAddress, type, id, sequence, data⟩] := by
  simp only [icmpMessages, List.filterMap_cons, List.filterMap_nil, icmp_arpFrame,
    icmp_echoFrame _ _ _ _ _ _ _ hdata]

/-- **The first packet to an unknown neighbour**: it is sent after the ARP exchange. -/
theorem first_send (ha : a.initialized = true) (hb : b.initialized = true) (hai : a.arrivals = [])
    (hbi : b.arrivals = []) (hao : a.outbox = []) (hbo : b.outbox = [])
    (hnone : arpResolve b.ipAddress a = none)
    (hsub : b.ipAddress &&& 0xFFFFFF00 = a.ipAddress &&& 0xFFFFFF00) (protocol : UInt8)
    {data : List UInt8} (hdata : data.length ≤ 1480) :
    (TwoNodes.callsOnA buffer).ipSend b.ipAddress protocol data ⟨a, b, [], []⟩ =
      ⟨(arpAddEntry b.ipAddress b.localMac (a.numbered.log (.sent (arpRequestFrame a b)))).log
          (.sent (ethFrame b.localMac a.localMac ethTypeIp
            (ipPacket a b.ipAddress protocol data))),
        (arpAddEntry a.ipAddress a.localMac b).log (.sent (arpReplyFrame a b)),
        [arpReplyFrame a b], [arpRequestFrame a b]⟩ := by
  have hlen := length_ipPacket a b.ipAddress protocol data
  have hpoll := arp_exchange buffer (b := b) (a := a.numbered) ha hb hai hbi hao hbo
  rw [callsOnA_ipSend (x := ⟨a, b, [], []⟩) hsub hdata hnone hpoll
    (arpResolve_arpAddEntry b.ipAddress b.localMac _)]
  have hsent : ∀ t : NetState, t.initialized = true →
      networkSendPacket (ethFrame b.localMac a.localMac ethTypeIp
        (ipPacket a b.ipAddress protocol data)) t = t.log (.sent (ethFrame b.localMac a.localMac
          ethTypeIp (ipPacket a b.ipAddress protocol data))) :=
    fun t ht => networkSendPacket_ethFrame ht (by omega) _ _ _
  exact congrArg (TwoNodes.mk · _ _ _) (hsent _ (by exact ha))

theorem Listed.log {s : NetState} {ip : UInt32} {sequence : UInt16} (h : Listed s ip sequence)
    (e : NetEvent) : Listed (s.log e) ip sequence := h

theorem Listed.numbered {s : NetState} {ip : UInt32} {sequence : UInt16}
    (h : Listed s ip sequence) : Listed s.numbered ip sequence := h

theorem Listed.arpAddEntry {s : NetState} {ip : UInt32} {sequence : UInt16}
    (h : Listed s ip sequence) (ip' : UInt32) (mac : Mac) :
    Listed (arpAddEntry ip' mac s) ip sequence := h

/-- The echo request `f` of `a` is under way to `b`, and each node knows the other's address. -/
structure UnderWay (a b : NetState) (id sequence : UInt16) (data f : List UInt8)
    (x : TwoNodes) : Prop where
  readyA : x.a.initialized = true
  readyB : x.b.initialized = true
  idleA : x.a.arrivals = []
  idleB : x.b.arrivals = []
  ipA : x.a.ipAddress = a.ipAddress
  ipB : x.b.ipAddress = b.ipAddress
  macA : x.a.localMac = a.localMac
  macB : x.b.localMac = b.localMac
  foundA : arpResolve b.ipAddress x.a = some b.localMac
  foundB : arpResolve a.ipAddress x.b = some a.localMac
  listed : Listed x.a b.ipAddress sequence
  sentA : x.a.outbox = x.toB ++ [f]
  sentB : x.b.outbox = x.toA
  request : ∃ a₀ : NetState, a₀.ipAddress = a.ipAddress ∧
    f = echoFrame a₀ b.localMac b.ipAddress icmpTypeEchoRequest id sequence data

theorem icmpWaitReply_first {destIp : UInt32} {sequence : UInt16} {timeoutMs : UInt32}
    (ht : 0 < timeoutMs) {x x' : TwoNodes} (hpoll : (TwoNodes.callsOnA buffer).poll x = x')
    (hanswered : pingAnswered x'.a destIp sequence = true) :
    (TwoNodes.callsOnA buffer).icmpWaitReply destIp sequence timeoutMs x = (true, x') := by
  obtain ⟨rounds, hrounds⟩ :=
    Nat.exists_eq_succ_of_ne_zero (Nat.ne_of_gt (UInt32.lt_iff_toNat_lt.mp ht))
  rw [Host.icmpWaitReply, hrounds, Host.waitLoop, UInt32.sub_self, if_pos ht]
  simp only [hpoll]
  exact if_pos hanswered

/-- **The wait for it succeeds at the first poll.** -/
theorem UnderWay.wait (buffer : Memory) {id sequence : UInt16} {data f : List UInt8} {x : TwoNodes}
    (h : UnderWay a b id sequence data f x) (hdata : data.length ≤ 1472)
    (hsub : a.ipAddress &&& 0xFFFFFF00 = b.ipAddress &&& 0xFFFFFF00) {timeoutMs : UInt32}
    (ht : 0 < timeoutMs) : ∃ a' b' g,
      (TwoNodes.callsOnA buffer).icmpWaitReply b.ipAddress sequence timeoutMs x =
        (true, ⟨a', b', x.toA ++ [g], x.toB ++ [f]⟩) ∧
      arpResolve a.ipAddress b' = some a.localMac ∧ arpResolve b.ipAddress a' = some b.localMac ∧
      a'.outbox = x.toB ++ [f] ∧ b'.outbox = x.toA ++ [g] ∧
      g = echoFrame x.b a.localMac a.ipAddress icmpTypeEchoReply id sequence data := by
  obtain ⟨a₁, b₁, toA, toB⟩ := x
  obtain ⟨a₀, hip, hf⟩ := h.request
  have hsent := h.sentA
  rw [hf, ← h.macB, ← h.ipB] at hsent
  have hpoll := echo_exchange hdata buffer h.readyA h.readyB h.idleA h.idleB
    (hip.trans h.ipA.symm) (by rw [h.ipA, h.ipB, hsub]) (by rw [h.ipA, h.macA, h.foundB]) hsent
    h.sentB
  simp only at hpoll
  rw [h.macB, h.ipB, h.macA, h.ipA, ← hf] at hpoll
  have hanswering := icmpAnswer_answering b.ipAddress sequence a₁
  obtain ⟨pingStates, hframe⟩ :=
    icmpAnswer_frame b.ipAddress sequence (a₁.log (.answered b.ipAddress sequence))
  have hanswered : pingAnswered
      (icmpAnswer b.ipAddress sequence (a₁.log (.answered b.ipAddress sequence))) b.ipAddress
        sequence = true := by
    refine hanswering.marked _ _ h.listed ?_
    rw [since_eq (l := [.answered b.ipAddress sequence]) (by rw [hframe]; rfl)]
    exact List.mem_singleton_self _
  refine ⟨_, _, _, icmpWaitReply_first ht hpoll hanswered, h.foundB, ?_, ?_, ?_, rfl⟩
  · rw [hframe]
    exact h.foundA
  · rw [hframe]
    exact (outbox_log_other (e := .answered b.ipAddress sequence) rfl a₁).trans h.sentA
  · rw [outbox_log_sent]
    exact congrArg (· ++ [_]) h.sentB

/-- A fresh node in which `ip_send` is called with the request. -/
structure Requesting (a : NetState) (destIp : UInt32) (sequence : UInt16) (a₀ : NetState) : Prop where
  ready : a₀.initialized = true
  idle : a₀.arrivals = []
  ip : a₀.ipAddress = a.ipAddress
  mac : a₀.localMac = a.localMac
  empty : ∀ i, (a₀.arpCache i).valid = false
  outbox : a₀.outbox = []
  listed : Listed a₀ destIp sequence

theorem FreshNode.requesting (ha : FreshNode a) (destIp : UInt32) (id sequence : UInt16) :
    Requesting a destIp sequence
      (pingStart destIp sequence (a.log (.pinged destIp id sequence))) := by
  have hlisted : Listed (pingStart destIp sequence (a.log (.pinged destIp id sequence)))
      destIp sequence := by
    refine pingStart_listed (i := 0) ?_ _ _
    rw [pingFree]
    change (!(a.pingStates 0).received || _) = true
    rw [ha.pingStates 0]
    rfl
  obtain ⟨pingStates, hstart⟩ :=
    pingStart_frame destIp sequence (a.log (.pinged destIp id sequence))
  generalize pingStart destIp sequence (a.log (.pinged destIp id sequence)) = a₀
    at hstart hlisted
  refine ⟨?_, ?_, ?_, ?_, ?_, ?_, hlisted⟩
  · rw [hstart]; exact ha.initialized
  · rw [hstart]; exact ha.arrivals
  · rw [hstart]; rfl
  · rw [hstart]; rfl
  · rw [hstart]; exact ha.arpCache
  · rw [hstart]
    refine (outbox_log_other (e := .pinged destIp id sequence) rfl a).trans ?_
    rw [NetState.outbox, ha.trace]
    rfl

/-- The first request leaves after the ARP exchange. -/
theorem first_request (buffer : Memory) (ha : FreshNode a) (hb : FreshNode b)
    (hsub : a.ipAddress &&& 0xFFFFFF00 = b.ipAddress &&& 0xFFFFFF00) (id sequence : UInt16) :
    ∃ (a₀ : NetState) (x : TwoNodes), a₀.ipAddress = a.ipAddress ∧
      (TwoNodes.callsOnA buffer).icmpSendEchoRequest b.ipAddress id sequence ⟨a, b, [], []⟩ = x ∧
      x.toA = [arpReplyFrame a₀ b] ∧ x.toB = [arpRequestFrame a₀ b] ∧
      UnderWay a b id sequence pingData
        (echoFrame a₀ b.localMac b.ipAddress icmpTypeEchoRequest id sequence pingData) x := by
  have hstarted := ha.requesting b.ipAddress id sequence
  have hcall : (TwoNodes.callsOnA buffer).icmpSendEchoRequest b.ipAddress id sequence
      ⟨a, b, [], []⟩ = (TwoNodes.callsOnA buffer).ipSend b.ipAddress ipProtoIcmp
        (echoMessage icmpTypeEchoRequest id sequence pingData)
        ⟨pingStart b.ipAddress sequence (a.log (.pinged b.ipAddress id sequence)), b, [], []⟩ := rfl
  generalize pingStart b.ipAddress sequence (a.log (.pinged b.ipAddress id sequence)) = a₀
    at hstarted hcall
  obtain ⟨hready, hidle, hip, hmac, hempty, hout, hlisted⟩ := hstarted
  have hbout : b.outbox = [] := by rw [NetState.outbox, hb.trace]; rfl
  have hnone := arpResolve_empty hempty b.ipAddress
  have hlen : (echoMessage icmpTypeEchoRequest id sequence pingData).length ≤ 1480 := by
    rw [length_echoMessage]
    decide
  refine ⟨a₀, _, hip, hcall.trans (first_send hready hb.initialized hidle hb.arrivals hout hbout
    hnone (by rw [hip, hsub]) ipProtoIcmp hlen), rfl, rfl, ?_⟩
  exact
    { readyA := hready
      readyB := hb.initialized
      idleA := hidle
      idleB := hb.arrivals
      ipA := hip
      ipB := rfl
      macA := hmac
      macB := rfl
      foundA := by rw [arpResolve_log, arpResolve_arpAddEntry]
      foundB := by rw [arpResolve_log, ← hip, ← hmac, arpResolve_arpAddEntry]
      listed := ((hlisted.numbered.log _).arpAddEntry _ _).log _
      sentA := by
        have hsame : (arpAddEntry b.ipAddress b.localMac
          (a₀.numbered.log (.sent (arpRequestFrame a₀ b)))).outbox =
            (a₀.numbered.log (.sent (arpRequestFrame a₀ b))).outbox := rfl
        have hnumbered : a₀.numbered.outbox = a₀.outbox := rfl
        rw [outbox_log_sent, hsame, outbox_log_sent, hnumbered, hout]
        rfl
      sentB := by
        have hsame : (arpAddEntry a₀.ipAddress a₀.localMac b).outbox = b.outbox := rfl
        rw [outbox_log_sent, hsame, hbout]
        rfl
      request := ⟨a₀, hip, rfl⟩ }

/-- **The first ping between two fresh nodes of a subnet succeeds.** Both learn the other's address,
and the only ICMP messages are the request and its reply. -/
theorem cold_start_ping (buffer : Memory) (ha : FreshNode a) (hb : FreshNode b)
    (hsub : a.ipAddress &&& 0xFFFFFF00 = b.ipAddress &&& 0xFFFFFF00) (id sequence : UInt16)
    {timeoutMs : UInt32} (ht : 0 < timeoutMs) : ∃ a' b' toA toB,
      (TwoNodes.callsOnA buffer).icmpWaitReply b.ipAddress sequence timeoutMs
        ((TwoNodes.callsOnA buffer).icmpSendEchoRequest b.ipAddress id sequence ⟨a, b, [], []⟩) =
          (true, ⟨a', b', toA, toB⟩) ∧
      arpResolve a.ipAddress b' = some a.localMac ∧ arpResolve b.ipAddress a' = some b.localMac ∧
      a'.outbox = toB ∧ b'.outbox = toA ∧
      icmpMessages buffer b.ipAddress toB =
        [⟨a.ipAddress, icmpTypeEchoRequest, id, sequence, pingData⟩] ∧
      icmpMessages buffer a.ipAddress toA =
        [⟨b.ipAddress, icmpTypeEchoReply, id, sequence, pingData⟩] := by
  have hdata : pingData.length ≤ 1472 := by decide
  obtain ⟨a₀, x, hip, hsent, htoA, htoB, hunderWay⟩ := first_request buffer ha hb hsub id sequence
  obtain ⟨a', b', g, hwait, hfoundB, hfoundA, houtA, houtB, hg⟩ :=
    hunderWay.wait buffer hdata hsub ht
  rw [htoA, htoB] at hwait
  rw [htoB] at houtA
  rw [htoA] at houtB
  rw [hsent]
  refine ⟨a', b', _, _, hwait, hfoundB, hfoundA, houtA, houtB, ?_, ?_⟩
  · rw [← hip]
    exact icmpMessages_pair _ _ _ a₀ b.localMac b.ipAddress _ id sequence hdata
  · rw [hg, ← hunderWay.ipB]
    exact icmpMessages_pair _ _ _ _ a.localMac a.ipAddress _ id sequence hdata

end FirstPing

/-- The kernel's node pings 10.0.2.2. -/
theorem kernel_pings_neighbour :
    let b := { NetState.static true broadcastMac with ipAddress := 0x0A000202 }
    ∃ a' b' toA toB,
      (TwoNodes.callsOnA fun _ => 0).icmpWaitReply b.ipAddress 1 1000
        ((TwoNodes.callsOnA fun _ => 0).icmpSendEchoRequest b.ipAddress 1234 1
          ⟨kernelNet, b, [], []⟩) = (true, ⟨a', b', toA, toB⟩) ∧
      arpResolve kernelNet.ipAddress b' = some kernelNet.localMac ∧
      arpResolve b.ipAddress a' = some b.localMac ∧ a'.outbox = toB ∧ b'.outbox = toA ∧
      icmpMessages (fun _ => 0) b.ipAddress toB =
        [⟨kernelNet.ipAddress, icmpTypeEchoRequest, 1234, 1, pingData⟩] ∧
      icmpMessages (fun _ => 0) kernelNet.ipAddress toA =
        [⟨b.ipAddress, icmpTypeEchoReply, 1234, 1, pingData⟩] :=
  cold_start_ping (fun _ => 0) ⟨rfl, fun _ => rfl, fun _ => rfl, rfl, rfl⟩
    ⟨rfl, fun _ => rfl, fun _ => rfl, rfl, rfl⟩ (by decide) 1234 1 (by decide)

end EphemeralOS
