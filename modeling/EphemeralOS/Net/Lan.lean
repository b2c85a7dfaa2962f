import EphemeralOS.Lib.Wire
import EphemeralOS.Net.SentFrames

/-!
# A network of nodes

Any number of nodes that run this stack, on one wire. What a node has sent may
reach any node at any later time, in any order, again and again or never; and
the nodes take their steps in any order, also while another is in the middle of
a call (`LanReached`).

On such a network ARP is right: what a node finds in its cache is the address of
the node that has it, so every packet goes to the node that it should go to next
(`arp_agreement`). And a ping that succeeds has been answered: the node sent an
echo request, and the node at that address sent the reply to it (`ping_agreement`).
-/

namespace EphemeralOS

open Binary Relation

variable {ι : Type}

def icmpFrame (s : NetState) (srcMac destMac : Mac) (destIp : UInt32) (message : List UInt8) :
    List UInt8 := ethFrame destMac srcMac ethTypeIp (ipPacket s destIp ipProtoIcmp message)

def echoAnswer (id sequence : UInt16) : List UInt8 :=
  echoMessage icmpTypeEchoReply id sequence pingData

theorem outbox_mono {s s' : NetState} (h : s.trace <:+ s'.trace) {frame : List UInt8}
    (hf : frame ∈ s.outbox) : frame ∈ s'.outbox := by
  rw [NetState.outbox, List.mem_filterMap] at hf ⊢
  obtain ⟨e, he, hframe⟩ := hf
  exact ⟨e, List.mem_reverse.mpr (h.mem (List.mem_reverse.mp he)), hframe⟩

section Sent

-- each node `j` of the network `x` is at `ip j` and `mac j`
variable (ip : ι → UInt32) (mac : ι → Mac) (x : ι → NetState) (i : ι)

/-- Node `i` has sent `message` to `destIp`, by way of the node that it must go to next. -/
def SentIcmp (destIp : UInt32) (message : List UInt8) : Prop :=
  ∃ (j : ι) (s : NetState), s.ipAddress = ip i ∧ ipTarget (ip i) destIp = ip j ∧
    icmpFrame s (mac i) (mac j) destIp message ∈ (x i).outbox

/-- Node `i` has pinged `destIp`, and sent the echo request. -/
def Pinged (destIp : UInt32) (id sequence : UInt16) : Prop :=
  .pinged destIp id sequence ∈ (x i).trace ∧ SentIcmp ip mac x i destIp (echoRequest id sequence)

end Sent

/-- A frame that node `i` sends on the network `x`. -/
inductive LanFrame (ip : ι → UInt32) (mac : ι → Mac) (x : ι → NetState) (i : ι) :
    List UInt8 → Prop
  | request (targetIp : UInt32) : LanFrame ip mac x i
      (arpFrame broadcastMac (mac i) (arpPacket arpOperRequest (mac i) (ip i) CArray.zero targetIp))
  | reply (j : ι) : LanFrame ip mac x i
      (arpFrame (mac j) (mac i) (arpPacket arpOperReply (mac i) (ip i) (mac j) (ip j)))
  | datagram {j : ι} {s : NetState} {destIp : UInt32} {data : List UInt8} :
      s.ipAddress = ip i → ipTarget (ip i) destIp = ip j → data.length ≤ 1480 →
      LanFrame ip mac x i (ethFrame (mac j) (mac i) ethTypeIp (ipPacket s destIp ipProtoUdp data))
  | ping {j : ι} {s : NetState} {destIp : UInt32} {id sequence : UInt16} :
      s.ipAddress = ip i → ipTarget (ip i) destIp = ip j →
      .pinged destIp id sequence ∈ (x i).trace →
      LanFrame ip mac x i (icmpFrame s (mac i) (mac j) destIp (echoRequest id sequence))
  | answer {j k : ι} {s : NetState} {destIp : UInt32} {id sequence : UInt16} :
      s.ipAddress = ip i → ipTarget (ip i) (ip k) = ip j →
      destIp = ip i ∨ destIp = 0xFFFFFFFF → Pinged ip mac x k destIp id sequence →
      LanFrame ip mac x i (icmpFrame s (mac i) (mac j) (ip k) (echoAnswer id sequence))

/-- A packet that the wire can deliver. -/
def Delivered (wire : List UInt8 → Prop) (p : Packet) : Prop :=
  ∃ buffer frame, wire frame ∧ p = arrival buffer frame

theorem Delivered.mono {wire wire' : List UInt8 → Prop} (h : ∀ frame, wire frame → wire' frame)
    {p : Packet} (hp : Delivered wire p) : Delivered wire' p := by
  obtain ⟨buffer, frame, hframe, rfl⟩ := hp
  exact ⟨buffer, frame, h frame hframe, rfl⟩

/-! ## What is heard -/

theorem length_echoAnswer (id sequence : UInt16) : (echoAnswer id sequence).length = 64 := by
  rw [echoAnswer, length_echoMessage, pingData, List.length_map, List.length_range]

theorem ipHeaderAt_ipPacket {m : Memory} {s : NetState} {destIp : UInt32} {protocol : UInt8}
    {data : List UInt8} (hm : m.Stands 0 (ipPacket s destIp protocol data)) : ipHeaderAt m =
      (ipHeader s destIp protocol (ipHeaderMinLen + UInt16.ofNat data.length)).checked := by
  have hheader := (Memory.stands_append.mp hm).1
  rw [Memory.Stands, Layout.length_enc, sizeof_ipHeader] at hheader
  rw [ipHeaderAt, hheader, Layout.dec_enc]

section Packet

variable {buffer : Memory} {s : NetState} {destMac srcMac : Mac} {destIp : UInt32}
  {protocol : UInt8} {data frame : List UInt8}
  (hframe : frame = ethFrame destMac srcMac ethTypeIp (ipPacket s destIp protocol data))
  (hlen : data.length ≤ 1480)

include hframe hlen

/-- **An ICMP message that is received has been sent**, by the node that it comes from. -/
theorem ToIcmp.of_ipFrame {localIp srcIp : UInt32} {m : Memory} {n : UInt16}
    (h : ToIcmp localIp (arrival buffer frame) srcIp m n) : protocol = ipProtoIcmp ∧
      srcIp = s.ipAddress ∧ (destIp = localIp ∨ destIp = 0xFFFFFFFF) ∧
      n.toNat = data.length ∧ m.Stands 0 data := by
  have hstands : (arrival buffer frame).bytes.Stands 0
      (ethFrame destMac srcMac ethTypeIp (ipPacket s destIp protocol data)) :=
    hframe ▸ arrival_stands buffer frame
  cases h with
  | intro heth hip hn =>
    next off n off' =>
    obtain ⟨-, rfl, -⟩ := ethPayload_some heth
    have hpacket := (stands_ethFrame hstands).2
    rw [ipPayload_eq] at hip
    split at hip <;> [skip; cases hip]
    next hc =>
    have hihl : ∀ total, (ipHeader s destIp protocol total).checked.ihl = 20 := fun _ =>
      show ((0x45 &&& 0x0F : UInt8) * 4).toUInt16 = 20 by decide
    rw [ipHeaderAt_ipPacket hpacket, hihl] at hip hc
    simp only [IpHeader.checked, ipHeader, ntohs, ntohl, htons_htons, htonl_htonl] at hip hc
    obtain ⟨hprotocol, hrest⟩ := Prod.mk.inj (Option.some.inj hip)
    obtain ⟨hsrc, hrest⟩ := Prod.mk.inj hrest
    obtain ⟨rfl, hsize⟩ := Prod.mk.inj hrest
    have hdata := (Memory.stands_append.mp hpacket).2
    rw [Layout.length_enc, sizeof_ipHeader] at hdata
    refine ⟨hprotocol, hsrc.symm, hc.2.2.2.2.2, ?_, Memory.stands_shift.mpr hdata⟩
    have htotal := totalLength_toNat hlen
    rw [← hsize, UInt16.toNat_sub_of_le, htotal]
    · exact Nat.add_sub_cancel_left 20 _
    · rw [UInt16.le_iff_toNat_le, htotal]
      exact Nat.le_add_right 20 _

theorem not_arp_of_ipFrame {off : Nat} {n : UInt16} :
    ethPayload (arrival buffer frame).bytes (arrival buffer frame).length ≠
      some (.arp, off, n) := by
  intro heth
  have hsize := length_ipPacket s destIp protocol data
  have hstands : (arrival buffer frame).bytes.Stands 0
      (ethFrame destMac srcMac EthLayer.ip.type (ipPacket s destIp protocol data)) :=
    hframe ▸ arrival_stands buffer frame
  obtain ⟨n', heth', -⟩ := ethPayload_ethFrame .ip hstands (by omega)
  have hip : ethPayload (arrival buffer frame).bytes (arrival buffer frame).length =
      some (.ip, 14, n') := by
    rw [show (arrival buffer frame).length = UInt16.ofNat frame.length from rfl, hframe]
    rw [hframe] at heth'
    exact heth'
  rw [hip] at heth
  cases heth

end Packet

/-- An ARP packet that is received has been sent, and is none for `icmp_receive`. -/
theorem arpFrame_received {buffer : Memory} {destMac srcMac : Mac} {a : ArpPacket}
    {frame : List UInt8} (hframe : frame = arpFrame destMac srcMac a) :
    (∀ localIp srcIp m n, ¬ ToIcmp localIp (arrival buffer frame) srcIp m n) ∧
      ∀ off n, ethPayload (arrival buffer frame).bytes (arrival buffer frame).length =
        some (.arp, off, n) →
          arpPacketLayout.dec (((arrival buffer frame).bytes.shift off).bytes 0 28) = a := by
  have hstands : (arrival buffer frame).bytes.Stands 0
      (ethFrame destMac srcMac ethTypeArp (arpPacketLayout.enc a)) :=
    hframe ▸ arrival_stands buffer frame
  obtain ⟨htype, hpacket⟩ := stands_ethFrame hstands
  refine ⟨fun localIp srcIp m n h => ?_, fun off n heth => ?_⟩
  · cases h with
    | intro heth hip hn =>
      obtain ⟨-, rfl, rfl⟩ := ethPayload_some heth
      have hip := (ethPayload_ip.mp heth).2
      rw [htype, ntohs, htons_htons] at hip
      exact absurd hip (by decide)
  · obtain ⟨-, rfl, -⟩ := ethPayload_some heth
    rw [Memory.Stands, length_arpPacket] at hpacket
    rw [hpacket, Layout.dec_enc]

section Frames

variable {ip : ι → UInt32} {mac : ι → Mac} {x y : ι → NetState} {i : ι} {frame : List UInt8}
  {buffer : Memory}

def Grows (x y : ι → NetState) : Prop := ∀ i, (x i).trace <:+ (y i).trace

theorem SentIcmp.later {destIp : UInt32} {message : List UInt8}
    (h : SentIcmp ip mac x i destIp message) (hxy : Grows x y) :
    SentIcmp ip mac y i destIp message := by
  obtain ⟨j, s, hip, htarget, hout⟩ := h
  exact ⟨j, s, hip, htarget, outbox_mono (hxy i) hout⟩

theorem Pinged.later {destIp : UInt32} {id sequence : UInt16}
    (h : Pinged ip mac x i destIp id sequence) (hxy : Grows x y) :
    Pinged ip mac y i destIp id sequence := ⟨(hxy i).mem h.1, h.2.later hxy⟩

theorem LanFrame.later (h : LanFrame ip mac x i frame) (hxy : Grows x y) :
    LanFrame ip mac y i frame := by
  cases h with
  | request targetIp => exact .request targetIp
  | reply j => exact .reply j
  | datagram hip htarget hlen => exact .datagram hip htarget hlen
  | ping hip htarget hping => exact .ping hip htarget ((hxy i).mem hping)
  | answer hip htarget hdest hping => exact .answer hip htarget hdest (hping.later hxy)

/-- **The ARP packets on the network tell the truth** about their senders. -/
theorem LanFrame.arp (h : LanFrame ip mac x i frame) {off : Nat} {n : UInt16}
    (heth : ethPayload (arrival buffer frame).bytes (arrival buffer frame).length =
      some (.arp, off, n)) :
    ∃ oper tha tpa, arpPacketLayout.dec (((arrival buffer frame).bytes.shift off).bytes 0 28) =
      arpPacket oper (mac i) (ip i) tha tpa := by
  obtain ⟨f, hf⟩ : ∃ f, frame = f := ⟨frame, rfl⟩
  rw [hf] at h
  cases h with
  | request targetIp => exact ⟨_, _, _, (arpFrame_received hf).2 off n heth⟩
  | reply j => exact ⟨_, _, _, (arpFrame_received hf).2 off n heth⟩
  | datagram hip htarget hlen => exact absurd heth (not_arp_of_ipFrame hf hlen)
  | ping hip htarget hping =>
    exact absurd heth (not_arp_of_ipFrame hf (by rw [length_echoRequest]; decide))
  | answer hip htarget hdest hping =>
    exact absurd heth (not_arp_of_ipFrame hf (by rw [length_echoAnswer]; decide))

/-- An ICMP message that a node hears from node `i`: a ping, or the answer to one. -/
inductive LanMessage (ip : ι → UInt32) (mac : ι → Mac) (x : ι → NetState) (i : ι)
    (localIp : UInt32) (m : Memory) (n : UInt16) : Prop
  | ping {destIp : UInt32} {id sequence : UInt16} : destIp = localIp ∨ destIp = 0xFFFFFFFF →
      Pinged ip mac x i destIp id sequence → n.toNat = 64 →
      m.Stands 0 (echoMessage icmpTypeEchoRequest id sequence pingData) →
      LanMessage ip mac x i localIp m n
  | answer {k : ι} {destIp : UInt32} {id sequence : UInt16} :
      ip k = localIp ∨ ip k = 0xFFFFFFFF → destIp = ip i ∨ destIp = 0xFFFFFFFF →
      Pinged ip mac x k destIp id sequence → SentIcmp ip mac x i (ip k) (echoAnswer id sequence) →
      n.toNat = 64 → m.Stands 0 (echoMessage icmpTypeEchoReply id sequence pingData) →
      LanMessage ip mac x i localIp m n

/-- **The ICMP messages on the network are pings and answers to pings.** -/
theorem LanFrame.icmp (h : LanFrame ip mac x i frame) (hout : frame ∈ (x i).outbox)
    {localIp srcIp : UInt32} {m : Memory} {n : UInt16}
    (hm : ToIcmp localIp (arrival buffer frame) srcIp m n) :
    srcIp = ip i ∧ LanMessage ip mac x i localIp m n := by
  obtain ⟨f, hf⟩ : ∃ f, frame = f := ⟨frame, rfl⟩
  rw [hf] at h hout
  cases h with
  | request targetIp => exact absurd hm ((arpFrame_received hf).1 _ _ _ _)
  | reply j => exact absurd hm ((arpFrame_received hf).1 _ _ _ _)
  | datagram hip htarget hlen => exact absurd (hm.of_ipFrame hf hlen).1 (by decide)
  | ping hip htarget hping =>
    obtain ⟨-, hsrc, hdest, hn, hstands⟩ :=
      hm.of_ipFrame hf (by rw [length_echoRequest]; decide)
    rw [length_echoRequest] at hn
    exact ⟨hsrc.trans hip, .ping hdest ⟨hping, _, _, hip, htarget, hout⟩ hn hstands⟩
  | answer hip htarget hdest hping =>
    obtain ⟨-, hsrc, hlocal, hn, hstands⟩ :=
      hm.of_ipFrame hf (by rw [length_echoAnswer]; decide)
    rw [length_echoAnswer] at hn
    exact ⟨hsrc.trans hip,
      .answer hlocal hdest hping ⟨_, _, hip, htarget, hout⟩ hn hstands⟩

end Frames

/-! ## A node on the network -/

theorem arpResolve_entry {s : NetState} {ip : UInt32} {mac : Mac} (h : arpResolve ip s = some mac) :
    ∃ k, (s.arpCache k).valid = true ∧ (s.arpCache k).ip = ip ∧ (s.arpCache k).mac = mac := by
  rw [arpResolve, Option.map_eq_some_iff] at h
  obtain ⟨k, hk, hmac⟩ := h
  have hfor := List.find?_some hk
  rw [decide_eq_true_eq] at hfor
  exact ⟨k, hfor.1, hfor.2, hmac⟩

/-- A frame that one of the nodes has sent. -/
def SentOn (ip : ι → UInt32) (mac : ι → Mac) (x : ι → NetState) (frame : List UInt8) : Prop :=
  ∃ j, LanFrame ip mac x j frame ∧ frame ∈ (x j).outbox

/-- A ping of node `i` with this sequence number, to `srcIp` or to all, and the reply to it that
the node at `srcIp` sent. -/
def Replied (ip : ι → UInt32) (mac : ι → Mac) (x : ι → NetState) (i : ι) (srcIp : UInt32)
    (sequence : UInt16) : Prop :=
  ∃ (j : ι) (destIp : UInt32) (id : UInt16), ip j = srcIp ∧
    (destIp = srcIp ∨ destIp = 0xFFFFFFFF) ∧ Pinged ip mac x i destIp id sequence ∧
    SentIcmp ip mac x j (ip i) (echoAnswer id sequence)

/-- What holds of node `i` of the network all the time. -/
structure LanNode (ip : ι → UInt32) (mac : ι → Mac) (x : ι → NetState) (i : ι) (s : NetState) :
    Prop where
  ipAddress : s.ipAddress = ip i
  localMac : s.localMac = mac i
  arpCache : ∀ k, (s.arpCache k).valid = true →
    ∃ j, (s.arpCache k).ip = ip j ∧ (s.arpCache k).mac = mac j
  heard : Heard (Delivered (SentOn ip mac x)) s
  sent : ∀ frame ∈ s.outbox, LanFrame ip mac x i frame
  answered : ∀ srcIp sequence, .answered srcIp sequence ∈ s.trace →
    Replied ip mac x i srcIp sequence
  received : ∀ k, (s.pingStates k).received = true →
    .answered (s.pingStates k).ip (s.pingStates k).sequence ∈ s.trace

section Node

variable {ip : ι → UInt32} {mac : ι → Mac} {x y : ι → NetState} {i : ι} {s s' : NetState}

theorem SentOn.later {frame : List UInt8} (h : SentOn ip mac x frame) (hxy : Grows x y) :
    SentOn ip mac y frame := by
  obtain ⟨j, hframe, hout⟩ := h
  exact ⟨j, hframe.later hxy, outbox_mono (hxy j) hout⟩

theorem LanNode.later (h : LanNode ip mac x i s) (hxy : Grows x y) : LanNode ip mac y i s where
  ipAddress := h.ipAddress
  localMac := h.localMac
  arpCache := h.arpCache
  heard p hp := (h.heard p hp).mono fun _ hf => hf.later hxy
  sent frame hf := (h.sent frame hf).later hxy
  answered srcIp sequence ha := by
    obtain ⟨j, destIp, id, hj, hdest, hping, hreply⟩ := h.answered srcIp sequence ha
    exact ⟨j, destIp, id, hj, hdest, hping.later hxy, hreply.later hxy⟩
  received := h.received

theorem LanNode.resolve (h : LanNode ip mac x i s) {a : UInt32} {m : Mac}
    (hm : arpResolve a s = some m) : ∃ j, a = ip j ∧ m = mac j := by
  obtain ⟨k, hvalid, rfl, rfl⟩ := arpResolve_entry hm
  exact h.arpCache k hvalid

theorem LanNode.ethSendFrame (h : LanNode ip mac x i s) {destMac : Mac} {ethType : UInt16}
    {data : List UInt8} (hlen : data.length ≤ 1500)
    (hframe : LanFrame ip mac x i (ethFrame destMac (mac i) ethType data)) :
    LanNode ip mac x i (ethSendFrame destMac ethType data s) := by
  obtain ⟨hsame, harr, hcache, hpings⟩ := sameNode_ethSendFrame destMac ethType data s
  have hout := networkSendPacket_outbox destMac ethType hlen s rfl rfl
  have hevents : ∀ srcIp sequence,
      .answered srcIp sequence ∈ (EphemeralOS.ethSendFrame destMac ethType data s).trace →
      .answered srcIp sequence ∈ s.trace := by
    intro srcIp sequence ha
    rcases ethSendFrame_cases destMac ethType data s with hs | ⟨frame, hs⟩
    · exact hs ▸ ha
    · rw [hs] at ha
      exact (List.mem_cons.mp ha).resolve_left nofun
  refine ⟨hsame.ipAddress.trans h.ipAddress, hsame.localMac.trans h.localMac, ?_, ?_, ?_, ?_, ?_⟩
  · rw [hcache]
    exact h.arpCache
  · exact fun p hp => h.heard p (harr ▸ hp)
  · intro frame hf
    rcases hout with hout | hout
    · exact h.sent frame (hout ▸ hf)
    · rw [hout, h.localMac] at hf
      rcases List.mem_append.mp hf with hf | hf
      · exact h.sent frame hf
      · exact List.mem_singleton.mp hf ▸ hframe
  · exact fun srcIp sequence ha => h.answered srcIp sequence (hevents srcIp sequence ha)
  · rw [hpings]
    exact fun k hk => (trace_ethSendFrame destMac ethType data s).mem (h.received k hk)

theorem LanNode.arpAddEntry (h : LanNode ip mac x i s) (j : ι) :
    LanNode ip mac x i (arpAddEntry (ip j) (mac j) s) := by
  refine ⟨h.ipAddress, h.localMac, fun k hk => ?_, h.heard, h.sent, h.answered, h.received⟩
  simp only [EphemeralOS.arpAddEntry] at hk ⊢
  by_cases hki : k = arpSlot s.arpCache (ip j) (List.finRange 32) 0 0xFFFFFFFF
  · subst hki
    rw [Function.update_self]
    exact ⟨j, rfl, rfl⟩
  · rw [Function.update_of_ne hki] at hk ⊢
    exact h.arpCache k hk

theorem LanNode.pinged (h : LanNode ip mac x i s) (destIp : UInt32) (id sequence : UInt16) :
    LanNode ip mac x i (pingStart destIp sequence (s.log (.pinged destIp id sequence))) := by
  have hout : (s.log (.pinged destIp id sequence)).outbox = s.outbox := outbox_log_other rfl s
  have hlog : LanNode ip mac x i (s.log (.pinged destIp id sequence)) :=
    ⟨h.ipAddress, h.localMac, h.arpCache, h.heard, hout ▸ h.sent, fun srcIp sequence' ha =>
      h.answered srcIp sequence' ((List.mem_cons.mp ha).resolve_left nofun),
      fun k hk => List.mem_cons_of_mem _ (h.received k hk)⟩
  rw [pingStart]
  split
  · next slot hslot =>
    refine ⟨hlog.ipAddress, hlog.localMac, hlog.arpCache, hlog.heard, hlog.sent, hlog.answered,
      fun k hk => ?_⟩
    by_cases hks : k = slot
    · subst hks
      simp only [Function.update_self] at hk
      cases hk
    · simp only [Function.update_of_ne hks] at hk ⊢
      exact hlog.received k hk
  · exact hlog

theorem LanNode.noted (h : LanNode ip mac x i s) {srcIp : UInt32} {sequence : UInt16}
    (hreplied : Replied ip mac x i srcIp sequence) :
    LanNode ip mac x i (icmpAnswer srcIp sequence (s.log (.answered srcIp sequence))) := by
  have hout : (s.log (.answered srcIp sequence)).outbox = s.outbox := outbox_log_other rfl s
  have hlog : LanNode ip mac x i (s.log (.answered srcIp sequence)) := by
    refine ⟨h.ipAddress, h.localMac, h.arpCache, h.heard, hout ▸ h.sent, fun srcIp' seq' ha => ?_,
      fun k hk => List.mem_cons_of_mem _ (h.received k hk)⟩
    rcases List.mem_cons.mp ha with ha | ha
    · cases ha
      exact hreplied
    · exact h.answered srcIp' seq' ha
  rw [icmpAnswer]
  split
  · next slot hslot =>
    refine ⟨hlog.ipAddress, hlog.localMac, hlog.arpCache, hlog.heard, hlog.sent, hlog.answered,
      fun k hk => ?_⟩
    by_cases hks : k = slot
    · subst hks
      have hfor := List.find?_some hslot
      rw [decide_eq_true_eq] at hfor
      simp only [Function.update_self]
      rw [hfor.1, hfor.2.1]
      exact List.mem_cons_self
    · simp only [Function.update_of_ne hks] at hk ⊢
      exact hlog.received k hk
  · exact hlog

/-- What a node is asked to send: the pings that its history notes, and datagrams. -/
inductive Asked (s : NetState) : Asking
  | ping {destIp : UInt32} {id sequence : UInt16} : .pinged destIp id sequence ∈ s.trace →
      Asked s destIp ipProtoIcmp (echoRequest id sequence)
  | datagram {destIp : UInt32} {data : List UInt8} : data.length ≤ 1500 →
      Asked s destIp ipProtoUdp data

theorem asked_lasting : Lasting Asked := by
  intro s s' htrace destIp protocol data h
  cases h with
  | ping hping => exact .ping (htrace.mem hping)
  | datagram hlen => exact .datagram hlen

theorem NetOp.asked {op : NetOp} {s t : NetState} (hnoted : op.Noted t) {destIp : UInt32}
    {protocol : UInt8} {data : List UInt8} (h : op.asks s destIp protocol data) :
    Asked t destIp protocol data := by
  cases op with
  | ping destIp id sequence =>
    obtain ⟨rfl, rfl, rfl⟩ := h
    exact .ping hnoted
  | resolve hostname =>
    cases h with
    | datagram hlen => exact .datagram hlen
  | sync localTime =>
    cases h with
    | datagram hlen => exact .datagram hlen
  | _ => exact h.elim

theorem LanNode.quiet (h : LanNode ip mac x i s) (hq : NetQuiet s s') : LanNode ip mac x i s' := by
  have hevents : ∀ srcIp sequence, .answered srcIp sequence ∈ s'.trace ↔
      .answered srcIp sequence ∈ s.trace := by
    intro srcIp sequence
    rcases hq.trace with ht | ⟨callback, srcIp', srcPort, payload, ht⟩
    · rw [ht]
    · rw [ht]
      exact ⟨fun ha => (List.mem_cons.mp ha).resolve_left nofun, List.mem_cons_of_mem _⟩
  refine ⟨hq.ipAddress.trans h.ipAddress, hq.localMac.trans h.localMac, ?_,
    fun p hp => h.heard p (hq.arrivals.mem hp), ?_, ?_, ?_⟩
  · rw [hq.arpCache]
    exact h.arpCache
  · rw [hq.outbox]
    exact h.sent
  · exact fun srcIp sequence ha => h.answered srcIp sequence ((hevents _ _).mp ha)
  · rw [hq.pingStates]
    exact fun k hk => (hevents _ _).mpr (h.received k hk)

/-- What it learns is the sender's address, which the packet tells truly. -/
theorem LanNode.arpReceive (h : LanNode ip mac x i s) {p : Packet}
    (hp : Delivered (SentOn ip mac x) p) {off : Nat} {n : UInt16}
    (heth : ethPayload p.bytes p.length = some (.arp, off, n)) :
    LanNode ip mac x i (arpReceive (p.bytes.shift off) n s) := by
  obtain ⟨buffer, frame, ⟨j, hframe, -⟩, rfl⟩ := hp
  obtain ⟨oper, tha, tpa, hdec⟩ := hframe.arp heth
  have hspa : ntohl (htonl (ip j)) = ip j := htonl_htonl _
  rcases arpReceive_cases ((arrival buffer frame).bytes.shift off) n s with
    hr | ⟨a, ha, hr | ⟨hasks, hr⟩⟩
  · rw [hr]
    exact h
  · rw [hr, arpAccepted_some ha, hdec]
    simp only [arpPacket, hspa]
    exact h.arpAddEntry j
  · rw [hr, arpAccepted_some ha, hdec, h.ipAddress, h.localMac]
    simp only [arpPacket, hspa]
    exact (h.arpAddEntry j).ethSendFrame ((length_arpPacket _).trans_le (by decide)) (.reply j)

/-- **An echo reply that is received is the answer to a ping** of the node that receives it. -/
theorem LanNode.replied (hinj : Function.Injective ip) (hunicast : ∀ j, ip j ≠ 0xFFFFFFFF)
    (h : LanNode ip mac x i s) {p : Packet} (hp : Delivered (SentOn ip mac x) p) {srcIp : UInt32}
    {m : Memory} {n : UInt16} (hm : ToIcmp s.ipAddress p srcIp m n)
    (htype : (icmpHeaderAt m).type = icmpTypeEchoReply) :
    Replied ip mac x i srcIp (ntohs (icmpHeaderAt m).sequence) := by
  obtain ⟨buffer, frame, ⟨j, hframe, hout⟩, rfl⟩ := hp
  obtain ⟨rfl, hmessage⟩ := hframe.icmp hout hm
  cases hmessage with
  | ping hdest hping hn hstands =>
    obtain ⟨⟨checksum, hheader⟩, -⟩ := stands_echoMessage hstands
    rw [icmpHeaderAt, hheader] at htype
    exact absurd htype (show ¬ icmpTypeEchoRequest = icmpTypeEchoReply by decide)
  | answer hlocal hdest hping hreply hn hstands =>
    next k destIp id sequence =>
    obtain ⟨⟨checksum, hheader⟩, -⟩ := stands_echoMessage hstands
    have hsequence : ntohs (icmpHeaderAt m).sequence = sequence := by
      rw [icmpHeaderAt, hheader]
      exact htons_htons sequence
    have hk : k = i := hinj ((hlocal.resolve_right (hunicast k)).trans h.ipAddress)
    subst hk
    rw [hsequence]
    exact ⟨j, destIp, id, rfl, hdest, hping, hreply⟩

/-- An echo request that is received is answered as a ping is. -/
theorem LanNode.echoReply (h : LanNode ip mac x i s) {p : Packet}
    (hp : Delivered (SentOn ip mac x) p) {srcIp : UInt32} {m : Memory} {n : UInt16}
    (hm : ToIcmp s.ipAddress p srcIp m n)
    (htype : (icmpHeaderAt m).type = icmpTypeEchoRequest) :
    ∃ (k : ι) (destIp : UInt32) (id sequence : UInt16), srcIp = ip k ∧
      (destIp = ip i ∨ destIp = 0xFFFFFFFF) ∧ Pinged ip mac x k destIp id sequence ∧
      echoReply m n = echoAnswer id sequence := by
  obtain ⟨buffer, frame, ⟨k, hframe, hout⟩, rfl⟩ := hp
  obtain ⟨rfl, hmessage⟩ := hframe.icmp hout hm
  cases hmessage with
  | ping hdest hping hn hstands =>
    next destIp id sequence =>
    refine ⟨k, destIp, id, sequence, rfl, h.ipAddress ▸ hdest, hping, echoReply_echoMessage ?_
      hstands⟩
    rw [hn, pingData, List.length_map, List.length_range]
  | answer hlocal hdest hping hreply hn hstands =>
    obtain ⟨⟨checksum, hheader⟩, -⟩ := stands_echoMessage hstands
    rw [icmpHeaderAt, hheader] at htype
    exact absurd htype (show ¬ icmpTypeEchoReply = icmpTypeEchoRequest by decide)

/-- What `ip_send` sends is a frame of the network. -/
theorem LanNode.send (h : LanNode ip mac x i s) (htrace : s.trace <:+ (x i).trace)
    {destIp : UInt32} {protocol : UInt8} {data : List UInt8}
    (hm : Message (Delivered (SentOn ip mac x)) (Asked s) s.ipAddress destIp protocol data)
    (hlen : ¬ ipHeaderMinLen + UInt16.ofNat data.length > 1500) {j : ι}
    (hj : ipTarget (ip i) destIp = ip j) (id : UInt16) :
    LanNode ip mac x i (EphemeralOS.ethSendFrame (mac j) ethTypeIp
      ((ipPacket { s with ipIdCounter := id } destIp protocol data).take
        (ipHeaderMinLen + UInt16.ofNat data.length).toNat) s) := by
  cases hm with
  | asked hasked =>
    cases hasked with
    | ping hping =>
      rw [take_ipPacket (by rw [length_echoRequest]; decide)]
      exact h.ethSendFrame (by rw [length_ipPacket, length_echoRequest]; decide)
        (.ping h.ipAddress hj (htrace.mem hping))
    | datagram hd =>
      have hdata := length_of_total hlen (by omega)
      rw [take_ipPacket hdata]
      exact h.ethSendFrame (by rw [length_ipPacket]; omega) (.datagram h.ipAddress hj hdata)
  | answer hp hicmp htype =>
    obtain ⟨k, destIp, id, sequence, rfl, hdest, hping, hreply⟩ := h.echoReply hp hicmp htype
    rw [hreply, take_ipPacket (by rw [length_echoAnswer]; decide)]
    exact h.ethSendFrame (by rw [length_ipPacket, length_echoAnswer]; decide)
      (.answer h.ipAddress hj hdest hping)

/-- **A step of a node** that has heard only what the nodes of the network have sent. -/
theorem LanNode.step (hinj : Function.Injective ip) (hunicast : ∀ j, ip j ≠ 0xFFFFFFFF)
    (h : LanNode ip mac x i s) (htrace : s.trace <:+ (x i).trace)
    (hs : NodeStep (Delivered (SentOn ip mac x)) Asked s s') : LanNode ip mac x i s' := by
  have hheard := hs.heard h.heard
  cases hs with
  | quiet hq => exact h.quiet hq
  | arrived hp =>
    exact ⟨h.ipAddress, h.localMac, h.arpCache, hheard, h.sent, h.answered, h.received⟩
  | asked targetIp =>
    rw [arpSendRequest, h.ipAddress, h.localMac]
    exact h.ethSendFrame ((length_arpPacket _).trans_le (by decide)) (.request targetIp)
  | arp hp heth => exact h.arpReceive hp heth
  | pinged destIp id sequence => exact h.pinged destIp id sequence
  | answered hp hm htype hseq => exact h.noted (hseq ▸ h.replied hinj hunicast hp hm htype)
  | sent id hm hlen hmac =>
    obtain ⟨j, hj, rfl⟩ := h.resolve hmac
    rw [h.ipAddress] at hj
    exact h.send htrace hm hlen hj id

end Node

/-! ## The network -/

theorem FreshNode.lanNode {x : ι → NetState} (i : ι) (h : FreshNode (x i)) :
    LanNode (fun j => (x j).ipAddress) (fun j => (x j).localMac) x i (x i) where
  ipAddress := rfl
  localMac := rfl
  arpCache k hk := absurd hk (by rw [h.arpCache k]; exact Bool.false_ne_true)
  heard p hp := absurd hp (by rw [h.arrivals]; exact List.not_mem_nil)
  sent frame hf := absurd hf (by rw [NetState.outbox, h.trace]; exact List.not_mem_nil)
  answered srcIp sequence ha := absurd ha (by rw [h.trace]; exact List.not_mem_nil)
  received k hk := absurd hk (by rw [h.pingStates k]; exact Bool.false_ne_true)

abbrev OnLan (x : ι → NetState) : List UInt8 → Prop :=
  Wire.OnWire (fun s frame => frame ∈ s.outbox) x

section Network

variable [DecidableEq ι]

/-- The states of a network: between two calls of the nodes, and while a node is in the middle of
one. What is delivered to a node has been on the wire. -/
inductive LanReached (x : ι → NetState) : (ι → NetState) → Prop
  | start : LanReached x x
  | call {y : ι → NetState} {i : ι} {op : NetOp} : LanReached x y →
      op.Hears (Delivered (OnLan y)) → LanReached x (Function.update y i (op.apply (y i)))
  | during {y : ι → NetState} {i : ι} {s : NetState} : LanReached x y →
      NodeStep (Delivered (OnLan y)) Asked (y i) s → LanReached x (Function.update y i s)

/-- A network whose nodes start afresh, each with an address of its own. -/
structure FreshLan (x : ι → NetState) : Prop where
  fresh : ∀ i, FreshNode (x i)
  ipAddress : Function.Injective fun i => (x i).ipAddress
  unicast : ∀ i, (x i).ipAddress ≠ 0xFFFFFFFF

abbrev LanSteps : (ι → NetState) → (ι → NetState) → Prop :=
  Wire.Steps (fun s frame => frame ∈ s.outbox) fun wire => NodeStep (Delivered wire) Asked

variable {x y : ι → NetState}

theorem LanSteps.lanNode (hx : FreshLan x) (h : LanSteps x y) (i : ι) :
    LanNode (fun j => (x j).ipAddress) (fun j => (x j).localMac) y i (y i) := by
  refine Wire.Steps.invariant
    (J := LanNode (fun j => (x j).ipAddress) fun j => (x j).localMac)
    (M := SentOn (fun j => (x j).ipAddress) fun j => (x j).localMac)
    (fun z z' j s hstep hs => ?_) (fun z j frame hs hf => ⟨j, hs.sent frame hf, hf⟩)
    (fun z j s hwire hs hstep => ?_) (fun j => (hx.fresh j).lanNode) h i
  · refine hs.later fun k => ?_
    cases hstep with
    | @party j' s' hs' =>
      by_cases hk : k = j'
      · subst hk
        rw [Function.update_self]
        exact hs'.trace
      · rw [Function.update_of_ne hk]
  · exact hs.step hx.ipAddress hx.unicast (List.suffix_refl _)
      (hstep.mono (fun _ hp => hp.mono hwire) id)

theorem LanSteps.nodeSteps {i : ι} {s : NetState}
    (h : NodeSteps (Delivered (OnLan y)) Asked (y i) s) : LanSteps y (Function.update y i s) := by
  refine Wire.Steps.party (fun wire wire' t t' hle hstep => ?_)
    (fun wire t t' frame hstep hf => ?_) h
  · exact hstep.mono (fun _ hp => hp.mono hle) id
  · exact outbox_mono hstep.trace hf

theorem LanSteps.heard (hx : FreshLan x) (h : LanSteps x y) (i : ι) :
    Heard (Delivered (OnLan y)) (y i) := fun p hp =>
  ((LanSteps.lanNode hx h i).heard p hp).mono fun _ ⟨j, _, hf⟩ => ⟨j, hf⟩

/-- **Calls are made of steps**, so what holds between steps holds between calls. -/
theorem LanReached.steps (hx : FreshLan x) (h : LanReached x y) : LanSteps x y := by
  induction h with
  | start => exact .refl
  | @call y i op _ hop ih =>
    exact ih.trans (LanSteps.nodeSteps
      (NetOp.nodeSteps asked_lasting hop (LanSteps.heard hx ih i) fun _ => NetOp.asked))
  | during _ hstep ih => exact ih.trans (LanSteps.nodeSteps (.single hstep))

/-! ## Calls that others interrupt -/

theorem LanReached.trans {z : ι → NetState} (h : LanReached x y) (h' : LanReached y z) :
    LanReached x z := by
  induction h' with
  | start => exact h
  | call _ hop ih => exact ih.call hop
  | during _ hstep ih => exact ih.during hstep

theorem LanReached.node (h : LanReached x y) (i : ι) :
    SameNode (x i) (y i) ∧ (x i).trace <:+ (y i).trace := by
  have hnext : ∀ {z : ι → NetState} {k : ι} {s : NetState},
      SameNode (x i) (z i) ∧ (x i).trace <:+ (z i).trace →
      NodeSteps (fun _ => True) Asked (z k) s → SameNode (x i) (Function.update z k s i) ∧
        (x i).trace <:+ (Function.update z k s i).trace := by
    intro z k s hz hs
    by_cases hik : i = k
    · subst hik
      rw [Function.update_self]
      exact ⟨hz.1.trans (NodeSteps.sameNode hs), hz.2.trans (NodeSteps.trace hs)⟩
    · rw [Function.update_of_ne hik]
      exact hz
  induction h with
  | start => exact ⟨⟨rfl, rfl, rfl⟩, List.suffix_refl _⟩
  | call _ hop ih =>
    exact hnext ih (NetOp.nodeSteps asked_lasting (hop.mono fun _ _ => trivial)
      (fun _ _ => trivial) fun _ => NetOp.asked)
  | during _ hstep ih => exact hnext ih (.single (hstep.mono (fun _ _ => trivial) id))

/-- Node `i` as a host of its calls: whenever it polls, the network goes on. -/
structure HostOn (h : Host (ι → NetState)) (i : ι) (x : ι → NetState) : Prop where
  net : ∀ y, h.net y = y i
  step : ∀ f y, h.step f y = Function.update y i (f (y i))
  poll : ∀ {y}, LanReached x y → LanReached y (h.poll y)

namespace HostOn

variable {h : Host (ι → NetState)} {i : ι} (H : HostOn h i x)

include H

theorem during {f : NetState → NetState}
    (hstep : NodeStep (Delivered (OnLan y)) Asked (y i) (f (y i))) :
    LanReached y (h.step f y) := by
  rw [H.step]
  exact .during .start hstep

theorem step_apply (f : NetState → NetState) (y : ι → NetState) : h.step f y i = f (y i) := by
  rw [H.step, Function.update_self]

theorem arpWait (targetIp : UInt32) (retries : Nat) (hy : LanReached x y) :
    LanReached y (h.arpWait targetIp retries y) := by
  induction retries generalizing y with
  | zero => exact .start
  | succ retries ih =>
    have hpoll := H.poll hy
    rw [Host.arpWait]
    split
    · exact hpoll
    · exact hpoll.trans (ih (hy.trans hpoll))

theorem ipSend {destIp : UInt32} {protocol : UInt8} {data : List UInt8} (hy : LanReached x y)
    (hasked : Asked (y i) destIp protocol data) :
    LanReached y (h.ipSend destIp protocol data y) := by
  simp only [Host.ipSend]
  split <;> [exact .start; skip]
  next hlen =>
  rw [H.net]
  -- the packet goes out later, from the same address
  have hsend : ∀ {z : ι → NetState} {mac : Mac}, LanReached y z →
      arpResolve (ipTarget (y i).ipAddress destIp) (h.net z) = some mac →
      LanReached y (h.step (EphemeralOS.ethSendFrame mac ethTypeIp
        ((ipPacket (y i) destIp protocol data).take
          (ipHeaderMinLen + UInt16.ofNat data.length).toNat)) z) := by
    intro z mac hz hmac
    obtain ⟨hsame, htrace⟩ := hz.node i
    rw [H.net, ← hsame.ipAddress] at hmac
    rw [ipPacket_congr hsame.ipAddress]
    refine hz.trans (H.during ?_)
    exact .sent (y i).ipIdCounter (.asked (asked_lasting htrace hasked)) hlen hmac
  have hn : LanReached y (h.step NetState.numbered y) :=
    H.during (.quiet ⟨rfl, rfl, rfl, rfl, rfl, List.suffix_refl _, .inl rfl⟩)
  have hw : LanReached y (h.arpWait (ipTarget (y i).ipAddress destIp) 10
      (h.step (arpSendRequest (ipTarget (y i).ipAddress destIp)) (h.step NetState.numbered y))) := by
    have ha := hn.trans (H.during (.asked (ipTarget (y i).ipAddress destIp)))
    exact ha.trans (H.arpWait _ 10 (hy.trans ha))
  split
  · next mac hmac => exact hsend hn hmac
  · split
    · next mac hmac => exact hsend hw hmac
    · exact hw

/-- **A ping during which the network goes on** is a run of the network. -/
theorem icmpSendEchoRequest (destIp : UInt32) (id sequence : UInt16) (hy : LanReached x y) :
    LanReached y (h.icmpSendEchoRequest destIp id sequence y) := by
  have hp : LanReached y
      (h.step (fun s => pingStart destIp sequence (s.log (.pinged destIp id sequence))) y) :=
    H.during (.pinged destIp id sequence)
  refine hp.trans (H.ipSend (hy.trans hp) (.ping ?_))
  rw [H.step_apply]
  obtain ⟨pingStates, hstart⟩ :=
    pingStart_frame destIp sequence ((y i).log (.pinged destIp id sequence))
  rw [hstart]
  exact List.mem_cons_self

theorem waitLoop (destIp : UInt32) (sequence : UInt16) (startTime timeoutMs : UInt32)
    (rounds : Nat) (hy : LanReached x y) :
    LanReached y (h.waitLoop destIp sequence startTime timeoutMs rounds y).2 ∧
      ((h.waitLoop destIp sequence startTime timeoutMs rounds y).1 = true →
        pingAnswered ((h.waitLoop destIp sequence startTime timeoutMs rounds y).2 i) destIp
          sequence = true) := by
  induction rounds generalizing y with
  | zero => exact ⟨.start, fun hf => absurd hf Bool.false_ne_true⟩
  | succ rounds ih =>
    have hpoll := H.poll hy
    simp only [Host.waitLoop]
    split
    · split
      · next hans =>
        rw [H.net] at hans
        exact ⟨hpoll, fun _ => hans⟩
      · have htick := hpoll.trans (H.during (f := fun s => { s with icmpTimer := s.icmpTimer + 1 })
          (.quiet ⟨rfl, rfl, rfl, rfl, rfl, List.suffix_refl _, .inl rfl⟩))
        exact ⟨htick.trans (ih (hy.trans htick)).1, (ih (hy.trans htick)).2⟩
    · exact ⟨.start, fun hf => absurd hf Bool.false_ne_true⟩

end HostOn

theorem LanReached.replied (hx : FreshLan x) (h : LanReached x y) {i : ι} {a : UInt32}
    {sequence : UInt16} (ha : pingAnswered (y i) a sequence = true) :
    Replied (fun j => (x j).ipAddress) (fun j => (x j).localMac) y i a sequence := by
  have hnode := LanSteps.lanNode hx (h.steps hx) i
  obtain ⟨k, -, hk⟩ := List.any_eq_true.mp ha
  rw [decide_eq_true_eq] at hk
  obtain ⟨rfl, rfl, hreceived⟩ := hk
  exact hnode.answered _ _ (hnode.received k hreceived)

end Network

/-! ## Two nodes -/

def twoNodes : Bool → NetState
  | false => kernelNet
  | true => { NetState.static true broadcastMac with ipAddress := 0x0A000202 }

theorem twoNodes_fresh : FreshLan twoNodes where
  fresh i := by
    cases i with
    | false => exact ⟨rfl, fun _ => rfl, fun _ => rfl, rfl, rfl⟩
    | true => exact ⟨rfl, fun _ => rfl, fun _ => rfl, rfl, rfl⟩
  ipAddress i j hij := by
    cases i <;> cases j <;> first | rfl | exact absurd hij (by decide)
  unicast i := by cases i <;> decide

/-- Node `i` gets the latest frame that node `j` has sent. -/
def hearLatest (i j : Bool) (y : Bool → NetState) : Bool → NetState :=
  match (y j).outbox.getLast? with
  | some frame => Function.update y i ((NetOp.receive (arrival (fun _ => 0) frame).bytes
      (UInt16.ofNat frame.length)).apply (y i))
  | none => y

theorem hearLatest_reached (i j : Bool) (y : Bool → NetState) :
    LanReached y (hearLatest i j y) := by
  rw [hearLatest]
  split
  · next frame hf => exact .call .start ⟨_, frame, ⟨j, List.mem_of_getLast? hf⟩, rfl⟩
  · exact .start

/-- The kernel's node calls; when it polls, the neighbour gets its latest frame first. -/
def kernelHost : Host (Bool → NetState) where
  net y := y false
  step f y := Function.update y false (f (y false))
  poll y := hearLatest false true (hearLatest true false y)

theorem kernelHost_on : HostOn kernelHost false twoNodes :=
  ⟨fun _ => rfl, fun _ _ => rfl, fun {y} _ =>
    (hearLatest_reached true false y).trans (hearLatest_reached false true _)⟩

def pingedNodes : Bool → NetState := kernelHost.icmpSendEchoRequest 0x0A000202 1234 1 twoNodes

theorem pingedNodes_reached : LanReached twoNodes pingedNodes :=
  kernelHost_on.icmpSendEchoRequest 0x0A000202 1234 1 .start

/-! ## Agreement -/

section Agreement

variable [DecidableEq ι] {x y : ι → NetState}

/-- **ARP is right.** However the steps of the nodes are interleaved, and whatever the wire loses,
repeats or delays: every entry of a cache is for a node of the network and has the address of that
node, so an address found is that of the node that has it; and what the nodes send is ARP requests,
ARP replies, and packets for the node that they must go to next. -/
theorem arp_agreement (hx : FreshLan x) (h : LanReached x y) :
    (∀ i k, ((y i).arpCache k).valid = true → ∃ j, ((y i).arpCache k).ip = (x j).ipAddress ∧
        ((y i).arpCache k).mac = (x j).localMac) ∧
      (∀ i j mac, arpResolve (x j).ipAddress (y i) = some mac → mac = (x j).localMac) ∧
      ∀ i, ∀ frame ∈ (y i).outbox,
        LanFrame (fun j => (x j).ipAddress) (fun j => (x j).localMac) y i frame := by
  have hnode := LanSteps.lanNode hx (h.steps hx)
  refine ⟨fun i => (hnode i).arpCache, fun i j mac hmac => ?_, fun i => (hnode i).sent⟩
  obtain ⟨k, hk, rfl⟩ := (hnode i).resolve hmac
  rw [hx.ipAddress hk]

theorem arp_agreement_pinged :
    (∀ i k, ((pingedNodes i).arpCache k).valid = true →
        ∃ j, ((pingedNodes i).arpCache k).ip = (twoNodes j).ipAddress ∧
          ((pingedNodes i).arpCache k).mac = (twoNodes j).localMac) ∧
      (∀ i j mac, arpResolve (twoNodes j).ipAddress (pingedNodes i) = some mac →
        mac = (twoNodes j).localMac) ∧
      ∀ i, ∀ frame ∈ (pingedNodes i).outbox, LanFrame (fun j => (twoNodes j).ipAddress)
        (fun j => (twoNodes j).localMac) pingedNodes i frame :=
  arp_agreement twoNodes_fresh pingedNodes_reached

/-- **A ping that succeeds has been answered.** Node `i` waits for an answer, and whenever it polls
the network goes on: it gives up, or it has sent an echo request with this sequence number, to `a`
or to all, and the node at `a` has sent the reply to it. -/
theorem ping_agreement (hx : FreshLan x) (hy : LanReached x y) {h : Host (ι → NetState)} {i : ι}
    (H : HostOn h i x) (a : UInt32) (sequence : UInt16) (timeoutMs : UInt32) :
    (h.icmpWaitReply a sequence timeoutMs y).1 = false ∨
      Replied (fun j => (x j).ipAddress) (fun j => (x j).localMac)
        (h.icmpWaitReply a sequence timeoutMs y).2 i a sequence := by
  obtain ⟨hreached, hanswered⟩ := H.waitLoop a sequence (h.net y).icmpTimer timeoutMs
    timeoutMs.toNat hy
  cases hwait : (h.icmpWaitReply a sequence timeoutMs y).1 with
  | false => exact .inl rfl
  | true => exact .inr (LanReached.replied hx (hy.trans hreached) (hanswered hwait))

theorem ping_agreement_pinged :
    Replied (fun j => (twoNodes j).ipAddress) (fun j => (twoNodes j).localMac)
      (kernelHost.icmpWaitReply 0x0A000202 1 1000 pingedNodes).2 false 0x0A000202 1 := by
  have hwait : (kernelHost.icmpWaitReply 0x0A000202 1 1000 pingedNodes).1 = true := by
    decide +kernel
  refine (ping_agreement twoNodes_fresh pingedNodes_reached kernelHost_on 0x0A000202 1 1000
    ).resolve_left ?_
  rw [hwait]
  exact nofun

end Agreement

end EphemeralOS
