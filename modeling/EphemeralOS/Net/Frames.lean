import EphemeralOS.Net.Bounds
import EphemeralOS.Net.Replies
import EphemeralOS.Lib.Directory

/-!
# Frames from one node to another

What each layer sends, the same layer of another node takes apart: Ethernet
(`ethPayload_ethFrame`), IP (`ipPayload_ipPacket`) and UDP (`udpReceive_trace`).
A short frame is padded, so each layer gets what the one below has received and
takes its own length from its header.
-/

namespace EphemeralOS

open Binary

/-- The frame that `eth_send_frame` gives to the driver. -/
def ethFrame (destMac srcMac : Mac) (ethType : UInt16) (data : List UInt8) : List UInt8 :=
  let frame := ethHeaderLayout.enc ⟨destMac, srcMac, htons ethType⟩ ++ data
  frame ++ List.replicate (60 - frame.length) 0

theorem length_ethFrame (destMac srcMac : Mac) (ethType : UInt16) (data : List UInt8) :
    (ethFrame destMac srcMac ethType data).length = max 60 (14 + data.length) := by
  simp only [ethFrame, List.length_append, Layout.length_enc, sizeof_ethHeader,
    List.length_replicate]
  omega

theorem ethSendFrame_eq {data : List UInt8} (h : data.length ≤ 1500) (destMac : Mac)
    (ethType : UInt16) (s : NetState) : ethSendFrame destMac ethType data s =
      networkSendPacket (ethFrame destMac s.localMac ethType data) s := by
  have hlen : (UInt16.ofNat data.length).toNat = data.length := by
    rw [UInt16.toNat_ofNat']
    omega
  simp only [ethSendFrame]
  rw [if_neg]
  · rfl
  · rw [gt_iff_lt, UInt16.lt_iff_toNat_lt, hlen]
    exact Nat.not_lt.mpr h

/-- A frame is long enough not to be padded again, and short enough to be sent. -/
theorem networkSendPacket_ethFrame {s : NetState} (hs : s.initialized = true) {data : List UInt8}
    (h : data.length ≤ 1500) (destMac srcMac : Mac) (ethType : UInt16) :
    networkSendPacket (ethFrame destMac srcMac ethType data) s =
      s.log (.sent (ethFrame destMac srcMac ethType data)) := by
  have hlen := length_ethFrame destMac srcMac ethType data
  rw [networkSendPacket, hs, if_neg]
  · rw [Nat.sub_eq_zero_of_le (by omega), List.replicate_zero, List.append_nil]
  · rw [Bool.not_true, Bool.false_or, decide_eq_true_eq]
    omega

theorem toNat_length_ethFrame {data : List UInt8} (h : data.length ≤ 1500) (destMac srcMac : Mac)
    (ethType : UInt16) : (UInt16.ofNat (ethFrame destMac srcMac ethType data).length).toNat =
      max 60 (14 + data.length) := by
  rw [length_ethFrame, UInt16.toNat_ofNat']
  omega

def EthLayer.type : EthLayer → UInt16
  | .arp => ethTypeArp
  | .ip => ethTypeIp

section Received

variable {m : Memory} {destMac srcMac : Mac} {ethType : UInt16} {data : List UInt8}

theorem stands_ethFrame (hm : m.Stands 0 (ethFrame destMac srcMac ethType data)) :
    ethHeaderLayout.dec (m.bytes 0 14) = ⟨destMac, srcMac, htons ethType⟩ ∧
      (m.shift 14).Stands 0 data := by
  simp only [ethFrame, List.append_assoc] at hm
  obtain ⟨hheader, hrest⟩ := Memory.stands_append.mp hm
  have hdata := (Memory.stands_append.mp hrest).1
  rw [Memory.Stands, Layout.length_enc, sizeof_ethHeader] at hheader
  rw [Layout.length_enc, sizeof_ethHeader] at hdata
  refine ⟨?_, Memory.stands_shift.mpr hdata⟩
  rw [hheader, Layout.dec_enc]

/-- **What is sent to a layer is passed on to it**, with the padding. -/
theorem ethPayload_ethFrame (layer : EthLayer)
    (hm : m.Stands 0 (ethFrame destMac srcMac layer.type data)) (h : data.length ≤ 1500) :
    ∃ n, ethPayload m (UInt16.ofNat (ethFrame destMac srcMac layer.type data).length) =
      some (layer, 14, n) ∧ n.toNat = max 46 data.length := by
  have hlen := toNat_length_ethFrame h destMac srcMac layer.type
  generalize UInt16.ofNat (ethFrame destMac srcMac layer.type data).length = length at hlen ⊢
  refine ⟨length - ethHlen, ?_, ?_⟩
  · simp only [ethPayload, (stands_ethFrame hm).1, ntohs, htons_htons]
    rw [if_neg]
    · cases layer with
      | arp => rfl
      | ip => rfl
    · rw [UInt16.lt_iff_toNat_lt, hlen]
      change ¬ _ < 14
      omega
  · rw [toNat_ethPayload (by omega)]
    omega

end Received

/-! ## IP -/

section Ip

variable {s : NetState} {destIp : UInt32} {protocol : UInt8} {data : List UInt8}

theorem length_ipPacket (s : NetState) (destIp : UInt32) (protocol : UInt8) (data : List UInt8) :
    (ipPacket s destIp protocol data).length = 20 + data.length := by
  simp only [ipPacket, List.length_append, Layout.length_enc, sizeof_ipHeader]

theorem toNat_headed {header : UInt16} {n : Nat} (h : header.toNat + n < 65536) :
    (header + UInt16.ofNat n).toNat = header.toNat + n := by
  rw [UInt16.toNat_add, UInt16.toNat_ofNat']
  omega

theorem not_over_frame {total : UInt16} (h : total.toNat ≤ 1500) : ¬ total > 1500 := by
  rw [gt_iff_lt, UInt16.lt_iff_toNat_lt]
  exact Nat.not_lt.mpr h

theorem totalLength_toNat (h : data.length ≤ 1480) :
    (ipHeaderMinLen + UInt16.ofNat data.length).toNat = 20 + data.length := by
  have h20 : ipHeaderMinLen.toNat = 20 := rfl
  rw [toNat_headed (by omega), h20]

theorem totalLength_fits (h : data.length ≤ 1480) :
    ¬ ipHeaderMinLen + UInt16.ofNat data.length > 1500 :=
  not_over_frame (by rw [totalLength_toNat h]; omega)

theorem take_ipPacket (h : data.length ≤ 1480) :
    (ipPacket s destIp protocol data).take (ipHeaderMinLen + UInt16.ofNat data.length).toNat =
      ipPacket s destIp protocol data := by
  refine List.take_of_length_le ?_
  rw [length_ipPacket, totalLength_toNat h]

/-- `ip_send` has taken an identification. -/
def NetState.numbered (s : NetState) : NetState := { s with ipIdCounter := s.ipIdCounter + 1 }

/-- `ip_send` to a node of the subnet whose address is in the cache. -/
theorem ipSend_resolved (receive : Memory → UInt16 → NetState → NetState)
    (hsub : destIp &&& 0xFFFFFF00 = s.ipAddress &&& 0xFFFFFF00) {mac : Mac}
    (hmac : arpResolve destIp s = some mac) (h : data.length ≤ 1480) :
    ipSend receive destIp protocol data s =
      networkSendPacket (ethFrame mac s.localMac ethTypeIp (ipPacket s destIp protocol data))
        s.numbered := by
  have hlen := length_ipPacket s destIp protocol data
  have htarget : ipTarget s.ipAddress destIp = destIp := if_pos hsub
  have hfound : arpResolve destIp { s with ipIdCounter := s.ipIdCounter + 1 } = some mac := hmac
  simp only [ipSend, htarget, hfound, take_ipPacket h]
  rw [if_neg (totalLength_fits h), ethSendFrame_eq (by omega)]
  rfl

/-- **What is sent to a node it passes on**: the payload, without padding. -/
theorem ipPayload_ipPacket {m : Memory}
    (hm : m.Stands 0 (ipPacket s destIp protocol data)) (h : data.length ≤ 1480)
    {length : UInt16} (hlen : 20 + data.length ≤ length.toNat) : ∃ n,
      ipPayload destIp m length = some (protocol, s.ipAddress, 20, n) ∧ n.toNat = data.length ∧
        (m.shift 20).Stands 0 data := by
  have htotal := totalLength_toNat h
  obtain ⟨hheader, hdata⟩ := Memory.stands_append.mp hm
  rw [Memory.Stands, Layout.length_enc, sizeof_ipHeader] at hheader
  rw [Layout.length_enc, sizeof_ipHeader] at hdata
  have hat : ipHeaderAt m =
      (ipHeader s destIp protocol (ipHeaderMinLen + UInt16.ofNat data.length)).checked := by
    rw [ipHeaderAt, hheader, Layout.dec_enc]
  have h20 : (0x45 : UInt8) &&& 0x0F = 5 := rfl
  refine ⟨(ipHeaderMinLen + UInt16.ofNat data.length) - 20, ?_, ?_, Memory.stands_shift.mpr hdata⟩
  · rw [ipPayload_eq, hat]
    simp only [IpHeader.checked, ipHeader, IpHeader.version, IpHeader.ihl, ntohs, ntohl,
      htons_htons, htonl_htonl]
    rw [if_pos]
    · rfl
    · exact ⟨by omega, rfl, Nat.le_refl 20, by change 20 ≤ _; omega, by omega,
        .inl trivial⟩
  · rw [UInt16.toNat_sub_of_le, htotal]
    · exact Nat.add_sub_cancel_left 20 _
    · rw [UInt16.le_iff_toNat_le, htotal]
      exact Nat.le_add_right 20 _

/-- A frame with a packet for a node, in the layers of the node. -/
theorem payload_ipFrame {m : Memory} {destMac srcMac : Mac}
    (hm : m.Stands 0 (ethFrame destMac srcMac ethTypeIp (ipPacket s destIp protocol data)))
    (h : data.length ≤ 1480) : ∃ n n',
      ethPayload m (UInt16.ofNat
        (ethFrame destMac srcMac ethTypeIp (ipPacket s destIp protocol data)).length) =
          some (.ip, 14, n) ∧
      ipPayload destIp (m.shift 14) n = some (protocol, s.ipAddress, 20, n') ∧
      n'.toNat = data.length ∧ ((m.shift 14).shift 20).Stands 0 data := by
  have hlen := length_ipPacket s destIp protocol data
  obtain ⟨n, heth, hn⟩ := ethPayload_ethFrame .ip hm (by omega)
  obtain ⟨n', hip, hn', hdata⟩ := ipPayload_ipPacket (stands_ethFrame hm).2 h
    (show 20 + data.length ≤ n.toNat by omega)
  exact ⟨n, n', heth, hip, hn', hdata⟩

theorem ethReceiveFrame_ipPacket {t : NetState} (ht : t.ipAddress = destIp) {m : Memory}
    {destMac srcMac : Mac}
    (hm : m.Stands 0 (ethFrame destMac srcMac ethTypeIp (ipPacket s destIp protocol data)))
    (h : data.length ≤ 1480) : ∃ n, n.toNat = data.length ∧
      ((m.shift 14).shift 20).Stands 0 data ∧
      ethReceiveFrame m
          (UInt16.ofNat
            (ethFrame destMac srcMac ethTypeIp (ipPacket s destIp protocol data)).length) t =
        if protocol = ipProtoIcmp then
          icmpReceive ethReceiveFrame s.ipAddress ((m.shift 14).shift 20) n t
        else if protocol = ipProtoUdp then
          udpReceive s.ipAddress ((m.shift 14).shift 20) n t
        else t := by
  obtain ⟨n, n', heth, hip, hn', hdata⟩ := payload_ipFrame hm h
  refine ⟨n', hn', hdata, ?_⟩
  rw [ethReceiveFrame_eq, ethReceiveFrameWith, heth]
  simp only [ipReceive, ht, hip]

end Ip

/-! ## UDP -/

/-- The first entry of the handler table for a port is a handler's. -/
def RegisteredFirst (s : NetState) (port : UInt16) (callback : UdpCallback) : Prop :=
  ∃ i, s.udpHandlers i = ⟨port, some callback⟩ ∧
    ∀ j < i, (s.udpHandlers j).port = port → (s.udpHandlers j).callback = none

theorem RegisteredFirst.udpHandlerFor {s : NetState} {port : UInt16} {callback : UdpCallback}
    (h : RegisteredFirst s port callback) : udpHandlerFor s port = some callback := by
  obtain ⟨i, hi, hbefore⟩ := h
  have hfirst : (List.finRange 8).find? (fun i =>
      (s.udpHandlers i).port = port ∧ (s.udpHandlers i).callback.isSome) = some i := by
    refine Directory.first_eq_some_iff.mpr ⟨?_, fun j hj => ?_⟩
    · rw [hi]
      exact decide_eq_true ⟨rfl, rfl⟩
    · refine decide_eq_false fun hc => ?_
      rw [hbefore j hj hc.1] at hc
      exact Bool.false_ne_true hc.2
  rw [EphemeralOS.udpHandlerFor, hfirst, Option.bind_some, hi]

theorem length_udpPacket (srcPort destPort : UInt16) (data : List UInt8) :
    (udpPacket srcPort destPort data).length = 8 + data.length := by
  simp only [udpPacket, List.length_append, Layout.length_enc, sizeof_udpHeader]

theorem udpSend_eq (receive : Memory → UInt16 → NetState → NetState) {data : List UInt8}
    (h : data.length ≤ 1472) (destIp : UInt32) (srcPort destPort : UInt16) (s : NetState) :
    udpSend receive destIp srcPort destPort data s =
      ipSend receive destIp ipProtoUdp (udpPacket srcPort destPort data) s := by
  have hlen := length_udpPacket srcPort destPort data
  have h8 : udpHeaderLen.toNat = 8 := rfl
  have htotal := toNat_headed (show udpHeaderLen.toNat + data.length < 65536 by omega)
  simp only [udpSend]
  rw [if_neg (not_over_frame (by omega)), List.take_of_length_le (by omega)]

/-- **A datagram reaches the handler of its port as it was sent**: from a node of the subnet that
has the receiver's address in its cache, in one frame, whatever stands behind it in the buffer. -/
theorem udp_round_trip {a b : NetState}
    (hsub : b.ipAddress &&& 0xFFFFFF00 = a.ipAddress &&& 0xFFFFFF00)
    (hmac : arpResolve b.ipAddress a = some b.localMac) {payload : List UInt8}
    (hlen : payload.length ≤ 1472) (srcPort : UInt16) {destPort : UInt16} {callback : UdpCallback}
    (hcallback : RegisteredFirst b destPort callback) :
    ∃ frame : List UInt8, 60 ≤ frame.length ∧ frame.length ≤ 1514 ∧
      udpSend ethReceiveFrame b.ipAddress srcPort destPort payload a =
        networkSendPacket frame a.numbered ∧
      ∀ m : Memory, m.Stands 0 frame →
        (ethReceiveFrame m (UInt16.ofNat frame.length) b).trace =
          .called callback a.ipAddress srcPort payload :: b.trace := by
  have hudp := length_udpPacket srcPort destPort payload
  have hip := length_ipPacket a b.ipAddress ipProtoUdp (udpPacket srcPort destPort payload)
  refine ⟨ethFrame b.localMac a.localMac ethTypeIp
    (ipPacket a b.ipAddress ipProtoUdp (udpPacket srcPort destPort payload)), ?_, ?_, ?_, ?_⟩
  · rw [length_ethFrame]
    omega
  · rw [length_ethFrame]
    omega
  · rw [udpSend_eq _ hlen, ipSend_resolved _ hsub hmac (by omega)]
  · intro m hm
    obtain ⟨n, hn, hdata, hreceive⟩ := ethReceiveFrame_ipPacket (t := b) rfl hm (by omega)
    have htrace := udpReceive_trace (s := b) hdata ?_
      (show 8 + payload.length ≤ n.toNat by omega) a.ipAddress
    · rw [hreceive, if_neg (by decide), if_pos rfl, htrace, ntohs, htons_htons,
        hcallback.udpHandlerFor]
      simp only [ntohs, htons_htons]
    · rw [ntohs, htons_htons]
      have h8 : udpHeaderLen.toNat = 8 := rfl
      apply UInt16.toNat_inj.mp
      rw [toNat_headed (by omega), UInt16.toNat_ofNat', h8]
      omega

/-- Three bytes for the time client of the kernel, from a neighbour that knows its address. -/
theorem sample_round_trip :
    let a := arpAddEntry 0x0A00020F CArray.zero
      { NetState.static true broadcastMac with ipAddress := 0x0A000202 }
    ∃ frame : List UInt8, 60 ≤ frame.length ∧ frame.length ≤ 1514 ∧
      udpSend ethReceiveFrame kernelNet.ipAddress 7 ntpPort [1, 2, 3] a =
        networkSendPacket frame a.numbered ∧
      ∀ m : Memory, m.Stands 0 frame →
        (ethReceiveFrame m (UInt16.ofNat frame.length) kernelNet).trace =
          .called .ntpResponseHandler a.ipAddress 7 [1, 2, 3] :: kernelNet.trace := by
  refine udp_round_trip (by decide) (by rfl) (by decide) 7 ⟨1, ?_, fun j hj => ?_⟩
  · rw [kernelNet, netInit_handlers]
    rfl
  · have h0 : j = 0 := by omega
    rw [kernelNet, netInit_handlers, h0]
    exact fun h => absurd h (by decide)

end EphemeralOS
