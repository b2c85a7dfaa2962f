import EphemeralOS.Net.Calls

/-!
# Replies and handlers

`udp_receive` gives a datagram to the handler of its destination port, and a
server answers to the source port of the request. `ntp_sync_time` sends from the
port its handler is registered for; `dns_resolve` sends from port 12345, for
which no handler is registered, so its replies are dropped
(`reply_reaches_iff`).
-/

namespace EphemeralOS

open Run

/-- The table after `udp_init`. -/
def noHandlers : Fin 8 → UdpHandler := fun _ => ⟨0, none⟩

/-- The table after `udp_init` and `dns_init`. -/
def dnsHandlers : Fin 8 → UdpHandler :=
  Function.update noHandlers 0 ⟨dnsPort, some .dnsResponseHandler⟩

/-- The table after `udp_init`, `dns_init` and `ntp_init`. -/
def registered : Fin 8 → UdpHandler :=
  Function.update dnsHandlers 1 ⟨ntpPort, some .ntpResponseHandler⟩

theorem udpRegisterHandler_handlers {s : NetState} {t : Fin 8 → UdpHandler}
    (hs : s.udpHandlers = t) {i : Fin 8}
    (hi : (List.finRange 8).find? (fun i => (t i).port = 0) = some i) (port : UInt16)
    (callback : UdpCallback) : (udpRegisterHandler port callback s).udpHandlers =
      Function.update t i ⟨port, some callback⟩ := by
  rw [udpRegisterHandler, hs, hi]

theorem netInit_handlers (s : NetState) : (netInit s).udpHandlers = registered := by
  have hdns : ∀ t, (dnsInit (udpInit t)).udpHandlers = dnsHandlers := fun t =>
    udpRegisterHandler_handlers (t := noHandlers) rfl (by decide) _ _
  have hntp : ∀ t, (ntpInit (dnsInit (udpInit t))).udpHandlers = registered := fun t =>
    udpRegisterHandler_handlers (hdns t) (by decide) _ _
  simp only [netInit]
  split
  · exact hntp _
  · exact hntp _

theorem NetOp.udpHandlers (op : NetOp) (s : NetState) :
    (op.apply s).udpHandlers = s.udpHandlers := by
  cases op with
  | arrive packets => rfl
  | receive frame length => exact (ethReceiveFrame_steps frame length s).sameSetup.udpHandlers
  | ping destIp id sequence =>
    simp only [NetOp.apply, icmpSendEchoRequest]
    rw [(ipSend_steps ethReceiveFrame_steps _ _ _ _).sameSetup.udpHandlers, pingStart]
    split <;> rfl
  | wait destIp sequence timeoutMs =>
    exact waitLoop_keeps (P := fun t => t.udpHandlers = s.udpHandlers)
      (fun t ht => (poll_steps t).sameSetup.udpHandlers.trans ht) (fun _ ht => ht) _ _ _ _ _ rfl
  | resolve hostname =>
    simp only [NetOp.apply, dnsResolve]
    split
    · rfl
    · exact (dnsAsk_steps hostname s).sameSetup.udpHandlers
  | sync localTime => exact (ntpAsk_steps localTime s).sameSetup.udpHandlers
  | setIp ip => rfl
  | setDnsServer ip => rfl
  | setNtpServer ip => rfl

abbrev Running : NetState → Prop :=
  Reached (fun s => ∃ s₀, s = netInit s₀) NetOp.apply fun _ _ => True

theorem Running.handlers {s : NetState} (h : Running s) : s.udpHandlers = registered := by
  refine h.invariant ?_ fun s op ih _ => (op.udpHandlers s).trans ih
  rintro s ⟨s₀, rfl⟩
  exact netInit_handlers s₀

theorem udpHandlerFor_registered {s : NetState} (h : s.udpHandlers = registered) (port : UInt16) :
    udpHandlerFor s port =
      if port = dnsPort then some .dnsResponseHandler
      else if port = ntpPort then some .ntpResponseHandler else none := by
  simp only [udpHandlerFor, h]
  by_cases hd : port = dnsPort
  · rw [hd]
    rfl
  · by_cases hn : port = ntpPort
    · rw [hn]
      rfl
    · rw [if_neg hd, if_neg hn, List.find?_eq_none.mpr]
      · rfl
      · intro i _
        have hi : (registered i).port = port → (registered i).callback = none := by
          simp only [registered, dnsHandlers, Function.update_apply]
          split
          · exact fun e => absurd e.symm hn
          · split
            · exact fun e => absurd e.symm hd
            · exact fun _ => rfl
        intro hc
        obtain ⟨hport, hsome⟩ := of_decide_eq_true hc
        rw [hi hport] at hsome
        cases hsome

/-! ## Requests and replies -/

/-- The calls that send a request and wait for the reply. -/
inductive NetClient
  | dns (hostname : List UInt8)
  | ntp (localTime : UInt32)

def NetClient.request (s : NetState) : NetClient → List UInt8
  | .dns hostname =>
    let (_, srcPort, destPort, query) := dnsRequest hostname s
    udpPacket srcPort destPort query
  | .ntp localTime =>
    let (_, srcPort, destPort, packet) := ntpRequestTo localTime s
    udpPacket srcPort destPort packet

def NetClient.handler : NetClient → UdpCallback
  | .dns _ => .dnsResponseHandler
  | .ntp _ => .ntpResponseHandler

def udpReply (request : List UInt8) (checksum : UInt16) (payload : List UInt8) : List UInt8 :=
  let h := udpHeaderLayout.dec request
  udpHeaderLayout.enc
    ⟨h.destPort, h.srcPort, htons (UInt16.ofNat (8 + payload.length)), checksum⟩ ++ payload

/-- `udp_receive` gives the payload of a datagram to the handler of its destination port. -/
theorem udpReceive_trace {s : NetState} {data : Memory} {length : UInt16} {h : UdpHeader}
    {payload : List UInt8} (hdata : data.Stands 0 (udpHeaderLayout.enc h ++ payload))
    (hlen : ntohs h.length = UInt16.ofNat (8 + payload.length))
    (hle : 8 + payload.length ≤ length.toNat) (srcIp : UInt32) :
    (udpReceive srcIp data length s).trace =
      match udpHandlerFor s (ntohs h.destPort) with
      | some callback => .called callback srcIp (ntohs h.srcPort) payload :: s.trace
      | none => s.trace := by
  have hlt := length.toNat_lt
  obtain ⟨hheader, hpayload⟩ := Memory.stands_append.mp hdata
  have hdec : udpHeaderLayout.dec (data.bytes 0 8) = h := by
    have hbytes : data.bytes 0 8 = udpHeaderLayout.enc h := by
      rw [← sizeof_udpHeader, ← udpHeaderLayout.enc_length h]
      exact hheader
    rw [hbytes, Binary.Layout.dec_enc]
  have hlen' : (ntohs h.length).toNat = 8 + payload.length := by
    rw [hlen, UInt16.toNat_ofNat']
    omega
  have h8 : udpHeaderLen.toNat = 8 := rfl
  have hpay : udpPayload data length =
      some (ntohs h.srcPort, ntohs h.destPort, 8, ntohs h.length - udpHeaderLen) := by
    simp only [udpPayload, hdec, gt_iff_lt, UInt16.lt_iff_toNat_lt, h8]
    rw [if_neg (by omega), if_neg (by omega)]
  have hsub : (ntohs h.length - udpHeaderLen).toNat = payload.length := by
    rw [UInt16.toNat_sub_of_le _ _ (UInt16.le_iff_toNat_le.mpr (by omega))]
    omega
  have hbytes : (data.shift 8).bytes 0 payload.length = payload := by
    rw [Memory.bytes_shift]
    rw [Binary.Layout.length_enc, sizeof_udpHeader] at hpayload
    exact hpayload
  simp only [udpReceive, hpay]
  cases hfor : udpHandlerFor s (ntohs h.destPort) with
  | none => rfl
  | some callback =>
    simp only []
    obtain ⟨-, htrace, -⟩ := udpCallback_call_frame callback srcIp (ntohs h.srcPort) (data.shift 8)
      (ntohs h.length - udpHeaderLen) (s.log (.called callback srcIp (ntohs h.srcPort)
        ((data.shift 8).bytes 0 (ntohs h.length - udpHeaderLen).toNat)))
    rw [htrace, hsub, hbytes]
    rfl

/-- The ports of a reply are those of the request, swapped. -/
theorem udpReply_udpPacket (srcPort destPort : UInt16) (data : List UInt8) (checksum : UInt16)
    (payload : List UInt8) : udpReply (udpPacket srcPort destPort data) checksum payload =
      udpHeaderLayout.enc ⟨htons destPort, htons srcPort,
        htons (UInt16.ofNat (8 + payload.length)), checksum⟩ ++ payload := by
  simp only [udpReply, udpPacket, Binary.Layout.dec_append]

/-- **A reply reaches its client exactly if the client is `ntp_sync_time`.** -/
theorem reply_reaches_iff {s : NetState} (hs : Running s) (client : NetClient) (srcIp : UInt32)
    (checksum : UInt16) {payload : List UInt8} {data : Memory} {length : UInt16}
    (hdata : data.Stands 0 (udpReply (client.request s) checksum payload))
    (hle : 8 + payload.length ≤ length.toNat) :
    (∃ srcPort, (udpReceive srcIp data length s).trace =
      .called client.handler srcIp srcPort payload :: s.trace) ↔
      ∃ localTime, client = .ntp localTime := by
  have hfor := udpHandlerFor_registered hs.handlers
  cases client with
  | dns hostname =>
    simp only [NetClient.request, dnsRequest, udpReply_udpPacket] at hdata
    have htrace := udpReceive_trace (s := s) hdata (htons_htons _) hle srcIp
    rw [ntohs, htons_htons, hfor] at htrace
    constructor
    · rintro ⟨srcPort, h⟩
      rw [htrace] at h
      exact absurd h (List.cons_ne_self _ _).symm
    · rintro ⟨localTime, h⟩
      cases h
  | ntp localTime =>
    simp only [NetClient.request, ntpRequestTo, udpReply_udpPacket] at hdata
    have htrace := udpReceive_trace (s := s) hdata (htons_htons _) hle srcIp
    rw [ntohs, htons_htons, hfor] at htrace
    exact ⟨fun _ => ⟨localTime, rfl⟩, fun _ => ⟨_, htrace⟩⟩

def kernelNet : NetState := netInit (NetState.static true CArray.zero)

theorem kernelNet_running : Running kernelNet := .start ⟨_, rfl⟩

theorem ntp_reply_reaches : ∃ srcPort,
    (udpReceive 0x08080808 (.ofList (udpReply (NetClient.request kernelNet (.ntp 0)) 0 [0x24])) 9
      kernelNet).trace = .called .ntpResponseHandler 0x08080808 srcPort [0x24] :: kernelNet.trace :=
  (reply_reaches_iff kernelNet_running (.ntp 0) 0x08080808 0 (Memory.stands_ofList _)
    (by decide)).mpr ⟨0, rfl⟩

/-- The reply to a query of `dns_resolve` goes to port 12345, and is dropped. -/
theorem dns_reply_dropped :
    (udpReceive 0x0A000203
      (.ofList (udpReply (NetClient.request kernelNet (.dns (ascii "os.org"))) 0 [0])) 9
      kernelNet).trace = [] := rfl

end EphemeralOS
