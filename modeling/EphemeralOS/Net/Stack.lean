import EphemeralOS.Net.Types
import Mathlib.Logic.Function.Basic

/-!
# The network stack

`net/ethernet.c`, `net/arp.c`, `net/ip.c`, `net/icmp.c` and `net/udp.c`. What is
sent is a list of bytes, as long as the length passed; what is received is the
memory from a pointer on, with a length that may claim too much. Pointers and
lengths passed up from layer to layer are computed by `ethPayload`, `ipPayload`
and `udpPayload`.

`ip_send` polls the driver while it waits for an ARP reply and hands what it
gets to `eth_receive_frame`, which may call `ip_send` again; each polled frame
is one arrival less, so the depth of this recursion is at most the number of
arrivals (`ethReceiveFrame`).
-/

namespace EphemeralOS

/-- `network_send_packet`, without the programming of the card. -/
def networkSendPacket (data : List UInt8) (s : NetState) : NetState :=
  if !s.initialized || decide (data.length > 2048) then s
  else s.log (.sent (data ++ List.replicate (60 - data.length) 0))

/-- `network_receive_packet`: the packet found, if any. -/
def networkReceivePacket (s : NetState) : Option Packet × NetState :=
  if !s.initialized then (none, s) else
  match s.arrivals with
  | [] => (none, s)
  | arrival :: arrivals => (arrival, { s with arrivals := arrivals })

/-- The frames polled go to `receive`. -/
def pollNetwork (receive : Memory → UInt16 → NetState → NetState) (s : NetState) : NetState :=
  match networkReceivePacket s with
  | (some packet, s) => if packet.length > 0 then receive packet.bytes packet.length s else s
  | (none, s) => s

/-! ## Ethernet -/

def ethSendFrame (destMac : Mac) (ethType : UInt16) (data : List UInt8) (s : NetState) : NetState :=
  let length := UInt16.ofNat data.length
  if length > ethDataLen then s else
  let header := ethHeaderLayout.enc ⟨destMac, s.localMac, htons ethType⟩
  let frame := header ++ data
  networkSendPacket (frame ++ List.replicate (60 - frame.length) 0) s

/-- The receivers of `eth_receive_frame`. -/
inductive EthLayer
  | arp
  | ip
  deriving DecidableEq

/-- What `eth_receive_frame` passes on: to which layer, from which offset, how much. -/
def ethPayload (frame : Memory) (length : UInt16) : Option (EthLayer × Nat × UInt16) :=
  if length < ethHlen then none else
  let ethType := ntohs (ethHeaderLayout.dec (frame.bytes 0 14)).type
  if ethType = ethTypeArp then some (.arp, 14, length - ethHlen)
  else if ethType = ethTypeIp then some (.ip, 14, length - ethHlen)
  else none

/-! ## ARP -/

/-- The loop of `arp_add_entry`: the entry to write, which is the first one for `ip`, else the first
invalid one, else the oldest. -/
def arpSlot (cache : Fin 32 → ArpEntry) (ip : UInt32) : List (Fin 32) → Fin 32 → UInt32 → Fin 32
  | [], oldestIndex, _ => oldestIndex
  | i :: is, oldestIndex, oldestTime =>
    if (cache i).valid ∧ (cache i).ip = ip then i
    else if ¬ (cache i).valid then i
    else if (cache i).timestamp < oldestTime then arpSlot cache ip is i (cache i).timestamp
    else arpSlot cache ip is oldestIndex oldestTime

/-- `arp_add_entry`. An entry for `ip` already is valid and has that `ip`. -/
def arpAddEntry (ip : UInt32) (mac : Mac) (s : NetState) : NetState :=
  let i := arpSlot s.arpCache ip (List.finRange 32) 0 0xFFFFFFFF
  { s with arpCache := Function.update s.arpCache i ⟨ip, mac, s.arpTimer, true⟩ }

/-- `arp_resolve`: the address found. -/
def arpResolve (ip : UInt32) (s : NetState) : Option Mac :=
  ((List.finRange 32).find? fun i => (s.arpCache i).valid ∧ (s.arpCache i).ip = ip).map
    fun i => (s.arpCache i).mac

def broadcastMac : Mac := fun _ => 0xFF

def arpSendRequest (targetIp : UInt32) (s : NetState) : NetState :=
  let arp : ArpPacket :=
    { htype := htons arpHtypeEthernet
      ptype := htons arpPtypeIpv4
      hlen := 6
      plen := 4
      oper := htons arpOperRequest
      sha := s.localMac
      spa := htonl s.ipAddress
      tha := CArray.zero
      tpa := htonl targetIp }
  ethSendFrame broadcastMac ethTypeArp (arpPacketLayout.enc arp) s

def arpReceive (data : Memory) (length : UInt16) (s : NetState) : NetState :=
  if length < 28 then s else
  let arp := arpPacketLayout.dec (data.bytes 0 28)
  if ntohs arp.htype ≠ arpHtypeEthernet ∨ ntohs arp.ptype ≠ arpPtypeIpv4 then s else
  let senderIp := ntohl arp.spa
  let targetIp := ntohl arp.tpa
  let localIp := s.ipAddress
  let s := arpAddEntry senderIp arp.sha s
  if ntohs arp.oper = arpOperRequest ∧ targetIp = localIp then
    let reply : ArpPacket :=
      { htype := htons arpHtypeEthernet
        ptype := htons arpPtypeIpv4
        hlen := 6
        plen := 4
        oper := htons arpOperReply
        sha := s.localMac
        spa := htonl localIp
        tha := arp.sha
        tpa := arp.spa }
    ethSendFrame arp.sha ethTypeArp (arpPacketLayout.enc reply) s
  else s

/-! ## IP -/

/-- The summing loop of `ip_checksum` over the rest of the data, in words as the CPU reads them. -/
def checksumLoop : List UInt8 → UInt32 → UInt32
  | a :: b :: data, sum => checksumLoop data (sum + (a.toUInt32 ||| (b.toUInt32 <<< 8)))
  | [a], sum => sum + a.toUInt32
  | [], sum => sum

/-- The folding loop of `ip_checksum`; two rounds are enough for any `sum`. -/
def foldCarry : Nat → UInt32 → UInt32
  | 0, sum => sum
  | rounds + 1, sum =>
    if sum >>> 16 ≠ 0 then foldCarry rounds ((sum &&& (0xFFFF : UInt32)) + (sum >>> 16)) else sum

def ipChecksum (data : List UInt8) : UInt16 := ~~~ (foldCarry 2 (checksumLoop data 0)).toUInt16

/-- The header that `ip_send` builds, its checksum still 0. -/
def ipHeader (s : NetState) (destIp : UInt32) (protocol : UInt8) (totalLength : UInt16) : IpHeader :=
  { versionIhl := 0x45
    tos := 0
    totalLength := htons totalLength
    identification := htons s.ipIdCounter
    flagsFragment := htons 0x4000
    ttl := ipDefaultTtl
    protocol := protocol
    checksum := 0
    srcIp := htonl s.ipAddress
    destIp := htonl destIp }

def IpHeader.checked (h : IpHeader) : IpHeader :=
  { h with checksum := htons (ipChecksum (ipHeaderLayout.enc h)) }

/-- The packet that `ip_send` builds. -/
def ipPacket (s : NetState) (destIp : UInt32) (protocol : UInt8) (data : List UInt8) : List UInt8 :=
  let totalLength := ipHeaderMinLen + UInt16.ofNat data.length
  ipHeaderLayout.enc (ipHeader s destIp protocol totalLength).checked ++ data

/-- Whose MAC address a packet needs: the destination's on the same subnet, else the gateway's. -/
def ipTarget (localIp destIp : UInt32) : UInt32 :=
  let gateway := (localIp &&& 0xFFFFFF00) ||| 0x01
  let subnetMask : UInt32 := 0xFFFFFF00
  if (destIp &&& subnetMask) = (localIp &&& subnetMask) then destIp else gateway

section Receive

variable (receive : Memory → UInt16 → NetState → NetState)

/-- The polling loop of `ip_send`. -/
def arpWait (targetIp : UInt32) : Nat → NetState → NetState
  | 0, s => s
  | retries + 1, s =>
    let s := pollNetwork receive s
    if (arpResolve targetIp s).isSome then s else arpWait targetIp retries s

def ipSend (destIp : UInt32) (protocol : UInt8) (data : List UInt8) (s : NetState) : NetState :=
  let totalLength := ipHeaderMinLen + UInt16.ofNat data.length
  if totalLength > 1500 then s else
  let packet := (ipPacket s destIp protocol data).take totalLength.toNat
  let s := { s with ipIdCounter := s.ipIdCounter + 1 }
  let targetIp := ipTarget s.ipAddress destIp
  match arpResolve targetIp s with
  | some destMac => ethSendFrame destMac ethTypeIp packet s
  | none =>
    let s := arpWait receive targetIp 10 (arpSendRequest targetIp s)
    match arpResolve targetIp s with
    | some destMac => ethSendFrame destMac ethTypeIp packet s
    | none => s

/-! ## ICMP -/

/-- An ICMP message: a header, its checksum computed over header and data, and the data. -/
def icmpMessage (h : IcmpHeader) (data : List UInt8) : List UInt8 :=
  let h := { h with checksum := 0 }
  icmpHeaderLayout.enc
    { h with checksum := htons (ipChecksum (icmpHeaderLayout.enc h ++ data)) } ++ data

/-- The message that `icmp_send_echo_request` builds. -/
def echoRequest (id sequence : UInt16) : List UInt8 :=
  icmpMessage ⟨icmpTypeEchoRequest, icmpCodeEcho, 0, htons id, htons sequence⟩
    ((List.range 56).map fun i => 0x41 + UInt8.ofNat (i % 26))

def pingFree (s : NetState) (i : Fin 16) : Bool :=
  !(s.pingStates i).received || decide (s.icmpTimer - (s.pingStates i).timestamp > 5000)

def pingSlot (s : NetState) : Option (Fin 16) := (List.finRange 16).find? (pingFree s)

def pingStart (destIp : UInt32) (sequence : UInt16) (s : NetState) : NetState :=
  match pingSlot s with
  | some slot =>
    let entry : PingState := ⟨destIp, sequence, s.icmpTimer, false⟩
    { s with pingStates := Function.update s.pingStates slot entry }
  | none => s

def icmpSendEchoRequest (destIp : UInt32) (id sequence : UInt16) (s : NetState) : NetState :=
  let packet := echoRequest id sequence
  let s := s.log (.pinged destIp id sequence)
  ipSend receive destIp ipProtoIcmp packet (pingStart destIp sequence s)

/-- The reply that `icmp_receive` builds from a request of `length` bytes. -/
def echoReply (data : Memory) (length : UInt16) : List UInt8 :=
  icmpMessage
    { icmpHeaderLayout.dec (data.bytes 0 8) with type := icmpTypeEchoReply, code := icmpCodeEcho }
    (data.bytes 8 (length.toNat - 8))

/-- The first ping state that waits for a reply to `sequence` from `srcIp`. -/
def pingPending (s : NetState) (srcIp : UInt32) (sequence : UInt16) : Option (Fin 16) :=
  (List.finRange 16).find? fun i => (s.pingStates i).ip = srcIp ∧
    (s.pingStates i).sequence = sequence ∧ ¬ (s.pingStates i).received

/-- A reply to `sequence` from `srcIp` marks the ping state that waits for it. -/
def icmpAnswer (srcIp : UInt32) (sequence : UInt16) (s : NetState) : NetState :=
  match pingPending s srcIp sequence with
  | some i =>
    let entry := { s.pingStates i with received := true }
    { s with pingStates := Function.update s.pingStates i entry }
  | none => s

def icmpReceive (srcIp : UInt32) (data : Memory) (length : UInt16) (s : NetState) : NetState :=
  if length < 8 then s else
  let header := icmpHeaderLayout.dec (data.bytes 0 8)
  if header.type = icmpTypeEchoRequest then
    ipSend receive srcIp ipProtoIcmp (echoReply data length) s
  else if header.type = icmpTypeEchoReply then
    let sequence := ntohs header.sequence
    icmpAnswer srcIp sequence (s.log (.answered srcIp sequence))
  else s

/-! ## UDP -/

def udpRegisterHandler (port : UInt16) (callback : UdpCallback) (s : NetState) : NetState :=
  match (List.finRange 8).find? fun i => (s.udpHandlers i).port = 0 with
  | some i => { s with udpHandlers := Function.update s.udpHandlers i ⟨port, some callback⟩ }
  | none => s

/-- The packet that `udp_send` builds. -/
def udpPacket (srcPort destPort : UInt16) (data : List UInt8) : List UInt8 :=
  let totalLength := udpHeaderLen + UInt16.ofNat data.length
  udpHeaderLayout.enc ⟨htons srcPort, htons destPort, htons totalLength, 0⟩ ++ data

def udpSend (destIp : UInt32) (srcPort destPort : UInt16) (data : List UInt8) (s : NetState) :
    NetState :=
  let totalLength := udpHeaderLen + UInt16.ofNat data.length
  if totalLength > 1500 then s else
  ipSend receive destIp ipProtoUdp ((udpPacket srcPort destPort data).take totalLength.toNat) s

/-- What `udp_receive` passes on: source port, destination port, offset and length. -/
def udpPayload (data : Memory) (length : UInt16) : Option (UInt16 × UInt16 × Nat × UInt16) :=
  if length < udpHeaderLen then none else
  let header := udpHeaderLayout.dec (data.bytes 0 8)
  let udpLength := ntohs header.length
  if udpLength > length ∨ udpLength < udpHeaderLen then none else
  some (ntohs header.srcPort, ntohs header.destPort, 8, udpLength - udpHeaderLen)

/-- The handler that `udp_receive` calls for a port. -/
def udpHandlerFor (s : NetState) (destPort : UInt16) : Option UdpCallback :=
  ((List.finRange 8).find? fun i =>
    (s.udpHandlers i).port = destPort ∧ (s.udpHandlers i).callback.isSome).bind
    fun i => (s.udpHandlers i).callback

end Receive

end EphemeralOS
