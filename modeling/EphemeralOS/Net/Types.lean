import EphemeralOS.Lib.Layout
import EphemeralOS.Kernel.Memory
import Mathlib.Data.Fin.VecNotation
import Mathlib.Tactic.IntervalCases

/-!
# Network data

The headers of `net/*.h` with their C layouts, the byte-order functions, and the
state of the network stack: the static objects of `net/*.c`, what the driver
will deliver, and the history of what happened.

A header holds its fields as the CPU reads them from memory, so those in network
byte order go through `ntohs` and `ntohl` before they are used.
-/

namespace EphemeralOS

open Binary

def htons (n : UInt16) : UInt16 := ((n &&& 0xFF) <<< 8) ||| ((n &&& 0xFF00) >>> 8)

def ntohs (n : UInt16) : UInt16 := htons n

def htonl (n : UInt32) : UInt32 :=
  ((n &&& 0xFF) <<< 24) ||| ((n &&& 0xFF00) <<< 8) ||| ((n &&& 0xFF0000) >>> 8) |||
    ((n &&& 0xFF000000) >>> 24)

def ntohl (n : UInt32) : UInt32 := htonl n

theorem htons_toNat (n : UInt16) : (htons n).toNat = n.toNat % 256 * 256 + n.toNat / 256 := by
  have hn := n.toNat_lt
  have hlow : n.toNat &&& 255 = n.toNat % 256 := Nat.and_two_pow_sub_one_eq_mod n.toNat 8
  have hhigh : (n.toNat &&& 65280) >>> 8 = n.toNat / 256 := by
    rw [Nat.shiftRight_and_distrib, Nat.shiftRight_eq_div_pow]
    rw [show (65280 >>> 8) = 2 ^ 8 - 1 from rfl, Nat.and_two_pow_sub_one_eq_mod]
    omega
  have hor : (n.toNat % 256) <<< 8 ||| n.toNat / 256 = n.toNat % 256 * 256 + n.toNat / 256 := by
    rw [← Nat.shiftLeft_add_eq_or_of_lt (by omega), Nat.shiftLeft_eq]
  rw [← hor, htons, UInt16.toNat_or, UInt16.toNat_shiftLeft, UInt16.toNat_shiftRight,
    UInt16.toNat_and, UInt16.toNat_and]
  change (n.toNat &&& 255) <<< 8 % 2 ^ 16 ||| (n.toNat &&& 65280) >>> 8 = _
  rw [hlow, hhigh, Nat.mod_eq_of_lt]
  rw [Nat.shiftLeft_eq]
  omega

theorem enc_htons (n : UInt16) :
    Binary.Layout.word16.enc (htons n) = [UInt8.ofNat (n.toNat / 256), UInt8.ofNat n.toNat] := by
  have hn := n.toNat_lt
  have hlow : (htons n).toNat % 256 = n.toNat / 256 := by
    rw [htons_toNat]
    omega
  have hhigh : (htons n).toNat / 2 ^ 8 = n.toNat % 256 := by
    rw [htons_toNat]
    omega
  change [_, _] = [_, _]
  congr 1
  · apply UInt8.toNat_inj.mp
    rw [UInt8.toNat_ofNat', UInt8.toNat_ofNat']
    omega
  · congr 1
    apply UInt8.toNat_inj.mp
    rw [UInt8.toNat_ofNat', UInt8.toNat_ofNat', hhigh]
    omega

theorem htons_htons (n : UInt16) : htons (htons n) = n := by
  apply UInt16.toNat_inj.mp
  rw [htons_toNat, htons_toNat]
  have hn := n.toNat_lt
  omega

theorem htonl_htonl (n : UInt32) : htonl (htonl n) = n := by
  apply UInt32.toBitVec_inj.mp
  simp only [htonl, UInt32.toBitVec_or, UInt32.toBitVec_and, UInt32.toBitVec_shiftLeft,
    UInt32.toBitVec_shiftRight]
  apply BitVec.eq_of_getLsbD_eq
  intro i hi
  -- every bit moves there and back
  interval_cases i <;> simp

/-! ## Constants -/

def ethHlen : UInt16 := 14
def ethDataLen : UInt16 := 1500
def ethTypeArp : UInt16 := 0x0806
def ethTypeIp : UInt16 := 0x0800

def arpHtypeEthernet : UInt16 := 0x0001
def arpPtypeIpv4 : UInt16 := 0x0800
def arpOperRequest : UInt16 := 0x0001
def arpOperReply : UInt16 := 0x0002

def ipVersion : UInt8 := 4
def ipHeaderMinLen : UInt16 := 20
def ipDefaultTtl : UInt8 := 64
def ipProtoIcmp : UInt8 := 1
def ipProtoUdp : UInt8 := 17

def icmpTypeEchoReply : UInt8 := 0
def icmpTypeEchoRequest : UInt8 := 8
def icmpCodeEcho : UInt8 := 0

def udpHeaderLen : UInt16 := 8

def dnsPort : UInt16 := 53
def dnsQueryTypeA : UInt16 := 1
def dnsClassIn : UInt16 := 1
def dnsFlagQr : UInt16 := 0x8000
def dnsFlagRd : UInt16 := 0x0100
def dnsTimeoutMs : Nat := 5000

def ntpPort : UInt16 := 123
def ntpTimestampDelta : UInt32 := 2208988800
def ntpModeClient : UInt8 := 3
def ntpVersion : UInt8 := 4
def ntpTimeoutMs : Nat := 5000

/-! ## Headers -/

abbrev Mac := CArray 6

/-- `eth_header_t`. -/
structure EthHeader where
  dest : Mac
  src : Mac
  type : UInt16

/-- `arp_packet_t`. -/
structure ArpPacket where
  htype : UInt16
  ptype : UInt16
  hlen : UInt8
  plen : UInt8
  oper : UInt16
  sha : Mac
  spa : UInt32
  tha : Mac
  tpa : UInt32

/-- `ip_header_t`. -/
structure IpHeader where
  versionIhl : UInt8
  tos : UInt8
  totalLength : UInt16
  identification : UInt16
  flagsFragment : UInt16
  ttl : UInt8
  protocol : UInt8
  checksum : UInt16
  srcIp : UInt32
  destIp : UInt32

/-- `icmp_header_t`. -/
structure IcmpHeader where
  type : UInt8
  code : UInt8
  checksum : UInt16
  id : UInt16
  sequence : UInt16

/-- `udp_header_t`. -/
structure UdpHeader where
  srcPort : UInt16
  destPort : UInt16
  length : UInt16
  checksum : UInt16

/-- `dns_header_t`. -/
structure DnsHeader where
  id : UInt16
  flags : UInt16
  qdcount : UInt16
  ancount : UInt16
  nscount : UInt16
  arcount : UInt16

/-- `ntp_packet_t`. -/
structure NtpPacket where
  liVnMode : UInt8
  stratum : UInt8
  poll : UInt8
  precision : UInt8
  rootDelay : UInt32
  rootDispersion : UInt32
  refId : UInt32
  refTimestampSec : UInt32
  refTimestampFrac : UInt32
  origTimestampSec : UInt32
  origTimestampFrac : UInt32
  recvTimestampSec : UInt32
  recvTimestampFrac : UInt32
  transTimestampSec : UInt32
  transTimestampFrac : UInt32

def NtpPacket.zero : NtpPacket := ⟨0, 0, 0, 0, 0, 0, 0, 0, 0, 0, 0, 0, 0, 0, 0⟩

/-! ## Layouts -/

def macLayout : Layout Mac := Layout.array 6 Layout.byte

def ethHeaderLayout : Layout EthHeader :=
  Layout.record (macLayout.seq (macLayout.seq Layout.word16))
    (fun p => ⟨p.1, p.2.1, p.2.2⟩) (fun h => (h.dest, h.src, h.type)) (fun _ => rfl)

def arpPacketLayout : Layout ArpPacket :=
  Layout.record
    (Layout.word16.seq (Layout.word16.seq (Layout.byte.seq (Layout.byte.seq (Layout.word16.seq
      (macLayout.seq (Layout.word32.seq (macLayout.seq Layout.word32))))))))
    (fun p => ⟨p.1, p.2.1, p.2.2.1, p.2.2.2.1, p.2.2.2.2.1, p.2.2.2.2.2.1, p.2.2.2.2.2.2.1,
      p.2.2.2.2.2.2.2.1, p.2.2.2.2.2.2.2.2⟩)
    (fun a => (a.htype, a.ptype, a.hlen, a.plen, a.oper, a.sha, a.spa, a.tha, a.tpa))
    (fun _ => rfl)

def ipHeaderLayout : Layout IpHeader :=
  Layout.record
    (Layout.byte.seq (Layout.byte.seq (Layout.word16.seq (Layout.word16.seq (Layout.word16.seq
      (Layout.byte.seq (Layout.byte.seq (Layout.word16.seq
        (Layout.word32.seq Layout.word32)))))))))
    (fun p => ⟨p.1, p.2.1, p.2.2.1, p.2.2.2.1, p.2.2.2.2.1, p.2.2.2.2.2.1, p.2.2.2.2.2.2.1,
      p.2.2.2.2.2.2.2.1, p.2.2.2.2.2.2.2.2.1, p.2.2.2.2.2.2.2.2.2⟩)
    (fun h => (h.versionIhl, h.tos, h.totalLength, h.identification, h.flagsFragment, h.ttl,
      h.protocol, h.checksum, h.srcIp, h.destIp))
    (fun _ => rfl)

def icmpHeaderLayout : Layout IcmpHeader :=
  Layout.record
    (Layout.byte.seq (Layout.byte.seq (Layout.word16.seq (Layout.word16.seq Layout.word16))))
    (fun p => ⟨p.1, p.2.1, p.2.2.1, p.2.2.2.1, p.2.2.2.2⟩)
    (fun h => (h.type, h.code, h.checksum, h.id, h.sequence))
    (fun _ => rfl)

def udpHeaderLayout : Layout UdpHeader :=
  Layout.record (Layout.word16.seq (Layout.word16.seq (Layout.word16.seq Layout.word16)))
    (fun p => ⟨p.1, p.2.1, p.2.2.1, p.2.2.2⟩)
    (fun h => (h.srcPort, h.destPort, h.length, h.checksum))
    (fun _ => rfl)

def dnsHeaderLayout : Layout DnsHeader :=
  Layout.record
    (Layout.word16.seq (Layout.word16.seq (Layout.word16.seq (Layout.word16.seq
      (Layout.word16.seq Layout.word16)))))
    (fun p => ⟨p.1, p.2.1, p.2.2.1, p.2.2.2.1, p.2.2.2.2.1, p.2.2.2.2.2⟩)
    (fun h => (h.id, h.flags, h.qdcount, h.ancount, h.nscount, h.arcount))
    (fun _ => rfl)

def ntpPacketLayout : Layout NtpPacket :=
  Layout.record
    (Layout.byte.seq (Layout.byte.seq (Layout.byte.seq (Layout.byte.seq
      (Layout.array 11 Layout.word32)))))
    (fun p =>
      let w := p.2.2.2.2
      ⟨p.1, p.2.1, p.2.2.1, p.2.2.2.1, w 0, w 1, w 2, w 3, w 4, w 5, w 6, w 7, w 8, w 9, w 10⟩)
    (fun h => (h.liVnMode, h.stratum, h.poll, h.precision,
      ![h.rootDelay, h.rootDispersion, h.refId, h.refTimestampSec, h.refTimestampFrac,
        h.origTimestampSec, h.origTimestampFrac, h.recvTimestampSec, h.recvTimestampFrac,
        h.transTimestampSec, h.transTimestampFrac]))
    (fun _ => rfl)

theorem sizeof_ethHeader : ethHeaderLayout.size = 14 := rfl
theorem sizeof_arpPacket : arpPacketLayout.size = 28 := rfl
theorem sizeof_ipHeader : ipHeaderLayout.size = 20 := rfl
theorem sizeof_icmpHeader : icmpHeaderLayout.size = 8 := rfl
theorem sizeof_udpHeader : udpHeaderLayout.size = 8 := rfl
theorem sizeof_dnsHeader : dnsHeaderLayout.size = 12 := rfl
theorem sizeof_ntpPacket : ntpPacketLayout.size = 48 := rfl

/-! ## State -/

/-- `arp_cache_entry_t`. -/
structure ArpEntry where
  ip : UInt32
  mac : Mac
  timestamp : UInt32
  valid : Bool

/-- `icmp_ping_state_t`. -/
structure PingState where
  ip : UInt32
  sequence : UInt16
  timestamp : UInt32
  received : Bool

/-- A `udp_callback_t`: the two handlers of the stack, or some other function. -/
inductive UdpCallback
  | dnsResponseHandler
  | ntpResponseHandler
  | other (n : Nat)
  deriving DecidableEq

/-- `udp_handler_t`. -/
structure UdpHandler where
  port : UInt16
  callback : Option UdpCallback

/-- A packet in a receive buffer: the memory from the buffer on, and the length received. -/
structure Packet where
  bytes : Memory
  length : UInt16

/-- What happens in the stack. -/
inductive NetEvent
  /-- A frame is given to the driver. -/
  | sent (frame : List UInt8)
  /-- A UDP callback is called. -/
  | called (callback : UdpCallback) (srcIp : UInt32) (srcPort : UInt16) (payload : List UInt8)
  /-- `icmp_send_echo_request` is called. -/
  | pinged (destIp : UInt32) (id sequence : UInt16)
  /-- `icmp_receive` gets an echo reply. -/
  | answered (srcIp : UInt32) (sequence : UInt16)
  deriving DecidableEq

/-- A literal is an index of `arp_cache`. -/
instance neZeroArpCache : NeZero 32 := ⟨by decide⟩

/-- A literal is an index of `udp_handlers`. -/
instance neZeroUdpHandlers : NeZero 8 := ⟨by decide⟩

/-- The static objects of the stack; `arrivals` is what the next calls of `network_receive_packet`
find, and `trace` what has happened, the latest first. -/
structure NetState where
  initialized : Bool
  ipAddress : UInt32
  localMac : Mac
  arpCache : Fin 32 → ArpEntry
  arpTimer : UInt32
  ipIdCounter : UInt16
  pingStates : Fin 16 → PingState
  icmpTimer : UInt32
  udpHandlers : Fin 8 → UdpHandler
  dnsServer : UInt32
  resolvedIp : UInt32
  resolutionComplete : Bool
  dnsTransactionId : UInt16
  ntpServer : UInt32
  syncedTimestamp : UInt32
  syncComplete : Bool
  arrivals : List (Option Packet)
  trace : List NetEvent

/-- The static objects before any initialisation, with a driver at `mac` that is ready or not. -/
def NetState.static (initialized : Bool) (mac : Mac) : NetState where
  initialized := initialized
  ipAddress := 0
  localMac := mac
  arpCache := fun _ => ⟨0, CArray.zero, 0, false⟩
  arpTimer := 0
  ipIdCounter := 0
  pingStates := fun _ => ⟨0, 0, 0, false⟩
  icmpTimer := 0
  udpHandlers := fun _ => ⟨0, none⟩
  dnsServer := 0x08080808
  resolvedIp := 0
  resolutionComplete := false
  dnsTransactionId := 1
  ntpServer := 0x08080808
  syncedTimestamp := 0
  syncComplete := false
  arrivals := []
  trace := []

def NetState.log (e : NetEvent) (s : NetState) : NetState := { s with trace := e :: s.trace }

end EphemeralOS
