import EphemeralOS.Net.Types

/-!
# Queries and answers

The parts of `net/dns.c` and `net/ntp.c` that build a request and read a
response. A response handler gets the memory from the payload on and the
payload's length, and a cursor into it is an offset.

`skipName` counts its rounds; a name is never longer than the data, and each
round moves the cursor, so as many rounds as the data has bytes are enough
(`skipName_rounds`).
-/

namespace EphemeralOS

open Binary

/-- The loop of `is_ip_address`. -/
def ipAddressLoop : List UInt8 → Nat → Nat → Bool
  | [], dots, digits => decide (dots = 3 ∧ digits > 0 ∧ digits ≤ 3)
  | c :: str, dots, digits =>
    if c = 0x2E then
      if digits = 0 ∨ digits > 3 then false else ipAddressLoop str (dots + 1) 0
    else if 0x30 ≤ c ∧ c ≤ 0x39 then ipAddressLoop str dots (digits + 1)
    else false

def isIpAddress (str : List UInt8) : Bool := ipAddressLoop str 0 0

/-- The loop of `parse_ip`, on a string that `is_ip_address` accepts: `shift` stays at least 0. -/
def parseIpLoop : List UInt8 → UInt32 → UInt32 → UInt32 → UInt32
  | [], ip, octet, shift => ip ||| (octet <<< shift)
  | c :: str, ip, octet, shift =>
    if c = 0x2E then parseIpLoop str (ip ||| (octet <<< shift)) 0 (shift - 8)
    else parseIpLoop str ip (octet * 10 + (c.toUInt32 - 0x30)) shift

def parseIp (str : List UInt8) : UInt32 := parseIpLoop str 0 0 24

/-- The labels that `dns_resolve` writes, and the zero after them; `label` is the label so far. -/
def qname : List UInt8 → List UInt8 → List UInt8
  | [], label => UInt8.ofNat label.length :: label ++ [0]
  | c :: hostname, label =>
    if c = 0x2E then UInt8.ofNat label.length :: label ++ qname hostname []
    else qname hostname (label ++ [c])

/-- The query that `dns_resolve` builds. -/
def dnsQuery (id : UInt16) (hostname : List UInt8) : List UInt8 :=
  dnsHeaderLayout.enc ⟨htons id, htons dnsFlagRd, htons 1, 0, 0, 0⟩ ++ qname hostname [] ++
    Layout.word16.enc (htons dnsQueryTypeA) ++ Layout.word16.enc (htons dnsClassIn)

/-! ## DNS responses -/

/-- `(ptr[0] << 8) | ptr[1]`. -/
def read16 (data : Memory) (ptr : Nat) : UInt16 :=
  ((data ptr).toUInt16 <<< 8) ||| (data (ptr + 1)).toUInt16

/-- `(ptr[0] << 24) | (ptr[1] << 16) | (ptr[2] << 8) | ptr[3]`. -/
def read32 (data : Memory) (ptr : Nat) : UInt32 :=
  ((data ptr).toUInt32 <<< 24) ||| ((data (ptr + 1)).toUInt32 <<< 16) |||
    ((data (ptr + 2)).toUInt32 <<< 8) ||| (data (ptr + 3)).toUInt32

/-- The loop over a name: where it leaves the cursor. -/
def skipName (data : Memory) (limit : Nat) : Nat → Nat → Nat
  | 0, ptr => ptr
  | rounds + 1, ptr =>
    if ptr < limit ∧ data ptr ≠ 0 then
      if data ptr &&& 0xC0 = 0xC0 then ptr + 2
      else skipName data limit rounds (ptr + ((data ptr).toNat + 1))
    else ptr

def afterName (data : Memory) (limit ptr : Nat) : Option Nat :=
  let ptr := skipName data limit limit ptr
  if ptr ≥ limit then none else if data ptr = 0 then some (ptr + 1) else some ptr

/-- The loop over the answer records: the address of the first A record it reads. -/
def answerLoop (data : Memory) (limit : Nat) : Nat → Nat → Option UInt32
  | 0, _ => none
  | count + 1, ptr =>
    if ¬ ptr < limit then none else
    match afterName data limit ptr with
    | none => none
    | some ptr =>
      if ptr + 10 > limit then none else
      let type := read16 data ptr
      let rdlength := read16 data (ptr + 8)
      if type = dnsQueryTypeA ∧ rdlength = 4 ∧ ptr + 10 + 4 ≤ limit then
        some (read32 data (ptr + 10))
      else answerLoop data limit count (ptr + 10 + rdlength.toNat)

/-- The address that `dns_response_handler` takes from a response. -/
def dnsAnswer (data : Memory) (length : UInt16) : Option UInt32 :=
  if length < 12 then none else
  let header := dnsHeaderLayout.dec (data.bytes 0 12)
  let flags := ntohs header.flags
  if flags &&& dnsFlagQr = 0 then none else
  let ancount := ntohs header.ancount
  if ancount = 0 then none else
  match afterName data length.toNat 12 with
  | none => none
  | some ptr => answerLoop data length.toNat ancount.toNat (ptr + 4)

def dnsResponseHandler (_srcIp : UInt32) (_srcPort : UInt16) (data : Memory) (length : UInt16)
    (s : NetState) : NetState :=
  match dnsAnswer data length with
  | some ip => { s with resolvedIp := ip, resolutionComplete := true }
  | none => s

/-- The request that `ntp_sync_time` builds. -/
def ntpRequest (localTime : UInt32) : List UInt8 :=
  ntpPacketLayout.enc
    { NtpPacket.zero with
      liVnMode := (ntpVersion <<< 3) ||| ntpModeClient
      transTimestampSec := htonl (localTime + ntpTimestampDelta) }

def ntpResponseHandler (_srcIp : UInt32) (_srcPort : UInt16) (data : Memory) (length : UInt16)
    (s : NetState) : NetState :=
  if length < 48 then s else
  let packet := ntpPacketLayout.dec (data.bytes 0 48)
  let mode := packet.liVnMode &&& 0x07
  if mode ≠ 4 then s else
  let transSec := ntohl packet.transTimestampSec
  if transSec > ntpTimestampDelta then
    { s with syncedTimestamp := transSec - ntpTimestampDelta, syncComplete := true }
  else s

/-- A call through a `udp_callback_t`. -/
def UdpCallback.call : UdpCallback → UInt32 → UInt16 → Memory → UInt16 → NetState → NetState
  | .dnsResponseHandler => EphemeralOS.dnsResponseHandler
  | .ntpResponseHandler => EphemeralOS.ntpResponseHandler
  | .other _ => fun _ _ _ _ s => s

/-- With enough rounds, the loop over a name is the loop of the source. -/
theorem skipName_rounds (data : Memory) (limit : Nat) {rounds ptr : Nat}
    (h : limit - ptr ≤ rounds) : skipName data limit rounds ptr =
      if ptr < limit ∧ data ptr ≠ 0 then
        if data ptr &&& 0xC0 = 0xC0 then ptr + 2
        else skipName data limit rounds (ptr + ((data ptr).toNat + 1))
      else ptr := by
  induction rounds generalizing ptr with
  | zero =>
    have hp : ¬ (ptr < limit ∧ data ptr ≠ 0) := by omega
    rw [if_neg hp, skipName]
  | succ rounds ih =>
    conv_lhs => rw [skipName]
    split <;> [skip; rfl]
    split <;> [rfl; skip]
    rw [ih (by omega), skipName]

end EphemeralOS
