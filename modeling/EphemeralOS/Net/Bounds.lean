import EphemeralOS.Net.Receive

/-!
# Payloads inside the frame

`Handed` is what `eth_receive_frame`, `ip_receive` and `udp_receive` pass on
while they handle one frame, each payload by its offset in the frame and its
length. Ethernet and UDP check what they subtract from; `ip_receive` compares
`total_length` with what was received but not with `ihl`, so a `ShortTotal`
packet has a payload of nearly 2^16 bytes (`frame_in_bounds_iff`).
-/

namespace EphemeralOS

inductive Receiver
  | arp
  | ip
  | icmp
  | udp
  | callback (c : UdpCallback)

/-- While the first `length` bytes of `frame` are handled, `n` bytes from offset `off` on are passed
to a receiver. -/
inductive Handed (s : NetState) (frame : Memory) (length : UInt16) :
    Receiver → Nat → UInt16 → Prop
  | arp {off n} : ethPayload frame length = some (.arp, off, n) → Handed s frame length .arp off n
  | ip {off n} : ethPayload frame length = some (.ip, off, n) → Handed s frame length .ip off n
  | icmp {off n srcIp off' n'} : Handed s frame length .ip off n →
      ipPayload s.ipAddress (frame.shift off) n = some (ipProtoIcmp, srcIp, off', n') →
      Handed s frame length .icmp (off + off') n'
  | udp {off n srcIp off' n'} : Handed s frame length .ip off n →
      ipPayload s.ipAddress (frame.shift off) n = some (ipProtoUdp, srcIp, off', n') →
      Handed s frame length .udp (off + off') n'
  | callback {off n srcPort destPort off' n' c} : Handed s frame length .udp off n →
      udpPayload (frame.shift off) n = some (srcPort, destPort, off', n') →
      udpHandlerFor s destPort = some c → Handed s frame length (.callback c) (off + off') n'

/-- The bytes that `icmp_receive` copies into its `reply`. -/
def replyCopied (data : Memory) (length : UInt16) : Nat :=
  if length < 8 then 0 else
  if (icmpHeaderLayout.dec (data.bytes 0 8)).type = icmpTypeEchoRequest then length.toNat else 0

/-- An IPv4 packet for this host and for ICMP or UDP, with a whole header that its total length does
not cover. -/
structure ShortTotal (localIp : UInt32) (frame : Memory) (length : UInt16) : Prop where
  type : ntohs (ethHeaderLayout.dec (frame.bytes 0 14)).type = ethTypeIp
  version : (ipHeaderAt (frame.shift 14)).version = ipVersion
  ihl_min : 20 ≤ (ipHeaderAt (frame.shift 14)).ihl.toNat
  ihl_max : 14 + (ipHeaderAt (frame.shift 14)).ihl.toNat ≤ length.toNat
  dest : ntohl (ipHeaderAt (frame.shift 14)).destIp = localIp ∨
    ntohl (ipHeaderAt (frame.shift 14)).destIp = 0xFFFFFFFF
  protocol : (ipHeaderAt (frame.shift 14)).protocol = ipProtoIcmp ∨
    (ipHeaderAt (frame.shift 14)).protocol = ipProtoUdp
  short : (ntohs (ipHeaderAt (frame.shift 14)).totalLength).toNat <
    (ipHeaderAt (frame.shift 14)).ihl.toNat

/-! ## One layer each -/

theorem ethPayload_some {frame : Memory} {length : UInt16} {layer : EthLayer} {off : Nat}
    {n : UInt16} (h : ethPayload frame length = some (layer, off, n)) :
    14 ≤ length.toNat ∧ off = 14 ∧ n = length - ethHlen := by
  simp only [ethPayload] at h
  split at h
  · cases h
  · next hlen =>
    have hlen : 14 ≤ length.toNat := Nat.le_of_not_lt fun h => hlen (UInt16.lt_iff_toNat_lt.mpr h)
    split at h
    · cases h
      exact ⟨hlen, rfl, rfl⟩
    · split at h
      · cases h
        exact ⟨hlen, rfl, rfl⟩
      · cases h

theorem ethPayload_ip {frame : Memory} {length : UInt16} :
    ethPayload frame length = some (.ip, 14, length - ethHlen) ↔ 14 ≤ length.toNat ∧
      ntohs (ethHeaderLayout.dec (frame.bytes 0 14)).type = ethTypeIp := by
  simp only [ethPayload]
  split
  · next hlen =>
    have hlen : length.toNat < 14 := UInt16.lt_iff_toNat_lt.mp hlen
    constructor
    · intro h
      cases h
    · omega
  · next hlen =>
    have hlen : 14 ≤ length.toNat := Nat.le_of_not_lt fun h => hlen (UInt16.lt_iff_toNat_lt.mpr h)
    split
    · next ha =>
      rw [ha]
      simp [ethTypeArp, ethTypeIp]
    · split
      · next hi => simp [hi, hlen]
      · next hi => simp [hi]

/-- What `ip_receive` checks, and what it does not: `total_length` against `ihl`. -/
theorem ipPayload_eq {localIp : UInt32} {data : Memory} {length : UInt16} :
    ipPayload localIp data length =
      if 20 ≤ length.toNat ∧ (ipHeaderAt data).version = ipVersion ∧
          20 ≤ (ipHeaderAt data).ihl.toNat ∧ (ipHeaderAt data).ihl.toNat ≤ length.toNat ∧
          (ntohs (ipHeaderAt data).totalLength).toNat ≤ length.toNat ∧
          (ntohl (ipHeaderAt data).destIp = localIp ∨ ntohl (ipHeaderAt data).destIp = 0xFFFFFFFF)
      then some ((ipHeaderAt data).protocol, ntohl (ipHeaderAt data).srcIp,
        (ipHeaderAt data).ihl.toNat,
        ntohs (ipHeaderAt data).totalLength - (ipHeaderAt data).ihl)
      else none := by
  have h20 : ipHeaderMinLen.toNat = 20 := rfl
  simp only [ipPayload, gt_iff_lt, UInt16.lt_iff_toNat_lt, h20]
  generalize ipHeaderAt data = header
  grind

theorem udpPayload_some {data : Memory} {length srcPort destPort : UInt16} {off : Nat} {n : UInt16}
    (h : udpPayload data length = some (srcPort, destPort, off, n)) :
    off = 8 ∧ 8 + n.toNat ≤ length.toNat := by
  simp only [udpPayload] at h
  split at h
  · cases h
  · split at h
    · cases h
    · next hbad =>
      cases h
      have h8 : udpHeaderLen.toNat = 8 := rfl
      simp only [gt_iff_lt, UInt16.lt_iff_toNat_lt, not_or, h8] at hbad
      refine ⟨rfl, ?_⟩
      rw [UInt16.toNat_sub_of_le _ _ (UInt16.le_iff_toNat_le.mpr (by omega)), h8]
      omega

/-! ## All layers -/

section Frame

variable {s : NetState} {frame : Memory} {length : UInt16}

theorem toNat_ethPayload (h : 14 ≤ length.toNat) : (length - ethHlen).toNat = length.toNat - 14 :=
  UInt16.toNat_sub_of_le _ _ (UInt16.le_iff_toNat_le.mpr h)

theorem Handed.of_ip {off : Nat} {n : UInt16} (h : Handed s frame length .ip off n) :
    14 ≤ length.toNat ∧ off = 14 ∧ n = length - ethHlen ∧
      ntohs (ethHeaderLayout.dec (frame.bytes 0 14)).type = ethTypeIp := by
  cases h with
  | ip h =>
    obtain ⟨hlen, rfl, rfl⟩ := ethPayload_some h
    exact ⟨hlen, rfl, rfl, (ethPayload_ip.mp h).2⟩

/-- The payload of a packet that is not `ShortTotal` lies in the frame, behind both headers. -/
theorem ipPayload_in_bounds (hno : ¬ ShortTotal s.ipAddress frame length) {off : Nat} {n : UInt16}
    (hip : Handed s frame length .ip off n) {protocol : UInt8} {srcIp : UInt32} {off' : Nat}
    {n' : UInt16} (h : ipPayload s.ipAddress (frame.shift off) n = some (protocol, srcIp, off', n'))
    (hp : protocol = ipProtoIcmp ∨ protocol = ipProtoUdp) :
    34 ≤ off + off' ∧ off + off' + n'.toNat ≤ length.toNat := by
  obtain ⟨hlen, rfl, rfl, htype⟩ := hip.of_ip
  rw [ipPayload_eq] at h
  split at h
  · next hc =>
    obtain ⟨-, hversion, hmin, hmax, htotal, hdest⟩ := hc
    cases h
    rw [toNat_ethPayload hlen] at hmax htotal
    have hcover : (ipHeaderAt (frame.shift 14)).ihl.toNat ≤
        (ntohs (ipHeaderAt (frame.shift 14)).totalLength).toNat := by
      by_contra hshort
      exact hno ⟨htype, hversion, hmin, by omega, hdest, hp, by omega⟩
    rw [UInt16.toNat_sub_of_le _ _ (UInt16.le_iff_toNat_le.mpr hcover)]
    omega
  · cases h

/-- The payload of a `ShortTotal` packet ends behind the frame. -/
theorem ShortTotal.out_of_bounds (h : ShortTotal s.ipAddress frame length) :
    ∃ r off n, Handed s frame length r off n ∧ length.toNat < off + n.toNat := by
  have hmin := h.ihl_min
  have hmax := h.ihl_max
  have hshort := h.short
  have hlen : 14 ≤ length.toNat := by omega
  have hlt := length.toNat_lt
  have hip : Handed s frame length .ip 14 (length - ethHlen) :=
    .ip (ethPayload_ip.mpr ⟨hlen, h.type⟩)
  have hpay : ipPayload s.ipAddress (frame.shift 14) (length - ethHlen) = _ := ipPayload_eq
  rw [toNat_ethPayload hlen, if_pos ⟨by omega, h.version, hmin, by omega, by omega, h.dest⟩] at hpay
  have hwrap : length.toNat < 14 + (ipHeaderAt (frame.shift 14)).ihl.toNat +
      (ntohs (ipHeaderAt (frame.shift 14)).totalLength - (ipHeaderAt (frame.shift 14)).ihl).toNat := by
    rw [UInt16.toNat_sub]
    have := (ipHeaderAt (frame.shift 14)).ihl.toNat_lt
    omega
  rcases h.protocol with hp | hp
  · rw [hp] at hpay
    exact ⟨_, _, _, .icmp hip hpay, hwrap⟩
  · rw [hp] at hpay
    exact ⟨_, _, _, .udp hip hpay, hwrap⟩

/-- **Every payload of a frame lies inside the frame, and an echo request fits `reply[1500]`,
exactly if the frame is not a `ShortTotal` packet.** -/
theorem frame_in_bounds_iff (s : NetState) (frame : Memory) (length : UInt16)
    (hlen : length.toNat ≤ 1518) :
    ((∀ r off n, Handed s frame length r off n → off + n.toNat ≤ length.toNat) ∧
      (∀ off n, Handed s frame length .icmp off n → replyCopied (frame.shift off) n ≤ 1500)) ↔
      ¬ ShortTotal s.ipAddress frame length := by
  constructor
  · rintro ⟨hin, -⟩ hshort
    obtain ⟨r, off, n, hr, hout⟩ := hshort.out_of_bounds
    have := hin r off n hr
    omega
  · intro hno
    refine ⟨fun r off n hr => ?_, fun off n hr => ?_⟩
    · induction hr with
      | arp h =>
        obtain ⟨hl, rfl, rfl⟩ := ethPayload_some h
        rw [toNat_ethPayload hl]
        omega
      | ip h =>
        obtain ⟨hl, rfl, rfl⟩ := ethPayload_some h
        rw [toNat_ethPayload hl]
        omega
      | icmp hip h => exact (ipPayload_in_bounds hno hip h (.inl rfl)).2
      | udp hip h => exact (ipPayload_in_bounds hno hip h (.inr rfl)).2
      | callback hudp h _ ih =>
        obtain ⟨rfl, hn⟩ := udpPayload_some h
        omega
    · cases hr with
      | icmp hip h =>
        have hb := ipPayload_in_bounds hno hip h (.inl rfl)
        rw [replyCopied]
        split <;> [omega; split <;> omega]

end Frame

/-- A host at 10.0.2.15, before any packet. -/
def sampleNet : NetState := { NetState.static true CArray.zero with ipAddress := 0x0A00020F }

/-- A frame for 10.0.2.15 whose IP header claims `totalLength` bytes, with `data` in it. -/
def sampleFrame (totalLength : UInt16) (data : List UInt8) : List UInt8 :=
  ethHeaderLayout.enc ⟨broadcastMac, CArray.zero, htons ethTypeIp⟩ ++
    ipHeaderLayout.enc ⟨0x45, 0, htons totalLength, 0, 0, 64, ipProtoIcmp, 0, htonl 0x0A000202,
      htonl 0x0A00020F⟩ ++ data

def sampleEcho : List UInt8 :=
  icmpHeaderLayout.enc ⟨icmpTypeEchoRequest, 0, 0, 0, 0⟩ ++ List.replicate 18 0x41

theorem sampleFrame_in_bounds :
    (∀ r off n, Handed sampleNet (.ofList (sampleFrame 46 sampleEcho)) 60 r off n →
      off + n.toNat ≤ 60) ∧
    (∀ off n, Handed sampleNet (.ofList (sampleFrame 46 sampleEcho)) 60 .icmp off n →
      replyCopied (Memory.shift (.ofList (sampleFrame 46 sampleEcho)) off) n ≤ 1500) :=
  (frame_in_bounds_iff sampleNet (.ofList (sampleFrame 46 sampleEcho)) 60 (by decide)).mpr
    fun h => absurd h.short (by decide +kernel)

/-- With a total length of 0, `icmp_receive` gets 65516 bytes of a frame of 60, and copies them. -/
theorem short_total_overruns :
    Handed sampleNet (.ofList (sampleFrame 0 sampleEcho)) 60 .icmp 34 65516 ∧ 60 < 34 + 65516 ∧
      replyCopied (Memory.shift (.ofList (sampleFrame 0 sampleEcho)) 34) 65516 = 65516 := by
  have hip : Handed sampleNet (.ofList (sampleFrame 0 sampleEcho)) 60 .ip 14 46 :=
    .ip (by decide +kernel)
  have hicmp : ipPayload sampleNet.ipAddress
      (Memory.shift (.ofList (sampleFrame 0 sampleEcho)) 14) 46 =
        some (ipProtoIcmp, 0x0A000202, 20, 65516) := by decide +kernel
  exact ⟨.icmp hip hicmp, by decide, by decide +kernel⟩

end EphemeralOS
