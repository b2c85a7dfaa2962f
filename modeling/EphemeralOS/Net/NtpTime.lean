import EphemeralOS.Drivers.Rtc
import EphemeralOS.Net.Calls

/-!
# Time stamps of NTP

`ntp_sync_time` sends the time as seconds since 1900, in 32 bits. These run out
in February 2036; from then on the sum has wrapped to a small number, which the
guard of `ntp_response_handler` takes for a time before 1970
(`ntpResponseHandler_echo`). So a time comes back as it was sent exactly before
that moment (`ntpEcho_iff`).
-/

namespace EphemeralOS

open Binary

/-- The first second that NTP's seconds do not reach: 06:28:16 on 7 February 2036. -/
def ntpEraEnd : Nat := 2 ^ 32 - 2208988800

/-- A server's reply with the seconds of the request for `localTime` unchanged. -/
structure NtpEcho (localTime : UInt32) (data : Memory) (length : UInt16) : Prop where
  long : 48 ≤ length
  server : (ntpPacketLayout.dec (data.bytes 0 48)).liVnMode &&& 0x07 = 4
  echoed : (ntpPacketLayout.dec (data.bytes 0 48)).transTimestampSec =
    (ntpPacketLayout.dec (ntpRequest localTime)).transTimestampSec

/-- What the handler does with an echo: it takes the time, if the seconds have not wrapped. -/
theorem ntpResponseHandler_echo {localTime : UInt32} {data : Memory} {length : UInt16}
    (h : NtpEcho localTime data length) (srcIp : UInt32) (srcPort : UInt16) (s : NetState) :
    ntpResponseHandler srcIp srcPort data length s =
      if localTime + ntpTimestampDelta > ntpTimestampDelta then
        { s with syncedTimestamp := localTime, syncComplete := true }
      else s := by
  have hsec : ntohl (ntpPacketLayout.dec (data.bytes 0 48)).transTimestampSec =
      localTime + ntpTimestampDelta := by
    rw [h.echoed, ntpRequest, Layout.dec_enc]
    exact htonl_htonl _
  simp only [ntpResponseHandler, hsec]
  rw [if_neg (UInt16.not_lt.mpr h.long), if_neg (not_not_intro h.server), UInt32.add_sub_cancel]

/-- The sum passes the guard if it has not wrapped. -/
theorem ntpDelta_lt_iff {localTime : UInt32} (h : 0 < localTime.toNat) :
    localTime + ntpTimestampDelta > ntpTimestampDelta ↔ localTime.toNat < ntpEraEnd := by
  have hlt := localTime.toNat_lt
  rw [gt_iff_lt, UInt32.lt_iff_toNat_lt, UInt32.toNat_add, ntpEraEnd]
  change 2208988800 < (localTime.toNat + 2208988800) % 2 ^ 32 ↔ _
  omega

theorem RtcTime.unixTimestamp_pos {time : RtcTime} (h : time.Valid)
    (hyear : 2000 ≤ time.year.toNat) (hyear' : time.year.toNat ≤ 2099) {stamp : UInt32}
    (hstamp : time.unixTimestamp = some stamp) : 0 < stamp.toNat := by
  have hbefore : Calendar.Date.Before ⟨1970, 1, 1⟩ time.date :=
    .inl (by change 1970 < time.year.toNat; omega)
  have hday : Calendar.dayNumber 1970 _ < Calendar.dayNumber 1970 _ :=
    Calendar.dayNumber_lt (by decide) (Nat.le_refl _) hbefore
  rw [unixTimestamp_toNat h (by omega) (by omega) hstamp]
  omega

/-- **From 2000 to 2099, the time of the clock comes back exactly while NTP's seconds reach it.** -/
theorem ntpEcho_iff {time : RtcTime} (h : time.Valid) (hyear : 2000 ≤ time.year.toNat)
    (hyear' : time.year.toNat ≤ 2099) : ∀ localTime, time.unixTimestamp = some localTime →
      ∀ data length, NtpEcho localTime data length → ∀ srcIp srcPort,
        ((∀ s, ntpResponseHandler srcIp srcPort data length s =
          { s with syncedTimestamp := localTime, syncComplete := true }) ↔
          localTime.toNat < ntpEraEnd) := by
  intro localTime hlocal data length hecho srcIp srcPort
  rw [← ntpDelta_lt_iff (RtcTime.unixTimestamp_pos h hyear hyear' hlocal)]
  constructor
  · intro hset
    by_contra hwrap
    have hstate := hset (.static true CArray.zero)
    rw [ntpResponseHandler_echo hecho, if_neg hwrap] at hstate
    exact absurd (congrArg NetState.syncComplete hstate) Bool.false_ne_true
  · intro hgo s
    rw [ntpResponseHandler_echo hecho, if_pos hgo]

def ntpReply (localTime : UInt32) : Memory := .ofList (ntpPacketLayout.enc
  { ntpPacketLayout.dec (ntpRequest localTime) with liVnMode := 0x24 })

theorem ntpReply_echo (localTime : UInt32) : NtpEcho localTime (ntpReply localTime) 48 := by
  have hbytes : ∀ packet : NtpPacket,
      (Memory.ofList (ntpPacketLayout.enc packet)).bytes 0 48 = ntpPacketLayout.enc packet := by
    intro packet
    have hstands := Memory.stands_ofList (ntpPacketLayout.enc packet)
    rwa [Memory.Stands, Layout.length_enc, sizeof_ntpPacket] at hstands
  refine ⟨Nat.le_refl _, ?_, ?_⟩
  · rw [ntpReply, hbytes, Layout.dec_enc]
    change (0x24 : UInt8) &&& 0x07 = 4
    decide
  · rw [ntpReply, hbytes, Layout.dec_enc]

/-- A leap day. -/
def sampleClock : RtcTime := ⟨0, 30, 12, 29, 2, 2024⟩

theorem sampleClock_echo : sampleClock.unixTimestamp = some 1709209800 ∧
    ((∀ s, ntpResponseHandler 0 ntpPort (ntpReply 1709209800) 48 s =
        { s with syncedTimestamp := 1709209800, syncComplete := true }) ↔
      (1709209800 : UInt32).toNat < ntpEraEnd) := by
  have hvalid : sampleClock.Valid := ⟨by decide, by decide, by decide, by decide⟩
  have hstamp : sampleClock.unixTimestamp = some 1709209800 := by decide +kernel
  exact ⟨hstamp, ntpEcho_iff hvalid (by decide) (by decide) _ hstamp _ _
    (ntpReply_echo 1709209800) 0 ntpPort⟩

/-- The moment NTP's seconds run out. -/
def eraEndClock : RtcTime := ⟨16, 28, 6, 7, 2, 2036⟩

/-- The reply is ignored then. -/
theorem eraEnd_ignored : eraEndClock.Valid ∧ eraEndClock.unixTimestamp = some 2085978496 ∧
    NtpEcho 2085978496 (ntpReply 2085978496) 48 ∧
    ∀ s, ntpResponseHandler 0 ntpPort (ntpReply 2085978496) 48 s = s := by
  have hecho := ntpReply_echo 2085978496
  refine ⟨⟨by decide, by decide, by decide, by decide⟩, by decide +kernel, hecho, fun s => ?_⟩
  rw [ntpResponseHandler_echo hecho, if_neg (by decide)]

end EphemeralOS
