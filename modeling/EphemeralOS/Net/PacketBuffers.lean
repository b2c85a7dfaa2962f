import EphemeralOS.Net.Frames

/-!
# The packet buffers of `ip_send` and `udp_send`

Both build what they send in a local `packet[1500]`: a header, and behind it a
copy of the payload. The guard compares the 16-bit sum of the two lengths with
1500, and `memcpy` is given the length of the payload itself. A sum from 65536 on
wraps to a small number and passes the guard (`send_copies_fit_iff`).
-/

namespace EphemeralOS

/-- A `memcpy` into `packet`: from which byte on, and how many. -/
structure PacketCopy where
  offset : Nat
  count : Nat
  deriving DecidableEq

/-- It ends inside `packet[1500]`. -/
def PacketCopy.Fits (c : PacketCopy) : Prop := c.offset + c.count ≤ 1500

/-- The copy behind a header, if the guard lets it through. -/
def sendCopy (header length : UInt16) : Option PacketCopy :=
  let totalLength := header + length
  if totalLength > 1500 then none else some ⟨header.toNat, length.toNat⟩

/-- The copies that `ip_send` makes. -/
def ipSendCopies (length : UInt16) : List PacketCopy := (sendCopy ipHeaderMinLen length).toList

/-- The copies that `udp_send` makes, with that of the `ip_send` it ends with. -/
def udpSendCopies (length : UInt16) : List PacketCopy :=
  match sendCopy udpHeaderLen length with
  | none => []
  | some copy => copy :: ipSendCopies (udpHeaderLen + length)

/-- What is too long for a packet is dropped, and no copy overruns the packet. -/
def DropsOversized (header : UInt16) (copies : UInt16 → List PacketCopy) (length : UInt16) : Prop :=
  (1500 < header.toNat + length.toNat → copies length = []) ∧ ∀ c ∈ copies length, c.Fits

section Stack

variable (receive : Memory → UInt16 → NetState → NetState) (destIp : UInt32) (s : NetState)

theorem ipSend_dropped (protocol : UInt8) {data : List UInt8}
    (h : ipSendCopies (UInt16.ofNat data.length) = []) :
    ipSend receive destIp protocol data s = s := by
  simp only [ipSendCopies, Option.toList_eq_nil_iff, sendCopy] at h
  split at h
  · rename_i hover
    simp only [ipSend, if_pos hover]
  · cases h

theorem udpSend_dropped (srcPort destPort : UInt16) {data : List UInt8}
    (h : udpSendCopies (UInt16.ofNat data.length) = []) :
    udpSend receive destIp srcPort destPort data s = s := by
  simp only [udpSendCopies, sendCopy] at h
  split at h
  · rename_i hcopy
    split at hcopy
    · rename_i hover
      simp only [udpSend, if_pos hover]
    · cases hcopy
  · cases h

theorem ipPacket_copy (protocol : UInt8) (data : List UInt8) :
    (ipPacket s destIp protocol data).drop ipHeaderMinLen.toNat = data := by
  rw [ipPacket, List.drop_left']
  rw [Binary.Layout.length_enc, sizeof_ipHeader]
  rfl

theorem udpPacket_copy (srcPort destPort : UInt16) (data : List UInt8) :
    (udpPacket srcPort destPort data).drop udpHeaderLen.toNat = data := by
  rw [udpPacket, List.drop_left']
  rw [Binary.Layout.length_enc, sizeof_udpHeader]
  rfl

end Stack

/-! ## Where the sum wraps -/

section Guard

variable {header length : UInt16}

/-- The guard sees the sum without 65536. -/
theorem sendCopy_eq_none_iff :
    sendCopy header length = none ↔ 1500 < (header.toNat + length.toNat) % 65536 := by
  simp only [sendCopy, gt_iff_lt, UInt16.lt_iff_toNat_lt, UInt16.toNat_add]
  split
  · exact ⟨fun _ => ‹_›, fun _ => rfl⟩
  · exact ⟨fun h => absurd h (Option.some_ne_none _), fun h => absurd h ‹_›⟩

theorem eq_of_sendCopy {copy : PacketCopy} (h : sendCopy header length = some copy) :
    copy = ⟨header.toNat, length.toNat⟩ := by
  simp only [sendCopy] at h
  split at h
  · cases h
  · exact (Option.some.inj h).symm

/-- **One copy meets the law exactly if the sum does not wrap.** -/
theorem sendCopy_ok_iff (hheader : header.toNat ≤ 1500) :
    ((1500 < header.toNat + length.toNat → sendCopy header length = none) ∧
      ∀ c, sendCopy header length = some c → c.Fits) ↔ header.toNat + length.toNat < 65536 := by
  have hlt := length.toNat_lt
  constructor
  · rintro ⟨hdrop, -⟩
    by_contra hwrap
    have hnone := sendCopy_eq_none_iff.mp (hdrop (by omega))
    omega
  · intro hsum
    have hmod : (header.toNat + length.toNat) % 65536 = header.toNat + length.toNat :=
      Nat.mod_eq_of_lt hsum
    rw [sendCopy_eq_none_iff, hmod]
    refine ⟨id, fun c hc => ?_⟩
    have hsome : sendCopy header length ≠ none := fun hn => by
      rw [hn] at hc
      cases hc
    rw [Ne, sendCopy_eq_none_iff, hmod] at hsome
    rw [eq_of_sendCopy hc]
    exact Nat.not_lt.mp hsome

end Guard

theorem ip_drops_oversized_iff (length : UInt16) :
    DropsOversized ipHeaderMinLen ipSendCopies length ↔ length.toNat < 65516 := by
  have h20 : ipHeaderMinLen.toNat = 20 := rfl
  have hone := @sendCopy_ok_iff ipHeaderMinLen length (by decide)
  simp only [DropsOversized, ipSendCopies, Option.toList_eq_nil_iff, Option.mem_toList]
  rw [hone, h20]
  omega

/-- What `udp_send` passes on fits below the IP header, or `ip_send` drops it. -/
theorem ipSendCopies_fit {length : UInt16} (h : length.toNat ≤ 1500) :
    ∀ c ∈ ipSendCopies length, c.Fits :=
  ((ip_drops_oversized_iff length).mpr (by omega)).2

theorem udp_drops_oversized_iff (length : UInt16) :
    DropsOversized udpHeaderLen udpSendCopies length ↔ length.toNat < 65528 := by
  have h8 : udpHeaderLen.toNat = 8 := rfl
  have hone := @sendCopy_ok_iff udpHeaderLen length (by decide)
  have hiff : udpHeaderLen.toNat + length.toNat < 65536 ↔ length.toNat < 65528 := by omega
  rw [← hiff, ← hone]
  cases hcopy : sendCopy udpHeaderLen length with
  | none =>
    have hnil : udpSendCopies length = [] := by rw [udpSendCopies, hcopy]
    simp only [DropsOversized, hnil]
    exact ⟨fun _ => ⟨fun _ => trivial, fun c hc => nomatch hc⟩,
      fun _ => ⟨fun _ => trivial, fun c hc => nomatch hc⟩⟩
  | some copy =>
    have hcons : udpSendCopies length = copy :: ipSendCopies (udpHeaderLen + length) := by
      rw [udpSendCopies, hcopy]
    have htotal : (udpHeaderLen + length).toNat ≤ 1500 := by
      have hguard : ¬ sendCopy udpHeaderLen length = none := by
        rw [hcopy]
        exact Option.some_ne_none _
      rw [sendCopy_eq_none_iff, ← UInt16.size, ← UInt16.toNat_add] at hguard
      exact Nat.not_lt.mp hguard
    simp only [DropsOversized, hcons, List.mem_cons, forall_eq_or_imp, Option.some.injEq,
      forall_eq', reduceCtorEq]
    exact ⟨fun h => ⟨h.1, h.2.1⟩, fun h => ⟨h.1, h.2, ipSendCopies_fit htotal⟩⟩

/-- **The senders drop what is too long, and stay inside their packet, exactly below the lengths at
which the sum wraps.** -/
theorem send_copies_fit_iff (length : UInt16) :
    (DropsOversized ipHeaderMinLen ipSendCopies length ↔ length.toNat < 65516) ∧
      (DropsOversized udpHeaderLen udpSendCopies length ↔ length.toNat < 65528) :=
  ⟨ip_drops_oversized_iff length, udp_drops_oversized_iff length⟩

/-- With 65516 bytes the sum is 0, and all of them are copied. -/
theorem wrapped_send_overruns :
    ¬ (∀ length, DropsOversized ipHeaderMinLen ipSendCopies length ∧
      DropsOversized udpHeaderLen udpSendCopies length) ∧
      ipSendCopies 65516 = [⟨20, 65516⟩] ∧ udpSendCopies 65528 = [⟨8, 65528⟩, ⟨20, 0⟩] := by
  have hcopies : ipSendCopies 65516 = [⟨20, 65516⟩] := by decide
  refine ⟨fun h => ?_, hcopies, by decide⟩
  have hfits := (h 65516).1.2
  rw [hcopies] at hfits
  exact absurd (hfits _ (List.mem_singleton.mpr rfl)) (by unfold PacketCopy.Fits; decide)

end EphemeralOS
