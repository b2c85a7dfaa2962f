import EphemeralOS.Lib.Checksum
import EphemeralOS.Net.Stack

/-!
# Checksums sent

`ip_checksum` sums the words as the CPU reads them, low byte first, and every
caller stores `htons` of the result, which puts it high byte first: one of the
two swaps too many. A header or message of this stack verifies exactly if the
sum of its words without the checksum is a multiple of 257 (`sent_verifies_iff`).
-/

namespace EphemeralOS

open Binary Checksum

theorem word_toNat (a b : UInt8) :
    (a.toUInt32 ||| (b.toUInt32 <<< 8)).toNat = a.toNat + b.toNat * 256 := by
  have ha := a.toNat_lt
  have hb := b.toNat_lt
  rw [UInt32.toNat_or, UInt32.toNat_shiftLeft, UInt8.toNat_toUInt32, UInt8.toNat_toUInt32]
  change a.toNat ||| b.toNat <<< 8 % 2 ^ 32 = _
  rw [Nat.mod_eq_of_lt (by rw [Nat.shiftLeft_eq]; omega), Nat.or_comm,
    ← Nat.shiftLeft_add_eq_or_of_lt (by omega), Nat.shiftLeft_eq]
  omega

theorem checksumLoop_toNat {data : List UInt8} {sum : UInt32}
    (h : sum.toNat + leSum data < 2 ^ 32) :
    (checksumLoop data sum).toNat = sum.toNat + leSum data := by
  induction data, sum using checksumLoop.induct with
  | case1 a b data sum ih =>
    rw [leSum] at h ⊢
    have hadd : (sum + (a.toUInt32 ||| (b.toUInt32 <<< 8))).toNat =
        sum.toNat + (a.toNat + b.toNat * 256) := by
      rw [UInt32.toNat_add, word_toNat, Nat.mod_eq_of_lt (by omega)]
    rw [checksumLoop, ih (by omega), hadd]
    omega
  | case2 a sum =>
    rw [leSum] at h ⊢
    rw [checksumLoop, UInt32.toNat_add, UInt8.toNat_toUInt32, Nat.mod_eq_of_lt h]
  | case3 sum => rfl

theorem foldRound_toNat (sum : UInt32) : ((sum &&& (0xFFFF : UInt32)) + (sum >>> 16)).toNat =
    sum.toNat % 65536 + sum.toNat / 65536 := by
  have hs := sum.toNat_lt
  rw [UInt32.toNat_add, UInt32.toNat_and, UInt32.toNat_shiftRight]
  change ((sum.toNat &&& 2 ^ 16 - 1) + sum.toNat >>> 16) % 2 ^ 32 = _
  rw [Nat.and_two_pow_sub_one_eq_mod, Nat.shiftRight_eq_div_pow]
  omega

theorem shiftRight_eq_zero {sum : UInt32} : sum >>> 16 = 0 ↔ sum.toNat < 65536 := by
  rw [← UInt32.toNat_inj, UInt32.toNat_shiftRight]
  change sum.toNat >>> 16 = 0 ↔ _
  rw [Nat.shiftRight_eq_div_pow]
  omega

theorem foldCarry_toNat (sum : UInt32) :
    (foldCarry 2 sum).toNat < 65536 ∧ (foldCarry 2 sum).toNat ≡ sum.toNat [MOD 65535] ∧
      ((foldCarry 2 sum).toNat = 0 ↔ sum.toNat = 0) := by
  have hs := sum.toNat_lt
  have h1 := foldRound_toNat sum
  have h2 := foldRound_toNat ((sum &&& (0xFFFF : UInt32)) + (sum >>> 16))
  simp only [foldCarry, ne_eq, shiftRight_eq_zero, Nat.ModEq]
  split
  · split <;> omega
  · omega

theorem ipChecksum_toNat (data : List UInt8) :
    (ipChecksum data).toNat = 65535 - (foldCarry 2 (checksumLoop data 0)).toNat := by
  obtain ⟨hlt, -⟩ := foldCarry_toNat (checksumLoop data 0)
  rw [ipChecksum, UInt16.toNat_not, UInt32.toNat_toUInt16]
  change 2 ^ 16 - 1 - _ % 2 ^ 16 = _
  omega

theorem toNat_high_low (n : UInt16) :
    (UInt8.ofNat (n.toNat / 256)).toNat * 256 + (UInt8.ofNat n.toNat).toNat = n.toNat := by
  have hn := n.toNat_lt
  rw [UInt8.toNat_ofNat', UInt8.toNat_ofNat']
  omega

/-- **What a receiver makes of the checksum.** The bytes checked are `pre`, the checksum over them
with a zero in its place, and `post`. -/
theorem verifies_checksum_iff {pre post : List UInt8} (hpre : 2 ∣ pre.length)
    (hlen : pre.length + 2 + post.length < 65536) :
    Verifies (pre ++ Layout.word16.enc (htons (ipChecksum (pre ++ [0, 0] ++ post))) ++ post) ↔
      257 ∣ beSum (pre ++ [0, 0] ++ post) := by
  have hle := leSum_le (pre ++ [0, 0] ++ post)
  simp only [List.length_append, List.length_cons, List.length_nil] at hle
  have hloop : (checksumLoop (pre ++ [0, 0] ++ post) 0).toNat = leSum (pre ++ [0, 0] ++ post) := by
    rw [checksumLoop_toNat (by change 0 + _ < _; omega)]
    exact Nat.zero_add _
  obtain ⟨hlt, hmod, hzero⟩ := foldCarry_toNat (checksumLoop (pre ++ [0, 0] ++ post) 0)
  have hsum := (toNat_high_low (ipChecksum (pre ++ [0, 0] ++ post))).trans (ipChecksum_toNat _)
  rw [hloop] at hmod hzero
  rw [enc_htons]
  exact verifies_swapped_iff hpre hlt hmod hzero.mpr hsum

/-! ## The Internet checksum -/

/-- No addition of the word loop carries out of the accumulator. -/
def NoOverflow : List UInt8 → UInt32 → Prop
  | a :: b :: data, sum =>
    sum.toNat + (a.toUInt32 ||| (b.toUInt32 <<< 8)).toNat < 2 ^ 32 ∧
      NoOverflow data (sum + (a.toUInt32 ||| (b.toUInt32 <<< 8)))
  | [a], sum => sum.toNat + a.toUInt32.toNat < 2 ^ 32
  | [], _ => True

theorem noOverflow {data : List UInt8} {sum : UInt32} (h : sum.toNat + leSum data < 2 ^ 32) :
    NoOverflow data sum := by
  induction data, sum using checksumLoop.induct with
  | case1 a b data sum ih =>
    rw [leSum] at h
    have hword : sum.toNat + (a.toUInt32 ||| (b.toUInt32 <<< 8)).toNat < 2 ^ 32 := by
      rw [word_toNat]
      omega
    refine ⟨hword, ih ?_⟩
    rw [UInt32.toNat_add, Nat.mod_eq_of_lt hword, word_toNat]
    omega
  | case2 a sum => exact h
  | case3 sum => trivial

/-- The folding loop ends after two rounds. -/
theorem foldCarry_rounds {rounds : Nat} (h : 2 ≤ rounds) (sum : UInt32) :
    foldCarry rounds sum = foldCarry 2 sum := by
  have hs := sum.toNat_lt
  have h1 := foldRound_toNat sum
  have h2 := foldRound_toNat ((sum &&& (0xFFFF : UInt32)) + (sum >>> 16))
  have hstop : ∀ (n : Nat) {t : UInt32}, t.toNat < 65536 → foldCarry n t = t := by
    intro n t ht
    cases n with
    | zero => rfl
    | succ n => rw [foldCarry, if_neg (not_not.mpr (shiftRight_eq_zero.mpr ht))]
  obtain ⟨n, rfl⟩ := Nat.exists_eq_add_of_le' h
  simp only [foldCarry, ne_eq, shiftRight_eq_zero]
  split
  · split
    · exact hstop n (by omega)
    · rfl
  · rfl

/-- What the folding loop leaves for bytes that a 16-bit length counts. -/
theorem fold_toNat {data : List UInt8} (h : data.length ≤ 65535) :
    (foldCarry 2 (checksumLoop data 0)).toNat < 65536 ∧
      (foldCarry 2 (checksumLoop data 0)).toNat ≡ leSum data [MOD 65535] ∧
      ((foldCarry 2 (checksumLoop data 0)).toNat = 0 ↔ leSum data = 0) := by
  have hle := leSum_le data
  have hloop : (checksumLoop data 0).toNat = leSum data :=
    (checksumLoop_toNat (by change 0 + _ < _; omega)).trans (Nat.zero_add _)
  have hfold := foldCarry_toNat (checksumLoop data 0)
  rwa [hloop] at hfold

/-- The result over bytes that hold the result over the bytes with a zero in its place. -/
theorem ipChecksum_stored {pre post : List UInt8} (hpre : 2 ∣ pre.length)
    (h : (pre ++ [0, 0] ++ post).length ≤ 65535) :
    ipChecksum (pre ++ Layout.word16.enc (ipChecksum (pre ++ [0, 0] ++ post)) ++ post) = 0 := by
  obtain ⟨hlt, hmod, hzero⟩ := fold_toNat h
  have hc := ipChecksum_toNat (pre ++ [0, 0] ++ post)
  generalize (foldCarry 2 (checksumLoop (pre ++ [0, 0] ++ post) 0)).toNat = fold
    at hlt hmod hzero hc
  have hplain : leSum (pre ++ [0, 0] ++ post) = leSum pre + leSum post := by
    rw [List.append_assoc, leSum_append hpre]
    change leSum pre + (0 + 0 * 256 + leSum post) = _
    omega
  rw [hplain] at hmod hzero
  generalize ipChecksum (pre ++ [0, 0] ++ post) = c at hc
  have hword : (UInt8.ofNat c.toNat).toNat + (UInt8.ofNat (c.toNat / 2 ^ 8)).toNat * 256 =
      c.toNat := by
    have := c.toNat_lt
    rw [UInt8.toNat_ofNat', UInt8.toNat_ofNat']
    omega
  have hnew : leSum (pre ++ Layout.word16.enc c ++ post) = leSum pre + leSum post + c.toNat := by
    rw [List.append_assoc, leSum_append hpre]
    change leSum pre + ((UInt8.ofNat c.toNat).toNat +
      (UInt8.ofNat (c.toNat / 2 ^ 8)).toNat * 256 + leSum post) = _
    omega
  have hlen : (pre ++ Layout.word16.enc c ++ post).length ≤ 65535 := by
    simp only [List.length_append, Layout.length_enc, Layout.size_word16, List.length_cons,
      List.length_nil] at h ⊢
    omega
  obtain ⟨hlt', hmod', hzero'⟩ := fold_toNat hlen
  rw [hnew] at hmod' hzero'
  rw [Nat.ModEq] at hmod hmod'
  apply UInt16.toNat_inj.mp
  rw [ipChecksum_toNat]
  -- the new sum is a multiple of 65535 and not zero, so it folds to all ones
  change _ = 0
  omega

theorem complement_swapped {n : Nat} (h : n < 65536) :
    (65535 - n) % 256 * 256 + (65535 - n) / 256 = 65535 - (n % 256 * 256 + n / 256) := by
  omega

/-- **`ip_checksum` computes the Internet checksum, its bytes swapped**: the accumulator does not
overflow, the folding ends, and bytes that hold the result as it is check to zero. -/
theorem ipChecksum_internet (data : List UInt8) (h : data.length ≤ 65535) :
    NoOverflow data 0 ∧
      (foldCarry 2 (checksumLoop data 0) >>> 16 = 0 ∧
        ∀ rounds ≥ 2, foldCarry rounds (checksumLoop data 0) = foldCarry 2 (checksumLoop data 0)) ∧
      (htons (ipChecksum data)).toNat = internetChecksum data ∧
      ∀ pre post, data = pre ++ [0, 0] ++ post → 2 ∣ pre.length →
        ipChecksum (pre ++ Layout.word16.enc (ipChecksum data) ++ post) = 0 := by
  have hle := leSum_le data
  obtain ⟨hlt, hmod, hzero⟩ := fold_toNat h
  refine ⟨noOverflow (by change 0 + _ < _; omega), ⟨shiftRight_eq_zero.mpr hlt,
    fun rounds hrounds => foldCarry_rounds hrounds _⟩, ?_, ?_⟩
  · have hswap := swapped_eq_onesSum hlt hmod hzero
    rw [htons_toNat, ipChecksum_toNat, internetChecksum, ← hswap]
    exact complement_swapped hlt
  · rintro pre post rfl hpre
    exact ipChecksum_stored hpre h

/-- Three bytes of data, with room for the checksum before the last. -/
theorem ipChecksum_internet_five :
    (htons (ipChecksum [1, 2, 0, 0, 3])).toNat = internetChecksum [1, 2, 0, 0, 3] ∧
      ipChecksum ([1, 2] ++ Layout.word16.enc (ipChecksum [1, 2, 0, 0, 3]) ++ [3]) = 0 := by
  obtain ⟨-, -, hsum, hstored⟩ := ipChecksum_internet [1, 2, 0, 0, 3] (by decide)
  exact ⟨hsum, hstored [1, 2] [3] rfl (by decide)⟩

/-! ## Headers and messages -/

theorem enc_zero16 : Layout.word16.enc 0 = [0, 0] := by decide

theorem icmpHeader_enc (h : IcmpHeader) (checksum : UInt16) :
    icmpHeaderLayout.enc { h with checksum := checksum } =
      [h.type, h.code] ++ Layout.word16.enc checksum ++
        (Layout.word16.enc h.id ++ Layout.word16.enc h.sequence) := rfl

theorem icmpMessage_verifies_iff (h : IcmpHeader) {data : List UInt8}
    (hdata : 8 + data.length < 65536) : Verifies (icmpMessage h data) ↔
      257 ∣ beSum (icmpHeaderLayout.enc { h with checksum := 0 } ++ data) := by
  have hpost : (Layout.word16.enc h.id ++ Layout.word16.enc h.sequence ++ data).length =
      4 + data.length := by
    simp only [List.length_append, Layout.length_enc, Layout.size_word16]
  rw [icmpMessage, icmpHeader_enc, icmpHeader_enc, enc_zero16, List.append_assoc _ _ data,
    List.append_assoc _ _ data]
  refine verifies_checksum_iff (by simp) ?_
  rw [hpost]
  simp only [List.length_cons, List.length_nil]
  omega

/-- A header is what stands before the checksum, the checksum and the addresses. -/
theorem ipHeader_enc (h : IpHeader) : ∃ pre : List UInt8, pre.length = 10 ∧ ∀ checksum,
    ipHeaderLayout.enc { h with checksum := checksum } = pre ++ Layout.word16.enc checksum ++
      (Layout.word32.enc h.srcIp ++ Layout.word32.enc h.destIp) :=
  ⟨[h.versionIhl, h.tos] ++ (Layout.word16.enc h.totalLength ++
    (Layout.word16.enc h.identification ++ (Layout.word16.enc h.flagsFragment ++
      [h.ttl, h.protocol]))), rfl, fun _ => rfl⟩

theorem checked_verifies_iff {h : IpHeader} (h0 : h.checksum = 0) :
    Verifies (ipHeaderLayout.enc h.checked) ↔ 257 ∣ beSum (ipHeaderLayout.enc h) := by
  obtain ⟨pre, hpre, henc⟩ := ipHeader_enc h
  have hzero : ipHeaderLayout.enc h = _ := henc h.checksum
  rw [h0, enc_zero16] at hzero
  rw [IpHeader.checked, henc, hzero]
  refine verifies_checksum_iff (by omega) ?_
  rw [hpre, List.length_append, Layout.length_enc, Layout.length_enc, Layout.size_word32]
  decide

/-- What the stack sends with a checksum: the header of a packet of `ip_send`, and the messages of
`icmp_send_echo_request` and of `icmp_receive`. -/
inductive Summed
  | ipHeader (s : NetState) (destIp : UInt32) (protocol : UInt8) (data : List UInt8)
  | echoRequest (id sequence : UInt16)
  | echoReply (data : Memory) (length : UInt16)

def Summed.bytes : Summed → List UInt8
  | .ipHeader s destIp protocol data => (ipPacket s destIp protocol data).take 20
  | .echoRequest id sequence => EphemeralOS.echoRequest id sequence
  | .echoReply data length => EphemeralOS.echoReply data length

def Summed.unsummed : Summed → List UInt8
  | .ipHeader s destIp protocol data => ipHeaderLayout.enc
      (EphemeralOS.ipHeader s destIp protocol (ipHeaderMinLen + UInt16.ofNat data.length))
  | .echoRequest id sequence =>
    icmpHeaderLayout.enc ⟨icmpTypeEchoRequest, icmpCodeEcho, 0, htons id, htons sequence⟩ ++
      (List.range 56).map fun i => 0x41 + UInt8.ofNat (i % 26)
  | .echoReply data length =>
    icmpHeaderLayout.enc { icmpHeaderLayout.dec (data.bytes 0 8) with
      type := icmpTypeEchoReply, code := icmpCodeEcho, checksum := 0 } ++
      data.bytes 8 (length.toNat - 8)

/-- **What is sent verifies exactly if the sum of its words, the checksum left out, is a multiple of
257.** -/
theorem sent_verifies_iff (m : Summed) : Verifies m.bytes ↔ 257 ∣ beSum m.unsummed := by
  cases m with
  | ipHeader s destIp protocol data =>
    have htake : ∀ h : IpHeader, (ipHeaderLayout.enc h ++ data).take 20 = ipHeaderLayout.enc h :=
      fun h => List.take_left' (ipHeaderLayout.enc_length h)
    rw [Summed.bytes, ipPacket, htake]
    exact checked_verifies_iff rfl
  | echoRequest id sequence => exact icmpMessage_verifies_iff _ (by simp)
  | echoReply data length =>
    have hlen := length.toNat_lt
    refine icmpMessage_verifies_iff _ ?_
    rw [Memory.bytes, List.length_map, List.length_range]
    omega

/-- The first echo request of `ping` does not verify. -/
theorem ping_fails_to_verify : ¬ Verifies (Summed.bytes (.echoRequest 1234 1)) := by decide

end EphemeralOS
