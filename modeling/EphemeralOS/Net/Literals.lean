import Mathlib.Data.Nat.Digits.Lemmas
import EphemeralOS.Lib.Path
import EphemeralOS.Net.Calls

/-!
# Address literals

`is_ip_address` accepts the `DottedQuad`s (`isIpAddress_iff`), whose numbers may
be up to 999, and `parse_ip` puts four numbers together without looking at their
size (`parseIp_text`). So a name is resolved as a literal with the right address
unless one of four numbers is above 255 (`literal_iff`). What `print_ip` prints
is read back (`printIp_roundTrip`).
-/

namespace EphemeralOS

def decimal (digits : List UInt8) : Nat := digits.foldl (fun n c => n * 10 + (c.toNat - 0x30)) 0

structure ShortNumber where
  digits : List UInt8
  isDigit : ∀ c ∈ digits, 0x30 ≤ c ∧ c ≤ 0x39
  pos : 0 < digits.length
  short : digits.length ≤ 3

namespace ShortNumber

def value (n : ShortNumber) : Nat := decimal n.digits

theorem noDot (n : ShortNumber) : 0x2E ∉ n.digits := fun h => absurd (n.isDigit _ h).1 (by decide)

end ShortNumber

structure DottedQuad where
  first : ShortNumber
  second : ShortNumber
  third : ShortNumber
  fourth : ShortNumber

namespace DottedQuad

def text (q : DottedQuad) : List UInt8 :=
  q.first.digits ++ 0x2E :: (q.second.digits ++ 0x2E :: (q.third.digits ++ 0x2E :: q.fourth.digits))

def InRange (q : DottedQuad) : Prop :=
  q.first.value ≤ 255 ∧ q.second.value ≤ 255 ∧ q.third.value ≤ 255 ∧ q.fourth.value ≤ 255

def address (q : DottedQuad) : UInt32 := UInt32.ofNat
  (((q.first.value * 256 + q.second.value) * 256 + q.third.value) * 256 + q.fourth.value)

theorem text_inj {q r : DottedQuad} (h : q.text = r.text) : q.first.value = r.first.value ∧
    q.second.value = r.second.value ∧ q.third.value = r.third.value ∧
    q.fourth.value = r.fourth.value := by
  obtain ⟨hfirst, h⟩ := Path.append_sep_inj q.first.noDot r.first.noDot h
  obtain ⟨hsecond, h⟩ := Path.append_sep_inj q.second.noDot r.second.noDot h
  obtain ⟨hthird, hfourth⟩ := Path.append_sep_inj q.third.noDot r.third.noDot h
  exact ⟨congrArg decimal hfirst, congrArg decimal hsecond, congrArg decimal hthird,
    congrArg decimal hfourth⟩

end DottedQuad

/-! ## What is accepted -/

theorem digit_ne_dot {c : UInt8} (h : 0x30 ≤ c ∧ c ≤ 0x39) : c ≠ 0x2E := by
  rintro rfl
  exact absurd h.1 (by decide)

theorem ipAddressLoop_digits {l : List UInt8} (hl : ∀ c ∈ l, 0x30 ≤ c ∧ c ≤ 0x39)
    (str : List UInt8) (dots digits : Nat) :
    ipAddressLoop (l ++ str) dots digits = ipAddressLoop str dots (digits + l.length) := by
  induction l generalizing digits with
  | nil => rfl
  | cons c l ih =>
    have hc := hl c List.mem_cons_self
    rw [List.cons_append, ipAddressLoop, if_neg (digit_ne_dot hc), if_pos hc,
      ih fun d hd => hl d (List.mem_cons_of_mem _ hd), List.length_cons, Nat.add_comm l.length,
      Nat.add_assoc]

theorem ipAddressLoop_number (n : ShortNumber) (str : List UInt8) (dots : Nat) :
    ipAddressLoop (n.digits ++ 0x2E :: str) dots 0 = ipAddressLoop str (dots + 1) 0 := by
  have hpos := n.pos
  have hshort := n.short
  rw [ipAddressLoop_digits n.isDigit, ipAddressLoop, if_pos rfl, if_neg (by omega)]

theorem ipAddressLoop_last (n : ShortNumber) : ipAddressLoop n.digits 3 0 = true := by
  have hpos := n.pos
  have hshort := n.short
  have hloop := ipAddressLoop_digits n.isDigit [] 3 0
  rw [List.append_nil] at hloop
  rw [hloop, ipAddressLoop]
  exact decide_eq_true ⟨rfl, by omega, by omega⟩

theorem isIpAddress_text (q : DottedQuad) : isIpAddress q.text = true := by
  rw [isIpAddress, DottedQuad.text, ipAddressLoop_number, ipAddressLoop_number,
    ipAddressLoop_number, ipAddressLoop_last]

theorem ipAddressLoop_dots {str : List UInt8} {dots digits : Nat}
    (h : ipAddressLoop str dots digits = true) : dots ≤ 3 := by
  induction str generalizing dots digits with
  | nil => exact (of_decide_eq_true h).1.le
  | cons c str ih =>
    rw [ipAddressLoop] at h
    split at h
    · split at h
      · cases h
      · exact Nat.le_of_succ_le (ih h)
    · split at h
      · exact ih h
      · cases h

/-- The digits up to the next dot, or to the end. -/
theorem ipAddressLoop_split {str : List UInt8} {dots digits : Nat}
    (h : ipAddressLoop str dots digits = true) :
    ∃ l, (∀ c ∈ l, 0x30 ≤ c ∧ c ≤ 0x39) ∧ 0 < digits + l.length ∧ digits + l.length ≤ 3 ∧
      (str = l ∧ dots = 3 ∨
        ∃ rest, str = l ++ 0x2E :: rest ∧ ipAddressLoop rest (dots + 1) 0 = true) := by
  induction str generalizing digits with
  | nil =>
    obtain ⟨hdots, hpos, hshort⟩ := of_decide_eq_true h
    exact ⟨[], fun _ h => absurd h List.not_mem_nil, hpos, hshort, .inl ⟨rfl, hdots⟩⟩
  | cons c str ih =>
    rw [ipAddressLoop] at h
    split at h
    · next hdot =>
      split at h
      · cases h
      · next hdigits =>
        refine ⟨[], fun _ h => absurd h List.not_mem_nil, ?_, ?_, .inr ⟨str, by rw [hdot]; rfl, h⟩⟩
        · rw [List.length_nil]
          omega
        · rw [List.length_nil]
          omega
    · split at h
      · next hdigit =>
        obtain ⟨l, hl, hpos, hshort, hrest⟩ := ih h
        refine ⟨c :: l, List.forall_mem_cons.mpr ⟨hdigit, hl⟩, ?_, ?_, ?_⟩
        · rw [List.length_cons]
          omega
        · rw [List.length_cons]
          omega
        · rcases hrest with ⟨rfl, hdots⟩ | ⟨rest, rfl, hrest⟩
          · exact .inl ⟨rfl, hdots⟩
          · exact .inr ⟨rest, rfl, hrest⟩
      · cases h

/-- What is accepted begins with a number; it is the last one exactly after three dots. -/
theorem ipAddressLoop_inv {str : List UInt8} {dots : Nat} (h : ipAddressLoop str dots 0 = true) :
    ∃ n : ShortNumber, str = n.digits ∧ dots = 3 ∨
      ∃ rest, str = n.digits ++ 0x2E :: rest ∧ ipAddressLoop rest (dots + 1) 0 = true := by
  obtain ⟨l, hl, hpos, hshort, hrest⟩ := ipAddressLoop_split h
  rw [Nat.zero_add] at hpos hshort
  exact ⟨⟨l, hl, hpos, hshort⟩, hrest⟩

theorem ipAddressLoop_inv_dot {str : List UInt8} {dots : Nat} (hdots : dots ≠ 3)
    (h : ipAddressLoop str dots 0 = true) : ∃ (n : ShortNumber) (rest : List UInt8),
      str = n.digits ++ 0x2E :: rest ∧ ipAddressLoop rest (dots + 1) 0 = true := by
  obtain ⟨n, ⟨-, hthree⟩ | hrest⟩ := ipAddressLoop_inv h
  · exact absurd hthree hdots
  · exact ⟨n, hrest⟩

/-- **The validator accepts the dotted quads.** -/
theorem isIpAddress_iff (str : List UInt8) :
    isIpAddress str = true ↔ ∃ q : DottedQuad, q.text = str := by
  constructor
  · intro h
    obtain ⟨a, afterFirst, rfl, hsecond⟩ := ipAddressLoop_inv_dot (by decide) h
    obtain ⟨b, afterSecond, rfl, hthird⟩ := ipAddressLoop_inv_dot (by decide) hsecond
    obtain ⟨c, afterThird, rfl, hfourth⟩ := ipAddressLoop_inv_dot (by decide) hthird
    obtain ⟨d, ⟨rfl, -⟩ | ⟨rest, -, hfifth⟩⟩ := ipAddressLoop_inv hfourth
    · exact ⟨⟨a, b, c, d⟩, rfl⟩
    · exact absurd (ipAddressLoop_dots hfifth) (by decide)
  · rintro ⟨q, rfl⟩
    exact isIpAddress_text q

/-! ## What is parsed -/

theorem parseIpLoop_digits {l : List UInt8} (hl : ∀ c ∈ l, 0x30 ≤ c ∧ c ≤ 0x39)
    (str : List UInt8) (ip shift : UInt32) (n : Nat) :
    parseIpLoop (l ++ str) ip (UInt32.ofNat n) shift = parseIpLoop str ip
      (UInt32.ofNat (l.foldl (fun n c => n * 10 + (c.toNat - 0x30)) n)) shift := by
  induction l generalizing n with
  | nil => rfl
  | cons c l ih =>
    have hc := hl c List.mem_cons_self
    have hle : 0x30 ≤ c.toNat := UInt8.le_iff_toNat_le.mp hc.1
    have hdigit : UInt32.ofNat n * 10 + (c.toUInt32 - 0x30) =
        UInt32.ofNat (n * 10 + (c.toNat - 0x30)) := by
      have hsub : c.toUInt32 - 0x30 = UInt32.ofNat (c.toNat - 0x30) := by
        rw [UInt32.ofNat_sub hle, UInt32.ofNat_uInt8ToNat]
        rfl
      rw [hsub, UInt32.ofNat_add, UInt32.ofNat_mul]
      rfl
    rw [List.cons_append, parseIpLoop, if_neg (digit_ne_dot hc), hdigit,
      ih fun d hd => hl d (List.mem_cons_of_mem _ hd), List.foldl_cons]

theorem parseIpLoop_number (n : ShortNumber) (str : List UInt8) (ip shift : UInt32) :
    parseIpLoop (n.digits ++ 0x2E :: str) ip 0 shift =
      parseIpLoop str (ip ||| UInt32.ofNat n.value <<< shift) 0 (shift - 8) := by
  have hloop := parseIpLoop_digits n.isDigit (0x2E :: str) ip shift 0
  rw [parseIpLoop, if_pos rfl] at hloop
  exact hloop

theorem parseIpLoop_last (n : ShortNumber) (ip shift : UInt32) :
    parseIpLoop n.digits ip 0 shift = ip ||| UInt32.ofNat n.value <<< shift := by
  have hloop := parseIpLoop_digits n.isDigit [] ip shift 0
  rw [List.append_nil] at hloop
  exact hloop

theorem parseIp_text (q : DottedQuad) : parseIp q.text =
    UInt32.ofNat q.first.value <<< 24 ||| UInt32.ofNat q.second.value <<< 16 |||
      UInt32.ofNat q.third.value <<< 8 ||| UInt32.ofNat q.fourth.value := by
  rw [parseIp, DottedQuad.text, parseIpLoop_number, parseIpLoop_number, parseIpLoop_number,
    parseIpLoop_last, UInt32.zero_or]
  have hlast : (24 - 8 - 8 - 8 : UInt32) = 0 := rfl
  rw [hlast, UInt32.shiftLeft_zero]
  rfl

theorem join_octets {a b c d : Nat} (ha : a ≤ 255) (hb : b ≤ 255) (hc : c ≤ 255) (hd : d ≤ 255) :
    UInt32.ofNat a <<< 24 ||| UInt32.ofNat b <<< 16 ||| UInt32.ofNat c <<< 8 ||| UInt32.ofNat d =
      UInt32.ofNat (((a * 256 + b) * 256 + c) * 256 + d) := by
  have hor : ∀ x y k : Nat, y < 2 ^ k → x * 2 ^ k ||| y = x * 2 ^ k + y := fun x y k h => by
    rw [← Nat.shiftLeft_eq, Nat.shiftLeft_add_eq_or_of_lt h]
  apply UInt32.toNat.inj
  simp only [UInt32.toNat_or, UInt32.toNat_shiftLeft, UInt32.toNat_ofNat', UInt32.reduceToNat,
    Nat.shiftLeft_eq, Nat.reduceMod]
  simp (disch := omega) only [Nat.mod_eq_of_lt]
  have hab : a * 2 ^ 24 ||| b * 2 ^ 16 = (a * 256 + b) * 2 ^ 16 := by
    rw [hor a (b * 2 ^ 16) 24 (by omega)]
    omega
  have habc : (a * 256 + b) * 2 ^ 16 ||| c * 2 ^ 8 = ((a * 256 + b) * 256 + c) * 2 ^ 8 := by
    rw [hor (a * 256 + b) (c * 2 ^ 8) 16 (by omega)]
    omega
  rw [hab, habc, hor _ d 8 (by omega)]
  omega

/-- **In range, the address is the one written.** -/
theorem parseIp_address {q : DottedQuad} (h : q.InRange) : parseIp q.text = q.address := by
  rw [parseIp_text, join_octets h.1 h.2.1 h.2.2.1 h.2.2.2]
  rfl

theorem dnsResolve_address {q : DottedQuad} (h : q.InRange) (s : NetState) :
    dnsResolve q.text s = (some q.address, s) := by
  rw [dnsResolve, if_pos (isIpAddress_text q), parseIp_address h]

/-- **A string is taken for a literal exactly if it is one, and resolved to the right address,
unless it consists of four numbers one of which is above 255.** -/
theorem literal_iff (str : List UInt8) :
    ((isIpAddress str = true ↔ ∃ q : DottedQuad, q.InRange ∧ q.text = str) ∧
      ∀ q : DottedQuad, q.InRange → q.text = str →
        ∀ s : NetState, dnsResolve str s = (some q.address, s)) ↔
      ¬ ∃ q : DottedQuad, q.text = str ∧ ¬ q.InRange := by
  rw [isIpAddress_iff]
  constructor
  · rintro ⟨hliteral, -⟩ ⟨q, rfl, hq⟩
    -- the numbers of another reading are the same
    obtain ⟨r, hr, hrq⟩ := hliteral.mp ⟨q, rfl⟩
    obtain ⟨h1, h2, h3, h4⟩ := DottedQuad.text_inj hrq
    exact hq ⟨h1 ▸ hr.1, h2 ▸ hr.2.1, h3 ▸ hr.2.2.1, h4 ▸ hr.2.2.2⟩
  · intro h
    refine ⟨⟨?_, ?_⟩, ?_⟩
    · rintro ⟨q, rfl⟩
      exact ⟨q, not_not.mp fun hq => h ⟨q, rfl, hq⟩, rfl⟩
    · rintro ⟨q, -, hq⟩
      exact ⟨q, hq⟩
    · rintro q hq rfl s
      exact dnsResolve_address hq s

/-- `999.1.1.1` is taken for an address. -/
theorem literal_999 : isIpAddress (ascii "999.1.1.1") = true ∧
    ¬ ∃ q : DottedQuad, q.InRange ∧ q.text = ascii "999.1.1.1" := by
  refine ⟨by decide +kernel, ?_⟩
  rintro ⟨q, hq, htext⟩
  let one : ShortNumber := ⟨ascii "1", by decide +kernel, by decide, by decide⟩
  let r : DottedQuad := ⟨⟨ascii "999", by decide +kernel, by decide, by decide⟩, one, one, one⟩
  have hr : r.text = ascii "999.1.1.1" := by decide +kernel
  have hfirst : q.first.value = r.first.value := (DottedQuad.text_inj (htext.trans hr.symm)).1
  have hvalue : r.first.value = 999 := by decide +kernel
  have hle : q.first.value ≤ 255 := hq.1
  omega

/-! ## Printing -/

/-- The first loop of `print_ip` for an octet: the digits of `val`, the last one first. -/
def digitLoop (val : Nat) (temp : List UInt8) : List UInt8 :=
  if val = 0 then temp else digitLoop (val / 10) (temp ++ [UInt8.ofNat (0x30 + val % 10)])
termination_by val

/-- The second one: `num[len++] = temp[--tlen]`. -/
def reverseLoop (temp : List UInt8) : Nat → List UInt8 → List UInt8
  | 0, num => num
  | tlen + 1, num => reverseLoop temp tlen (num ++ [temp.getD tlen 0])

/-- The string in `num`. -/
def printOctet (val : Nat) : List UInt8 :=
  if val = 0 then [0x30] else reverseLoop (digitLoop val []) (digitLoop val []).length []

/-- The rounds of `print_ip` for the octets below `i`. -/
def printIpLoop (ip : UInt32) : Nat → List UInt8 → List UInt8
  | 0, buffer => buffer
  | i + 1, buffer =>
    let octet := ip >>> UInt32.ofNat (i * 8) &&& 0xFF
    let buffer := buffer ++ printOctet octet.toNat
    printIpLoop ip i (if i > 0 then buffer ++ [0x2E] else buffer)

/-- The string that `print_ip` builds in `buffer`. -/
def printIp (ip : UInt32) : List UInt8 := printIpLoop ip 4 []

theorem digitLoop_eq (val : Nat) (temp : List UInt8) : digitLoop val temp =
    temp ++ (Nat.digits 10 val).map fun d => UInt8.ofNat (0x30 + d) := by
  induction val using Nat.strongRecOn generalizing temp with
  | ind val ih =>
    rw [digitLoop]
    split
    · next hzero => rw [hzero, Nat.digits_zero, List.map_nil, List.append_nil]
    · next hpos =>
      rw [ih (val / 10) (Nat.div_lt_self (Nat.pos_of_ne_zero hpos) (by decide)),
        Nat.digits_def' (by decide) (Nat.pos_of_ne_zero hpos), List.map_cons, List.append_assoc,
        List.singleton_append]

theorem reverseLoop_eq {temp : List UInt8} {tlen : Nat} (h : tlen ≤ temp.length)
    (num : List UInt8) : reverseLoop temp tlen num = num ++ (temp.take tlen).reverse := by
  induction tlen generalizing num with
  | zero => rw [reverseLoop, List.take_zero, List.reverse_nil, List.append_nil]
  | succ tlen ih =>
    rw [reverseLoop, ih (Nat.le_of_succ_le h), List.take_succ_eq_append_getElem h,
      List.reverse_concat, List.append_assoc, List.singleton_append, List.getD_eq_getElem _ _ h]

/-- `print_ip` writes the digits of an octet, the first one first. -/
theorem printOctet_eq (val : Nat) : printOctet val = if val = 0 then [0x30] else
    ((Nat.digits 10 val).map fun d => UInt8.ofNat (0x30 + d)).reverse := by
  rw [printOctet, digitLoop_eq, List.nil_append, reverseLoop_eq (Nat.le_refl _), List.take_length,
    List.nil_append]

theorem decimal_concat (l : List UInt8) (c : UInt8) :
    decimal (l ++ [c]) = decimal l * 10 + (c.toNat - 0x30) := List.foldl_concat ..

theorem toNat_digit {d : Nat} (h : d < 10) : (UInt8.ofNat (0x30 + d)).toNat = 0x30 + d := by
  rw [UInt8.toNat_ofNat', Nat.mod_eq_of_lt (by omega)]

theorem decimal_digits {ds : List Nat} (h : ∀ d ∈ ds, d < 10) :
    decimal (ds.map fun d => UInt8.ofNat (0x30 + d)).reverse = Nat.ofDigits 10 ds := by
  induction ds with
  | nil => rfl
  | cons d ds ih =>
    rw [List.map_cons, List.reverse_cons, decimal_concat, toNat_digit (h d List.mem_cons_self),
      ih fun e he => h e (List.mem_cons_of_mem _ he), Nat.ofDigits_cons]
    omega

def printedOctet (val : Nat) (h : val ≤ 255) : ShortNumber where
  digits := printOctet val
  isDigit := by
    rw [printOctet_eq]
    split
    · decide +kernel
    · intro c hc
      rw [List.mem_reverse, List.mem_map] at hc
      obtain ⟨d, hd, rfl⟩ := hc
      have hlt : d < 10 := Nat.digits_lt_base (by decide) hd
      rw [UInt8.le_iff_toNat_le, UInt8.le_iff_toNat_le, toNat_digit hlt]
      exact ⟨Nat.le_add_right _ _, Nat.add_le_add_left (Nat.le_of_lt_succ hlt) _⟩
  pos := by
    rw [printOctet_eq]
    split
    · decide
    · next hne =>
      rw [List.length_reverse, List.length_map]
      exact List.length_pos_of_ne_nil (Nat.digits_ne_nil_iff_ne_zero.mpr hne)
  short := by
    rw [printOctet_eq]
    split
    · decide
    · rw [List.length_reverse, List.length_map, Nat.digits_length_le_iff (by decide)]
      exact Nat.lt_of_le_of_lt h (by decide)

theorem printedOctet_value (val : Nat) (h : val ≤ 255) : (printedOctet val h).value = val := by
  change decimal (printOctet val) = val
  rw [printOctet_eq]
  split
  · next hzero =>
    rw [hzero]
    rfl
  · rw [decimal_digits fun d hd => Nat.digits_lt_base (by decide) hd, Nat.ofDigits_digits]

theorem octet_toNat (ip : UInt32) {i : Nat} (hi : i ≤ 3) :
    (ip >>> UInt32.ofNat (i * 8) &&& 0xFF).toNat = ip.toNat / 256 ^ i % 256 := by
  have hmask : ∀ n : Nat, n &&& 255 = n % 256 := fun n => Nat.and_two_pow_sub_one_eq_mod n 8
  have hpow : (2 : Nat) ^ (i * 8) = 256 ^ i := by rw [Nat.mul_comm, Nat.pow_mul]
  rw [UInt32.toNat_and, UInt32.toNat_shiftRight, UInt32.toNat_ofNat',
    Nat.mod_eq_of_lt (by omega : i * 8 < 2 ^ 32), Nat.mod_eq_of_lt (by omega : i * 8 < 32),
    Nat.shiftRight_eq_div_pow, hpow]
  exact hmask _

def printedQuad (ip : UInt32) : DottedQuad where
  first := printedOctet (ip.toNat / 256 ^ 3 % 256) (Nat.le_of_lt_succ (Nat.mod_lt _ (by decide)))
  second := printedOctet (ip.toNat / 256 ^ 2 % 256) (Nat.le_of_lt_succ (Nat.mod_lt _ (by decide)))
  third := printedOctet (ip.toNat / 256 ^ 1 % 256) (Nat.le_of_lt_succ (Nat.mod_lt _ (by decide)))
  fourth := printedOctet (ip.toNat / 256 ^ 0 % 256) (Nat.le_of_lt_succ (Nat.mod_lt _ (by decide)))

theorem printIp_eq_text (ip : UInt32) : printIp ip = (printedQuad ip).text := by
  simp only [printIp, printIpLoop, octet_toNat ip (by decide : 3 ≤ 3),
    octet_toNat ip (by decide : 2 ≤ 3), octet_toNat ip (by decide : 1 ≤ 3),
    octet_toNat ip (by decide : 0 ≤ 3), gt_iff_lt, Nat.zero_lt_succ, if_true, Nat.lt_irrefl,
    if_false, List.nil_append, List.append_assoc, List.singleton_append]
  rfl

theorem printedQuad_inRange (ip : UInt32) : (printedQuad ip).InRange := by
  refine ⟨?_, ?_, ?_, ?_⟩
  all_goals
    rw [printedQuad, printedOctet_value]
    exact Nat.le_of_lt_succ (Nat.mod_lt _ (by decide))

theorem printedQuad_address (ip : UInt32) : (printedQuad ip).address = ip := by
  have hlt := ip.toNat_lt
  apply UInt32.toNat.inj
  rw [DottedQuad.address, UInt32.toNat_ofNat']
  simp only [printedQuad, printedOctet_value]
  omega

/-- **What is printed fits the buffer, is taken for an address, and is read as the address.** -/
theorem printIp_roundTrip (ip : UInt32) : (printIp ip).length ≤ 15 ∧
    isIpAddress (printIp ip) = true ∧ parseIp (printIp ip) = ip := by
  rw [printIp_eq_text]
  refine ⟨?_, isIpAddress_text _, ?_⟩
  · have h1 := (printedQuad ip).first.short
    have h2 := (printedQuad ip).second.short
    have h3 := (printedQuad ip).third.short
    have h4 := (printedQuad ip).fourth.short
    simp only [DottedQuad.text, List.length_append, List.length_cons]
    omega
  · rw [parseIp_address (printedQuad_inRange ip), printedQuad_address]

end EphemeralOS
