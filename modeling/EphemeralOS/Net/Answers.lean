import EphemeralOS.Lib.Dns
import EphemeralOS.Net.Dns

/-!
# Decoding DNS answers

What `dns_response_handler` makes of a well-formed response. Its loop over a
name leaves the cursor on the zero that ends the name, and behind a compression
pointer; the code after the loop skips a zero in both cases. Behind a pointer
that zero is the high byte of a type below 256: the name is `Stray`, the cursor
is one byte too far, and the rest of the record is misread.
-/

namespace EphemeralOS

open Dns

theorem shiftLeft_or_byte {a b : Nat} (hb : b < 256) : a <<< 8 ||| b = a * 256 + b := by
  rw [← Nat.shiftLeft_add_eq_or_of_lt hb, Nat.shiftLeft_eq]

theorem read16_toNat (data : Memory) (ptr : Nat) :
    (read16 data ptr).toNat = (data ptr).toNat * 256 + (data (ptr + 1)).toNat := by
  have ha := (data ptr).toNat_lt
  have hb := (data (ptr + 1)).toNat_lt
  rw [read16, UInt16.toNat_or, UInt16.toNat_shiftLeft, UInt8.toNat_toUInt16, UInt8.toNat_toUInt16]
  change (data ptr).toNat <<< 8 % 2 ^ 16 ||| _ = _
  rw [Nat.mod_eq_of_lt (by rw [Nat.shiftLeft_eq]; omega), shiftLeft_or_byte hb]

theorem read32_toNat (data : Memory) (ptr : Nat) : (read32 data ptr).toNat =
    (((data ptr).toNat * 256 + (data (ptr + 1)).toNat) * 256 + (data (ptr + 2)).toNat) * 256 +
      (data (ptr + 3)).toNat := by
  have ha := (data ptr).toNat_lt
  have hb := (data (ptr + 1)).toNat_lt
  have hc := (data (ptr + 2)).toNat_lt
  have hd := (data (ptr + 3)).toNat_lt
  have hmod : ∀ {n k : Nat}, n < 256 → k ≤ 24 → n <<< k % 2 ^ 32 = n <<< k := by
    intro n k hn hk
    refine Nat.mod_eq_of_lt ?_
    rw [Nat.shiftLeft_eq]
    calc n * 2 ^ k ≤ n * 2 ^ 24 := Nat.mul_le_mul_left n (Nat.pow_le_pow_right (by decide) hk)
      _ < 2 ^ 32 := by omega
  rw [read32]
  simp only [UInt32.toNat_or, UInt32.toNat_shiftLeft, UInt8.toNat_toUInt32]
  change (data ptr).toNat <<< 24 % 2 ^ 32 ||| (data (ptr + 1)).toNat <<< 16 % 2 ^ 32 |||
    (data (ptr + 2)).toNat <<< 8 % 2 ^ 32 ||| _ = _
  rw [hmod ha (by decide), hmod hb (by decide), hmod hc (by decide)]
  -- Horner: take eight places out of the first bytes, three times
  rw [show (data ptr).toNat <<< 24 = ((data ptr).toNat <<< 8) <<< 8 <<< 8 by
      simp only [Nat.shiftLeft_eq]; omega,
    show (data (ptr + 1)).toNat <<< 16 = (data (ptr + 1)).toNat <<< 8 <<< 8 by
      simp only [Nat.shiftLeft_eq]; omega,
    ← Nat.shiftLeft_or_distrib, ← Nat.shiftLeft_or_distrib, ← Nat.shiftLeft_or_distrib,
    shiftLeft_or_byte hb, shiftLeft_or_byte hc, shiftLeft_or_byte hd]

theorem stands_be16 {data : Memory} {ptr : Nat} {w : UInt16} (h : data.Stands ptr (be16 w)) :
    read16 data ptr = w ∧ (data ptr).toNat = w.toNat / 256 := by
  have hw := w.toNat_lt
  obtain ⟨h0, h1⟩ := Memory.stands_cons.mp h
  obtain ⟨h1, -⟩ := Memory.stands_cons.mp h1
  have hhi : (data ptr).toNat = w.toNat / 256 := by
    rw [h0, UInt8.toNat_ofNat']
    omega
  refine ⟨UInt16.toNat_inj.mp ?_, hhi⟩
  rw [read16_toNat, hhi, h1, UInt8.toNat_ofNat']
  omega

/-! ## Names -/

theorem skipName_label {data : Memory} {limit ptr : Nat} {l : Label}
    (h : data.Stands ptr l.wire) (hlt : ptr < limit) :
    skipName data limit limit ptr = skipName data limit limit (ptr + l.wire.length) := by
  have hpos := l.pos
  have hle := l.le
  have hplain : ∀ n < 64, UInt8.ofNat n &&& 0xC0 ≠ 0xC0 := by decide
  obtain ⟨h0, -⟩ := Memory.stands_cons.mp h
  have hne : data ptr ≠ 0 := by
    rw [h0, ← UInt8.toNat_inj.ne, UInt8.toNat_ofNat']
    change _ ≠ 0
    omega
  have hlen : (data ptr).toNat = l.bytes.length := by
    rw [h0, UInt8.toNat_ofNat']
    omega
  rw [skipName_rounds data limit (Nat.sub_le _ _), if_pos ⟨hlt, hne⟩, if_neg, hlen, length_label]
  rw [h0]
  exact hplain _ (by omega)

theorem skipName_labels {data : Memory} {limit ptr : Nat} {ls : List Label}
    (h : data.Stands ptr (ls.flatMap Label.wire))
    (hlt : ptr + (ls.flatMap Label.wire).length < limit) :
    skipName data limit limit ptr =
      skipName data limit limit (ptr + (ls.flatMap Label.wire).length) := by
  induction ls generalizing ptr with
  | nil => rfl
  | cons l ls ih =>
    rw [List.flatMap_cons, List.length_append] at hlt
    obtain ⟨hl, hls⟩ := Memory.stands_append.mp h
    rw [skipName_label hl (by omega), ih hls (by omega), List.flatMap_cons, List.length_append,
      Nat.add_assoc]

/-- A name after which the cursor goes astray: it ends with a compression pointer, and the high byte
of the type behind it is zero. -/
def Stray (n : Name) (type : UInt16) : Prop := n.Compressed ∧ type.toNat < 256

/-- **Where the cursor is after a name.** -/
theorem afterName_wire {data : Memory} {limit ptr : Nat} {n : Name} {type : UInt16}
    {l : List UInt8} (h : data.Stands ptr (n.wire ++ (be16 type ++ l)))
    (hle : ptr + n.wire.length + 2 ≤ limit) :
    (¬ Stray n type → afterName data limit ptr = some (ptr + n.wire.length)) ∧
      (Stray n type → afterName data limit ptr = some (ptr + n.wire.length + 1)) := by
  obtain ⟨hn, hl⟩ := Memory.stands_append.mp h
  obtain ⟨-, htype⟩ := stands_be16 (Memory.stands_append.mp hl).1
  obtain ⟨hlabels, hending⟩ := Memory.stands_append.mp hn
  have hlen : n.wire.length = (n.labels.flatMap Label.wire).length + n.ending.wire.length := by
    rw [Name.wire, List.length_append]
  have hskip : skipName data limit limit ptr = _ :=
    (skipName_labels hlabels (by omega)).trans (skipName_rounds data limit (Nat.sub_le _ _))
  cases hend : n.ending with
  | root =>
    rw [hend] at hending hlen
    have hlen : n.wire.length = (n.labels.flatMap Label.wire).length + 1 := hlen
    obtain ⟨h0, -⟩ := Memory.stands_cons.mp hending
    have hroot : ¬ Stray n type := fun hs => hs.1 hend
    rw [if_neg fun hc => hc.2 h0] at hskip
    simp only [afterName, hskip]
    rw [if_neg (by omega), if_pos h0, hlen, Nat.add_assoc]
    exact ⟨fun _ => rfl, fun hs => absurd hs hroot⟩
  | pointer hi lo hptr =>
    rw [hend] at hending hlen
    have hlen : n.wire.length = (n.labels.flatMap Label.wire).length + 2 := hlen
    obtain ⟨h0, -⟩ := Memory.stands_cons.mp hending
    have hne : hi ≠ 0 := by
      rintro rfl
      exact absurd hptr (by decide)
    have hcomp : n.Compressed := by
      rw [Name.Compressed, hend]
      exact fun h => by cases h
    have hzero : data (ptr + n.wire.length) = 0 ↔ type.toNat < 256 := by
      rw [← UInt8.toNat_inj, htype]
      change _ = 0 ↔ _
      omega
    rw [h0, if_pos ⟨by omega, hne⟩, if_pos hptr, Nat.add_assoc, ← hlen] at hskip
    simp only [afterName, hskip]
    rw [if_neg (by omega)]
    constructor
    · intro hs
      rw [if_neg fun hz => hs ⟨hcomp, hzero.mp hz⟩]
    · intro hs
      rw [if_pos (hzero.mpr hs.2)]

/-! ## Records -/

section Records

variable {data : Memory} {limit ptr : Nat}

theorem stands_rdata {r : Record} (h : data.Stands ptr r.rdata) (hr : r.rdata.length = 4) :
    read32 data ptr = r.address := by
  obtain ⟨a, b, c, d, h4⟩ : ∃ a b c d, r.rdata = [a, b, c, d] := by
    match r.rdata, hr with
    | [a, b, c, d], _ => exact ⟨a, b, c, d, rfl⟩
  rw [h4] at h
  obtain ⟨h0, h⟩ := Memory.stands_cons.mp h
  obtain ⟨h1, h⟩ := Memory.stands_cons.mp h
  obtain ⟨h2, h⟩ := Memory.stands_cons.mp h
  obtain ⟨h3, -⟩ := Memory.stands_cons.mp h
  have ha := a.toNat_lt
  have hb := b.toNat_lt
  have hc := c.toNat_lt
  have hd := d.toNat_lt
  apply UInt32.toNat_inj.mp
  rw [read32_toNat, h0, h1, h2, h3, Record.address, h4]
  simp only [List.foldl_cons, List.foldl_nil, UInt32.toNat_ofNat']
  omega

theorem stands_fields {r : Record} (h : data.Stands ptr (r.fields ++ r.rdata)) :
    read16 data ptr = r.type ∧ (read16 data (ptr + 8)).toNat = r.rdata.length ∧
      data.Stands (ptr + 10) r.rdata := by
  have hlt := r.rdata_lt
  obtain ⟨hf, hr⟩ := Memory.stands_append.mp h
  obtain ⟨htype, hf⟩ := Memory.stands_append.mp hf
  obtain ⟨-, hf⟩ := Memory.stands_append.mp hf
  obtain ⟨-, hf⟩ := Memory.stands_append.mp hf
  refine ⟨(stands_be16 htype).1, ?_, hr⟩
  rw [show ptr + 8 = ptr + 2 + 2 + 4 from rfl]
  have hlen := (stands_be16 hf).1
  simp only [length_be16, length_be32] at hlen
  rw [hlen, UInt16.toNat_ofNat']
  omega

theorem answerLoop_past (count : Nat) (h : limit ≤ ptr) :
    answerLoop data limit count ptr = none := by
  cases count with
  | zero => rfl
  | succ count => rw [answerLoop, if_pos (Nat.not_lt.mpr h)]

/-- **A record with a name that is not stray** is read as it is. -/
theorem answerLoop_record {r : Record} (h : data.Stands ptr r.wire)
    (hle : ptr + r.wire.length ≤ limit) (hclean : ¬ Stray r.name r.type) (count : Nat) :
    answerLoop data limit (count + 1) ptr =
      if r.IsAddress then some r.address
      else answerLoop data limit count (ptr + r.wire.length) := by
  have hpos := r.name.wire_pos
  have hlen := length_record r
  have hname : afterName data limit ptr = some (ptr + r.name.wire.length) :=
    (afterName_wire h (by omega)).1 hclean
  obtain ⟨htype, hrdlen, hrdata⟩ := stands_fields (Memory.stands_append.mp h).2
  rw [answerLoop, if_neg (by omega), hname]
  simp only []
  have h4 : read16 data (ptr + r.name.wire.length + 8) = 4 ↔ r.rdata.length = 4 := by
    rw [← UInt16.toNat_inj, hrdlen]
    rfl
  rw [if_neg (by omega), htype, hrdlen]
  by_cases ha : r.IsAddress
  · obtain ⟨hA, hrd⟩ := ha
    rw [if_pos ⟨hA, h4.mpr hrd, by omega⟩, if_pos ⟨hA, hrd⟩, stands_rdata hrdata hrd]
  · rw [if_neg fun hc => ha ⟨hc.1, h4.mp hc.2.1⟩, if_neg ha, hlen, ← Nat.add_assoc,
      ← Nat.add_assoc]

/-- **A record with a stray name** ends the reading of a message of at most 512 bytes, if the low
byte of its rdlength, which is misread as the high byte, is 2 or more. -/
theorem answerLoop_stray {r : Record} (h : data.Stands ptr r.wire)
    (hle : ptr + r.wire.length ≤ limit) (hlimit : limit ≤ 512) (hstray : Stray r.name r.type)
    (hlow : 2 ≤ r.rdata.length % 256) (count : Nat) :
    answerLoop data limit (count + 1) ptr = none := by
  have hpos := r.name.wire_pos
  have hlen := length_record r
  have hname : afterName data limit ptr = some (ptr + r.name.wire.length + 1) :=
    (afterName_wire h (by omega)).2 hstray
  obtain ⟨-, hrdlen, -⟩ := stands_fields (Memory.stands_append.mp h).2
  -- the low byte of rdlength is the high byte of what is read
  have hread := read16_toNat data (ptr + r.name.wire.length + 8)
  have hmisread := read16_toNat data (ptr + r.name.wire.length + 1 + 8)
  rw [show ptr + r.name.wire.length + 1 + 8 = ptr + r.name.wire.length + 8 + 1 from rfl] at hmisread
  have hbyte := (data (ptr + r.name.wire.length + 8 + 1)).toNat_lt
  have hbig : 512 ≤ (read16 data (ptr + r.name.wire.length + 1 + 8)).toNat := by
    rw [show ptr + r.name.wire.length + 1 + 8 = ptr + r.name.wire.length + 8 + 1 from rfl]
    omega
  have h4 : read16 data (ptr + r.name.wire.length + 1 + 8) ≠ 4 := by
    intro h4
    rw [h4] at hbig
    exact absurd hbig (by decide)
  rw [answerLoop, if_neg (by omega), hname]
  simp only []
  rw [if_neg (by omega), if_neg fun hc => h4 hc.2.1]
  exact answerLoop_past count (by omega)

/-- Records that are neither stray nor an address are passed over. -/
theorem answerLoop_pre {pre : List Record} (h : data.Stands ptr (pre.flatMap Record.wire))
    (hle : ptr + (pre.flatMap Record.wire).length ≤ limit) (hpre : ∀ r ∈ pre, ¬ r.IsAddress)
    (hclean : ∀ r ∈ pre, ¬ Stray r.name r.type) (count : Nat) :
    answerLoop data limit (pre.length + count) ptr =
      answerLoop data limit count (ptr + (pre.flatMap Record.wire).length) := by
  induction pre generalizing ptr with
  | nil => rw [List.length_nil, Nat.zero_add]; rfl
  | cons r pre ih =>
    rw [List.flatMap_cons, List.length_append] at hle
    obtain ⟨hr, hrest⟩ := Memory.stands_append.mp h
    rw [List.length_cons, Nat.add_right_comm,
      answerLoop_record hr (by omega) (hclean r List.mem_cons_self),
      if_neg (hpre r List.mem_cons_self), ih hrest (by omega)
        (fun q hq => hpre q (List.mem_cons_of_mem _ hq))
        (fun q hq => hclean q (List.mem_cons_of_mem _ hq)),
      List.flatMap_cons, List.length_append, Nat.add_assoc]

end Records

/-! ## Responses -/

theorem be16_eq (w : UInt16) : be16 w = Binary.Layout.word16.enc (htons w) := (enc_htons w).symm

theorem header_eq (R : Response) : R.header = dnsHeaderLayout.enc ⟨htons R.id, htons R.flags,
    htons 1, htons (UInt16.ofNat R.answers.length), htons R.nscount, htons R.arcount⟩ := by
  simp only [Response.header, be16_eq]
  rfl

theorem dnsAnswer_eq {data : Memory} {length : UInt16} {R : Response} (h : data.Stands 0 R.wire)
    (hlength : length.toNat = R.wire.length) (hne : R.answers ≠ [])
    (hq : ¬ Stray R.question.name R.question.type) :
    dnsAnswer data length =
      answerLoop data length.toNat R.answers.length (12 + R.question.wire.length) := by
  have hpos := List.length_pos_iff.mpr hne
  have hlt := R.answers_lt
  obtain ⟨hheader, hbody⟩ := Memory.stands_append.mp h
  obtain ⟨hquestion, -⟩ := Memory.stands_append.mp hbody
  have hlen : R.wire.length = 12 + (R.question.name.wire.length + 4 +
      (R.answers.flatMap Record.wire ++ R.rest).length) := by
    rw [Response.wire, List.length_append, List.length_append, length_header, length_question]
  have hdec : dnsHeaderLayout.dec (data.bytes 0 12) = ⟨htons R.id, htons R.flags, htons 1,
      htons (UInt16.ofNat R.answers.length), htons R.nscount, htons R.arcount⟩ := by
    have hbytes : data.bytes 0 12 = R.header := hheader
    rw [hbytes, header_eq, Binary.Layout.dec_enc]
  have hcount : (UInt16.ofNat R.answers.length).toNat = R.answers.length := by
    rw [UInt16.toNat_ofNat']
    omega
  have hne0 : UInt16.ofNat R.answers.length ≠ 0 := by
    intro h0
    rw [h0] at hcount
    change 0 = _ at hcount
    omega
  rw [length_header, Nat.zero_add] at hquestion
  have hname : afterName data length.toNat 12 = some (12 + R.question.name.wire.length) :=
    (afterName_wire hquestion (by omega)).1 hq
  have hqr : R.flags &&& dnsFlagQr ≠ 0 := R.qr
  have h12 : ¬ length < 12 := by
    rw [UInt16.lt_iff_toNat_lt]
    change ¬ _ < 12
    omega
  simp only [dnsAnswer, hdec, ntohs, htons_htons]
  rw [if_neg h12, if_neg hqr, if_neg hne0, hname, hcount, length_question, ← Nat.add_assoc]

/-- Neither the question nor one of the records has a stray name. -/
def NoStray (R : Response) (rs : List Record) : Prop :=
  ¬ Stray R.question.name R.question.type ∧ ∀ r ∈ rs, ¬ Stray r.name r.type

/-- The handler's loop gets to a record that no address and no stray name precedes. -/
theorem dnsAnswer_reaches {R : Response} {data : Memory} {length : UInt16}
    (h : data.Stands 0 R.wire) (hlength : length.toNat = R.wire.length) {before after : List Record}
    {b : Record} (hsplit : R.answers = before ++ b :: after) (hclean : NoStray R before)
    (hno : ∀ r ∈ before, ¬ r.IsAddress) :
    ∃ count ptr, data.Stands ptr b.wire ∧ ptr + b.wire.length ≤ length.toNat ∧
      dnsAnswer data length = answerLoop data length.toNat (count + 1) ptr := by
  have hne : R.answers ≠ [] := by
    rw [hsplit]
    exact List.append_ne_nil_of_right_ne_nil _ (List.cons_ne_nil _ _)
  have hstands : data.Stands (12 + R.question.wire.length) (R.answers.flatMap Record.wire) := by
    have hbody := (Memory.stands_append.mp (Memory.stands_append.mp h).2).2
    rw [length_header, Nat.zero_add] at hbody
    exact (Memory.stands_append.mp hbody).1
  have hbound : 12 + R.question.wire.length + (R.answers.flatMap Record.wire).length ≤
      length.toNat := by
    rw [hlength, Response.wire]
    simp only [List.length_append, length_header]
    omega
  rw [hsplit, List.flatMap_append, List.flatMap_cons] at hstands hbound
  simp only [List.length_append] at hbound
  obtain ⟨hbefore, hb⟩ := Memory.stands_append.mp hstands
  refine ⟨after.length, _, (Memory.stands_append.mp hb).1, by omega, ?_⟩
  rw [dnsAnswer_eq h hlength hne hclean.1, hsplit, List.length_append, List.length_cons,
    answerLoop_pre hbefore (by omega) hno hclean.2]

/-- What stands before an element of `pre ++ [a]` stands in `pre`. -/
theorem prefix_of_append_singleton {α : Type} {pre before after : List α} {a b : α}
    (h : pre ++ [a] = before ++ b :: after) : before <+: pre := by
  have hle : before.length ≤ pre.length := by
    have := congrArg List.length h
    simp only [List.length_append, List.length_cons, List.length_nil] at this
    omega
  have hwhole : before <+: pre ++ [a] := h ▸ List.prefix_append _ _
  exact List.prefix_of_prefix_length_le hwhole (List.prefix_append _ _) hle

/-- **Decoding.** With `a` the first address record of a response of at most 512 bytes:
without a stray name up to `a` the handler takes the address of `a`; if the first stray name up to
`a` is that of a record whose rdlength has a low byte of 2 or more, it takes nothing. -/
theorem dns_answer_decoded {R : Response} {data : Memory} {length : UInt16}
    (h : data.Stands 0 R.wire) (hlength : length.toNat = R.wire.length)
    (h512 : R.wire.length ≤ 512) {pre post : List Record} {a : Record}
    (hanswers : R.answers = pre ++ a :: post) (hpre : ∀ r ∈ pre, ¬ r.IsAddress)
    (ha : a.IsAddress) :
    (NoStray R (pre ++ [a]) → ∀ srcIp srcPort s, dnsResponseHandler srcIp srcPort data length s =
      { s with resolvedIp := a.address, resolutionComplete := true }) ∧
    ∀ before b after, pre ++ [a] = before ++ b :: after → NoStray R before →
      Stray b.name b.type → 2 ≤ b.rdata.length % 256 →
      ∀ srcIp srcPort s, dnsResponseHandler srcIp srcPort data length s = s := by
  constructor
  · rintro ⟨hq, hclean⟩ srcIp srcPort s
    obtain ⟨count, ptr, hat, hle, hans⟩ := dnsAnswer_reaches h hlength hanswers
      ⟨hq, fun r hr => hclean r (List.mem_append_left _ hr)⟩ hpre
    rw [answerLoop_record hat hle (hclean a (by simp)), if_pos ha] at hans
    rw [dnsResponseHandler, hans]
  · intro before b after hsplit hclean hstray hlow srcIp srcPort s
    have hb : R.answers = before ++ b :: (after ++ post) := by
      rw [hanswers, ← List.cons_append, ← List.append_assoc, ← hsplit, List.append_assoc]
      rfl
    have hno : ∀ r ∈ before, ¬ r.IsAddress := fun r hr =>
      hpre r ((prefix_of_append_singleton hsplit).subset hr)
    obtain ⟨count, ptr, hat, hle, hans⟩ := dnsAnswer_reaches h hlength hb hclean hno
    rw [answerLoop_stray hat hle (by omega) hstray hlow] at hans
    rw [dnsResponseHandler, hans]

/-- The name `os.org`, written out. -/
def sampleName : Name := ⟨[⟨ascii "os", by decide, by decide⟩, ⟨ascii "org", by decide, by decide⟩],
  .root⟩

/-- A record with the address 10.0.2.2, owned by `owner`. -/
def sampleRecord (owner : Name) : Record := ⟨owner, 1, 1, 60, [10, 0, 2, 2], by decide⟩

/-- An answer to a query for `os.org`. -/
def sampleResponse (owner : Name) : Response where
  id := 1
  flags := 0x8180
  nscount := 0
  arcount := 0
  question := ⟨sampleName, 1, 1⟩
  answers := [sampleRecord owner]
  rest := []
  qr := by decide
  answers_lt := by simp

theorem sampleResponse_decoded :
    dnsResponseHandler 0x0A000203 53 (.ofList (sampleResponse sampleName).wire) 46
        (NetState.static true CArray.zero) =
      { NetState.static true CArray.zero with
        resolvedIp := (sampleRecord sampleName).address, resolutionComplete := true } ∧
    (sampleRecord sampleName).address = 0x0A000202 := by
  have hroot : ∀ type, ¬ Stray sampleName type := fun type hs => hs.1 rfl
  have hanswers : (sampleResponse sampleName).answers = [] ++ sampleRecord sampleName :: [] := rfl
  have hclean : NoStray (sampleResponse sampleName) ([] ++ [sampleRecord sampleName]) := by
    refine ⟨hroot 1, fun r hr => ?_⟩
    rw [List.mem_singleton.mp hr]
    exact hroot 1
  exact ⟨(dns_answer_decoded (Memory.stands_ofList _) (by decide) (by decide) hanswers (by simp)
    (by decide)).1 hclean 0x0A000203 53 _, by decide⟩

/-- The same answer, its owner name compressed to a pointer, leaves the handler without one. -/
theorem compressed_answer_lost :
    (sampleResponse ⟨[], .pointer 0xC0 12 (by decide)⟩).wire.length = 40 ∧
    dnsResponseHandler 0x0A000203 53
        (.ofList (sampleResponse ⟨[], .pointer 0xC0 12 (by decide)⟩).wire) 40
        (NetState.static true CArray.zero) = NetState.static true CArray.zero := by
  have hnone : dnsAnswer (.ofList (sampleResponse ⟨[], .pointer 0xC0 12 (by decide)⟩).wire) 40 =
      none := by decide +kernel
  refine ⟨by decide, ?_⟩
  rw [dnsResponseHandler, hnone]

end EphemeralOS
