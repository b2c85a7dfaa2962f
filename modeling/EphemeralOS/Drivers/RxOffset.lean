import EphemeralOS.Drivers.Network

/-!
# The receive offset

Whatever the card leaves in `rx_buffer` before a call of
`network_receive_packet`, the bytes read are those of `RxDriver.reads`
(`networkReceivePacket_reads`). The offset is brought back by one subtraction of
8192, which is enough for every length that a packet may have. A length that is
skipped may be as long as 65535, and after it the offset can be anywhere below
57344 (`inRing_advance_iff`).
-/

namespace EphemeralOS

open Binary Run

/-- `RX_BUFFER_SIZE`. -/
def rxBufferSize : Nat := 8192 + 16 + 1500

namespace RxDriver

def status (d : RxDriver) : UInt16 := Layout.word16.dec (d.rxBuffer.bytes d.rxOffset.toNat 2)

def length (d : RxDriver) : UInt16 :=
  Layout.word16.dec (d.rxBuffer.bytes (d.rxOffset.toNat + 2) 2)

/-- The length passed to `memcpy`. -/
def copied (maxLength : UInt16) (d : RxDriver) : UInt16 :=
  if d.length - 4 > maxLength then maxLength else d.length - 4

/-- The indices of `rx_buffer` that `network_receive_packet` reads. -/
def reads (bufferEmpty : Bool) (maxLength : UInt16) (d : RxDriver) : List Nat :=
  if !d.initialized then [] else
  if bufferEmpty then [] else
  let header := List.range' d.rxOffset.toNat 4
  if d.status &&& 1 = 0 then header
  else if d.length < 60 ∨ d.length > 1518 then header
  else header ++ List.range' (d.rxOffset.toNat + 4) (d.copied maxLength).toNat

theorem networkReceivePacket_eq {bufferEmpty : Bool} {maxLength : UInt16} {d : RxDriver}
    (hinit : d.initialized = true) (hempty : bufferEmpty = false) :
    d.networkReceivePacket bufferEmpty maxLength =
      if d.status &&& 1 = 0 then ((-1, []), { d with rxOffset := 0 })
      else if d.length < 60 ∨ d.length > 1518 then ((0, []), d.advance d.length)
      else ((((d.copied maxLength).toNat : Int),
        d.rxBuffer.bytes (d.rxOffset.toNat + 4) (d.copied maxLength).toNat),
        d.advance (d.copied maxLength)) := by
  rw [networkReceivePacket, if_neg (by simp [hinit]), if_neg (by simp [hempty])]
  rfl

theorem reads_eq {bufferEmpty : Bool} {maxLength : UInt16} {d : RxDriver}
    (hinit : d.initialized = true) (hempty : bufferEmpty = false) :
    d.reads bufferEmpty maxLength =
      if d.status &&& 1 = 0 then List.range' d.rxOffset.toNat 4
      else if d.length < 60 ∨ d.length > 1518 then List.range' d.rxOffset.toNat 4
      else List.range' d.rxOffset.toNat 4 ++
        List.range' (d.rxOffset.toNat + 4) (d.copied maxLength).toNat := by
  rw [reads, if_neg (by simp [hinit]), if_neg (by simp [hempty])]

theorem length_of_not_skipped {len : UInt16} (h : ¬ (len < 60 ∨ len > 1518)) :
    60 ≤ len.toNat ∧ len.toNat ≤ 1518 := by
  rw [not_or, gt_iff_lt, UInt16.lt_iff_toNat_lt, UInt16.lt_iff_toNat_lt, not_lt, not_lt] at h
  exact h

theorem networkReceivePacket_idle {bufferEmpty : Bool} (d : RxDriver)
    (h : ¬ (d.initialized = true ∧ bufferEmpty = false)) (maxLength : UInt16) :
    d.networkReceivePacket bufferEmpty maxLength = ((if d.initialized then 0 else -1, []), d) ∧
      d.reads bufferEmpty maxLength = [] := by
  rw [networkReceivePacket, reads]
  cases hinit : d.initialized with
  | false => exact ⟨rfl, rfl⟩
  | true =>
    have hempty : bufferEmpty = true := by simpa [hinit] using h
    rw [hempty]
    exact ⟨rfl, rfl⟩

theorem bytes_congr {m m' : Memory} {off n : Nat} (h : ∀ i ∈ List.range' off n, m i = m' i) :
    m.bytes off n = m'.bytes off n := by
  refine List.map_congr_left fun j hj => h (off + j) ?_
  rw [List.mem_range'_1]
  exact ⟨Nat.le_add_right _ _, Nat.add_lt_add_left (List.mem_range.mp hj) _⟩

section Reads

variable {bufferEmpty : Bool} {maxLength : UInt16} {d d' : RxDriver}

theorem mem_reads_header (hinit : d.initialized = true) (hempty : bufferEmpty = false) {i : Nat}
    (hi : i ∈ List.range' d.rxOffset.toNat 4) : i ∈ d.reads bufferEmpty maxLength := by
  rw [reads_eq hinit hempty]
  split
  · exact hi
  · split
    · exact hi
    · exact List.mem_append_left _ hi

/-- **The result depends on the bytes read only.** -/
theorem networkReceivePacket_reads (hinit : d'.initialized = d.initialized)
    (hoff : d'.rxOffset = d.rxOffset)
    (h : ∀ i ∈ d.reads bufferEmpty maxLength, d.rxBuffer i = d'.rxBuffer i) :
    (d'.networkReceivePacket bufferEmpty maxLength).1 =
        (d.networkReceivePacket bufferEmpty maxLength).1 ∧
      (d'.networkReceivePacket bufferEmpty maxLength).2.rxOffset =
        (d.networkReceivePacket bufferEmpty maxLength).2.rxOffset := by
  by_cases hcall : d.initialized = true ∧ bufferEmpty = false
  swap
  · rw [(networkReceivePacket_idle d hcall maxLength).1,
      (networkReceivePacket_idle d' (by rwa [hinit]) maxLength).1, hinit]
    exact ⟨rfl, hoff⟩
  obtain ⟨hi, hempty⟩ := hcall
  -- the header is read in any case
  have hheader : ∀ off n, d.rxOffset.toNat ≤ off → off + n ≤ d.rxOffset.toNat + 4 →
      d'.rxBuffer.bytes off n = d.rxBuffer.bytes off n := fun off n hge hle =>
    bytes_congr fun i hmem => (h i (mem_reads_header hi hempty (List.mem_range'_1.mpr
      ⟨hge.trans (List.mem_range'_1.mp hmem).1,
        Nat.lt_of_lt_of_le (List.mem_range'_1.mp hmem).2 hle⟩))).symm
  have hstatus : d'.status = d.status := by
    rw [status, status, hoff, hheader _ _ (Nat.le_refl _) (by omega)]
  have hlength : d'.length = d.length := by
    rw [length, length, hoff, hheader _ _ (Nat.le_add_right _ _) (Nat.le_refl _)]
  have hcopied : d'.copied maxLength = d.copied maxLength := by
    rw [copied, copied, hlength]
  have hadvance : ∀ len, (d'.advance len).rxOffset = (d.advance len).rxOffset := fun len => by
    simp only [advance, hoff]
  rw [networkReceivePacket_eq (hinit.trans hi) hempty, networkReceivePacket_eq hi hempty, hstatus,
    hlength, hcopied]
  by_cases hbad : d.status &&& 1 = 0
  · rw [if_pos hbad, if_pos hbad]
    exact ⟨rfl, rfl⟩
  by_cases hskip : d.length < 60 ∨ d.length > 1518
  · rw [if_neg hbad, if_neg hbad, if_pos hskip, if_pos hskip]
    exact ⟨rfl, hadvance _⟩
  · have hdata : d'.rxBuffer.bytes (d.rxOffset.toNat + 4) (d.copied maxLength).toNat =
        d.rxBuffer.bytes (d.rxOffset.toNat + 4) (d.copied maxLength).toNat := by
      refine bytes_congr fun i hmem => (h i ?_).symm
      rw [reads_eq hi hempty, if_neg hbad, if_neg hskip]
      exact List.mem_append_right _ hmem
    rw [if_neg hbad, if_neg hbad, if_neg hskip, if_neg hskip, hoff, hdata]
    exact ⟨rfl, hadvance _⟩

end Reads

def InRing (d : RxDriver) : Prop := d.rxOffset.toNat % 4 = 0 ∧ d.rxOffset.toNat < 8192

instance (d : RxDriver) : Decidable d.InRing := inferInstanceAs (Decidable (_ ∧ _))

theorem advance_rxOffset (len : UInt16) (d : RxDriver) : (d.advance len).rxOffset.toNat =
    let x := (d.rxOffset.toNat + len.toNat + 4 + 3) / 4 * 4 % 65536
    if 8192 ≤ x then x - 8192 else x := by
  simp only [advance]
  have hle : ∀ x : UInt16, x ≥ 8192 ↔ 8192 ≤ x.toNat := fun x => UInt16.le_iff_toNat_le
  simp only [hle]
  rw [apply_ite UInt16.toNat]
  split
  · rename_i h
    rw [UInt16.toNat_sub_of_le _ _ ((hle _).mpr h), UInt16.toNat_ofNat']
    rw [UInt16.toNat_ofNat'] at h
    rw [if_pos h]
    rfl
  · rename_i h
    rw [UInt16.toNat_ofNat'] at h ⊢
    rw [if_neg h]

/-- **Which lengths leave the offset in the ring.** -/
theorem inRing_advance_iff {d : RxDriver} (h : d.InRing) (len : UInt16) :
    (d.advance len).InRing ↔ d.rxOffset.toNat + len.toNat ≤ 16376 ∨
      65529 ≤ d.rxOffset.toNat + len.toNat := by
  obtain ⟨hfour, hlt⟩ := h
  have hlen := len.toNat_lt
  rw [InRing, advance_rxOffset]
  simp only
  split <;> omega

end RxDriver

/-! ## Calls -/

/-- A call of `network_receive_packet`, with what the card has put into `rx_buffer` and its command
register before it. -/
structure RxCall where
  content : Memory
  bufferEmpty : Bool
  maxLength : UInt16

namespace RxCall

def found (c : RxCall) (d : RxDriver) : RxDriver := { d with rxBuffer := c.content }

def apply (c : RxCall) (d : RxDriver) : RxDriver :=
  ((c.found d).networkReceivePacket c.bufferEmpty c.maxLength).2

/-- The call reads inside `rx_buffer` and leaves the offset in the ring. -/
def StaysInRing (c : RxCall) (d : RxDriver) : Prop :=
  (∀ i ∈ (c.found d).reads c.bufferEmpty c.maxLength, i < rxBufferSize) ∧ (c.apply d).InRing

/-- If the call gets as far as the length, the end of what it announces is not in the range that one
subtraction of 8192 leaves out. -/
def EndsInRing (c : RxCall) (d : RxDriver) : Prop :=
  d.initialized = true → c.bufferEmpty = false → (c.found d).status &&& 1 ≠ 0 →
    d.rxOffset.toNat + (c.found d).length.toNat ≤ 16376 ∨
      65529 ≤ d.rxOffset.toNat + (c.found d).length.toNat

theorem copied_toNat_le {c : RxCall} {d : RxDriver}
    (h : ¬ ((c.found d).length < 60 ∨ (c.found d).length > 1518)) :
    ((c.found d).copied c.maxLength).toNat ≤ 1514 := by
  obtain ⟨hmin, hmax⟩ := RxDriver.length_of_not_skipped h
  have hfour : (4 : UInt16) ≤ (c.found d).length :=
    UInt16.le_iff_toNat_le.mpr (Nat.le_trans (by decide) hmin)
  have hsub : ((c.found d).length - 4).toNat ≤ 1514 := by
    rw [UInt16.toNat_sub_of_le _ _ hfour]
    exact Nat.sub_le_sub_right hmax 4
  rw [RxDriver.copied]
  split
  · next hgt => exact Nat.le_trans (UInt16.lt_iff_toNat_lt.mp hgt).le hsub
  · exact hsub

theorem staysInRing_iff {c : RxCall} {d : RxDriver} (h : d.InRing) :
    c.StaysInRing d ↔ c.EndsInRing d := by
  have hfound : (c.found d).InRing := h
  obtain ⟨hfour, hlt⟩ : d.rxOffset.toNat % 4 = 0 ∧ d.rxOffset.toNat < 8192 := h
  by_cases hcall : d.initialized = true ∧ c.bufferEmpty = false
  swap
  · -- nothing is read
    obtain ⟨hresult, hreads⟩ :=
      RxDriver.networkReceivePacket_idle (c.found d) hcall c.maxLength
    rw [StaysInRing, apply, hresult, hreads]
    exact iff_of_true ⟨fun _ hi => absurd hi List.not_mem_nil, hfound⟩
      fun hinit hempty => absurd ⟨hinit, hempty⟩ hcall
  obtain ⟨hinit, hempty⟩ := hcall
  have hheader : ∀ i ∈ List.range' (c.found d).rxOffset.toNat 4, i < rxBufferSize := by
    intro i hi
    have hoff : (c.found d).rxOffset = d.rxOffset := rfl
    rw [List.mem_range'_1, hoff] at hi
    rw [rxBufferSize]
    omega
  rw [StaysInRing, EndsInRing, imp_iff_right hinit, imp_iff_right hempty, apply,
    RxDriver.networkReceivePacket_eq (d := c.found d) hinit hempty,
    RxDriver.reads_eq (d := c.found d) hinit hempty]
  by_cases hbad : (c.found d).status &&& 1 = 0
  · -- the card is reset
    rw [if_pos hbad, if_pos hbad]
    exact iff_of_true ⟨hheader, rfl, (by decide : (0 : UInt16).toNat < 8192)⟩
      fun hgood => absurd hbad hgood
  rw [if_neg hbad, if_neg hbad, imp_iff_right hbad]
  by_cases hskip : (c.found d).length < 60 ∨ (c.found d).length > 1518
  · rw [if_pos hskip, if_pos hskip, and_iff_right hheader]
    exact RxDriver.inRing_advance_iff hfound _
  · -- a packet: it ends inside the buffer
    rw [if_neg hskip, if_neg hskip]
    have hcopied := copied_toNat_le hskip
    have hmax := (RxDriver.length_of_not_skipped hskip).2
    refine iff_of_true ⟨fun i hi => ?_, (RxDriver.inRing_advance_iff hfound _).mpr (.inl ?_)⟩
      (.inl ?_)
    · rcases List.mem_append.mp hi with hi | hi
      · exact hheader i hi
      · -- the last multiple of 4 below 8192 leaves just enough room
        rw [List.mem_range'_1] at hi
        have hoff : (c.found d).rxOffset = d.rxOffset := rfl
        rw [hoff] at hi
        rw [rxBufferSize]
        omega
    · exact Nat.le_trans (Nat.add_le_add hlt.le hcopied) (by decide)
    · exact Nat.le_trans (Nat.add_le_add hlt.le hmax) (by decide)

theorem every_staysInRing_iff {calls : List RxCall} {d : RxDriver} (h : d.InRing) :
    Every apply StaysInRing calls d ↔ Every apply EndsInRing calls d := by
  induction calls generalizing d with
  | nil => exact Iff.rfl
  | cons c calls ih =>
    rw [Every, Every, staysInRing_iff h]
    refine and_congr_right fun hends => ih ?_
    exact ((staysInRing_iff h).mpr hends).2

/-- **The offset stays in the ring, and the reads in the buffer, exactly in the runs where no call
finds an end outside.** -/
theorem rxOffset_inRing_iff (initialized : Bool) (m : Memory) (calls : List RxCall) :
    Every apply StaysInRing calls ⟨initialized, m, 0⟩ ↔
      Every apply EndsInRing calls ⟨initialized, m, 0⟩ :=
  every_staysInRing_iff ⟨rfl, (by decide : (0 : UInt16).toNat < 8192)⟩

/-- A length of 32768 in the first header: the offset is 24580 then, and the next call reads
there. -/
theorem rxOffset_outside :
    let c : RxCall := ⟨.ofList [1, 0, 0, 0x80], false, 1518⟩
    let d := RxDriver.rtl8139Init (fun _ => 0)
    (c.apply d).rxOffset = 24580 ∧ ¬ c.StaysInRing d ∧
      24580 ∈ (c.found (c.apply d)).reads c.bufferEmpty c.maxLength ∧ ¬ 24580 < rxBufferSize := by
  intro c d
  have hoff : (c.apply d).rxOffset = 24580 := by decide
  refine ⟨hoff, fun h => ?_, by decide, by decide⟩
  have hring := h.2
  rw [RxDriver.InRing, hoff] at hring
  exact absurd hring.2 (by decide)

end RxCall

end EphemeralOS
