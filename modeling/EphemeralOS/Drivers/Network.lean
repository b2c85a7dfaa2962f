import EphemeralOS.Net.Types
import EphemeralOS.Lib.Run

/-!
# The receive ring

`network_receive_packet` of `drivers/network.c`, and the card it reads from: the
RTL8139 writes packets one after another into `rx_buffer`, each with a 4-byte
header, and starts the next one at the following multiple of 4. What the driver
has to be is a queue (`Delivers`).

`length` has lost the 4 bytes of the CRC when it is added to `rx_offset`, so
after the first packet the driver looks for the second one 4 bytes too early
(`RingInv.second`).
-/

namespace EphemeralOS

open Binary Run

/-- The static objects that receiving uses; the `CAPR` register is only written. -/
structure RxDriver where
  initialized : Bool
  rxBuffer : Memory
  rxOffset : UInt16

namespace RxDriver

/-- The end of `rtl8139_init`. -/
def rtl8139Init (rxBuffer : Memory) : RxDriver := ⟨true, rxBuffer, 0⟩

/-- `rx_offset = (rx_offset + length + 4 + 3) & ~3`, less 8192 if that is reached. -/
def advance (length : UInt16) (d : RxDriver) : RxDriver :=
  let rxOffset := UInt16.ofNat ((d.rxOffset.toNat + length.toNat + 4 + 3) / 4 * 4)
  { d with rxOffset := if rxOffset ≥ 8192 then rxOffset - 8192 else rxOffset }

/-- `network_receive_packet`: its result, and the bytes copied to the caller's buffer. The command
register says whether the buffer is empty. -/
def networkReceivePacket (bufferEmpty : Bool) (maxLength : UInt16) (d : RxDriver) :
    (Int × List UInt8) × RxDriver :=
  if !d.initialized then ((-1, []), d) else
  if bufferEmpty then ((0, []), d) else
  let rxOffset := d.rxOffset.toNat
  let status := Layout.word16.dec (d.rxBuffer.bytes rxOffset 2)
  let length := Layout.word16.dec (d.rxBuffer.bytes (rxOffset + 2) 2)
  if status &&& 1 = 0 then ((-1, []), { d with rxOffset := 0 })
  else if length < 60 ∨ length > 1518 then ((0, []), d.advance length)
  else
    let length := length - 4
    let length := if length > maxLength then maxLength else length
    ((length.toNat, d.rxBuffer.bytes (rxOffset + 4) length.toNat), d.advance length)

end RxDriver

/-! ## Card -/

structure RxPacket where
  status : UInt16
  data : List UInt8
  crc : List UInt8
  received : status &&& 1 ≠ 0
  length_crc : crc.length = 4
  data_min : 60 ≤ data.length
  data_max : data.length ≤ 1514

namespace RxPacket

def length (p : RxPacket) : UInt16 := UInt16.ofNat (p.data.length + 4)

def header (p : RxPacket) : List UInt8 := Layout.word16.enc p.status ++ Layout.word16.enc p.length

def bytes (p : RxPacket) : List UInt8 := p.header ++ (p.data ++ p.crc)

def next (p : RxPacket) (off : Nat) : Nat := (off + (p.length.toNat + 4 + 3) / 4 * 4) % 8192

def RepeatsHeader (p : RxPacket) : Prop := p.data = (p.header ++ p.data).take p.data.length

end RxPacket

/-- Where the write offset is after packets from `off` on. -/
def ringEnd (off : Nat) : List RxPacket → Nat
  | [] => off
  | p :: ps => ringEnd (p.next off) ps

/-- The `n` bytes from `w` on are no part of the packets from `off` on. -/
def Clear (w n off : Nat) : List RxPacket → Prop
  | [] => True
  | p :: ps => (w + n ≤ off ∨ off + p.bytes.length ≤ w) ∧ Clear w n (p.next off) ps

/-- The driver and the card: `unread` are the packets that no call has taken, from `readOffset` on,
and `taken` counts the others. -/
structure RxRing where
  driver : RxDriver
  writeOffset : Nat
  readOffset : Nat
  unread : List RxPacket
  taken : Nat

inductive RxEvent
  | deposit (p : RxPacket)
  | receive

namespace RxRing

def start (rxBuffer : Memory) : RxRing := ⟨.rtl8139Init rxBuffer, 0, 0, [], 0⟩

def deposit (p : RxPacket) (r : RxRing) : RxRing :=
  { r with
    driver := { r.driver with rxBuffer := r.driver.rxBuffer.store r.writeOffset p.bytes }
    writeOffset := p.next r.writeOffset
    unread := r.unread ++ [p] }

/-- A call with `max_length` 1518; the buffer is empty when there is no unread packet. -/
def call (r : RxRing) : (Int × List UInt8) × RxDriver :=
  r.driver.networkReceivePacket r.unread.isEmpty 1518

def receive (r : RxRing) : RxRing :=
  match r.unread with
  | [] => { r with driver := r.call.2 }
  | p :: ps => ⟨r.call.2, r.writeOffset, p.next r.readOffset, ps, r.taken + 1⟩

end RxRing

def RxEvent.apply : RxEvent → RxRing → RxRing
  | .deposit p, r => r.deposit p
  | .receive, r => r.receive

def RxEvent.Allowed : RxEvent → RxRing → Prop
  | .deposit p, r => Clear r.writeOffset p.bytes.length r.readOffset r.unread
  | .receive, _ => True

/-- What a call has to return: the oldest unread packet, if there is one. -/
def expected : List RxPacket → Int × List UInt8
  | [] => (0, [])
  | p :: _ => (p.data.length, p.data)

def Delivers : RxEvent → RxRing → Prop
  | .deposit _, _ => True
  | .receive, r => r.call.1 = expected r.unread

/-- A call finds a packet only if it is the first to find one. -/
def FirstOnly : RxEvent → RxRing → Prop
  | .deposit _, _ => True
  | .receive, r => r.unread ≠ [] → r.taken = 0

/-- The packets stand in the buffer from `off` on. -/
def Stored (m : Memory) (off : Nat) : List RxPacket → Prop
  | [] => True
  | p :: ps => m.Stands off p.bytes ∧ Stored m (p.next off) ps

theorem ringEnd_append (off : Nat) (ps : List RxPacket) (p : RxPacket) :
    ringEnd off (ps ++ [p]) = p.next (ringEnd off ps) := by
  induction ps generalizing off with
  | nil => rfl
  | cons q ps ih => exact ih (q.next off)

/-- **Writing where no unread packet is keeps them, and adds one.** -/
theorem Stored.deposit {m : Memory} {off : Nat} {ps : List RxPacket} (h : Stored m off ps)
    {p : RxPacket} {w : Nat} (hw : w = ringEnd off ps) (hc : Clear w p.bytes.length off ps) :
    Stored (m.store w p.bytes) off (ps ++ [p]) := by
  induction ps generalizing off with
  | nil =>
    rw [hw]
    exact ⟨Memory.stands_store m _ _, trivial⟩
  | cons q ps ih => exact ⟨h.1.store hc.1, ih h.2 hw hc.2⟩

/-! ## What the driver reads -/

theorem RxPacket.length_toNat (p : RxPacket) : p.length.toNat = p.data.length + 4 := by
  have hmax := p.data_max
  rw [RxPacket.length, UInt16.toNat_ofNat']
  omega

theorem RxPacket.length_sub (p : RxPacket) : (p.length - 4).toNat = p.data.length := by
  have hlen := p.length_toNat
  rw [UInt16.toNat_sub_of_le, hlen]
  · rfl
  · rw [UInt16.le_iff_toNat_le, hlen]
    exact Nat.le_add_left 4 _

theorem RxPacket.length_header (p : RxPacket) : p.header.length = 4 := rfl

theorem RxPacket.stands_iff {p : RxPacket} {m : Memory} {off : Nat} :
    m.Stands off p.bytes ↔ m.bytes off 2 = Layout.word16.enc p.status ∧
      m.bytes (off + 2) 2 = Layout.word16.enc p.length ∧ m.Stands (off + 4) (p.data ++ p.crc) := by
  rw [RxPacket.bytes, Memory.stands_append, RxPacket.header, Memory.stands_append, and_assoc]
  rfl

namespace RxDriver

variable {d : RxDriver} {p : RxPacket} {off : Nat}

/-- **At the offset of a packet, the driver returns it.** -/
theorem networkReceivePacket_packet (hi : d.initialized = true) (h : d.rxBuffer.Stands off p.bytes)
    (hoff : d.rxOffset.toNat = off) : d.networkReceivePacket false 1518 =
      (((p.data.length : Int), p.data), d.advance (p.length - 4)) := by
  obtain ⟨hstatus, hlength, hdata⟩ := RxPacket.stands_iff.mp h
  have hmin := p.data_min
  have hmax := p.data_max
  have hlen := p.length_toNat
  have hbytes : d.rxBuffer.bytes (off + 4) p.data.length = p.data :=
    (Memory.stands_append.mp hdata).1
  simp only [networkReceivePacket, hi, hoff, hstatus, hlength, Layout.dec_enc]
  rw [if_neg (by decide), if_neg (by decide), if_neg p.received, if_neg ?_, if_neg ?_, p.length_sub,
    hbytes]
  · rw [gt_iff_lt, UInt16.lt_iff_toNat_lt, p.length_sub]
    change ¬ 1514 + 4 < _
    omega
  · rw [gt_iff_lt, UInt16.lt_iff_toNat_lt, UInt16.lt_iff_toNat_lt, hlen]
    change ¬ (_ < 60 ∨ 1518 < _)
    omega

/-- Four bytes before a packet, the driver returns it only if it repeats its header. -/
theorem repeatsHeader_of_early (h : d.rxBuffer.Stands off p.bytes)
    (hoff : d.rxOffset.toNat + 4 = off)
    (hcall : (d.networkReceivePacket false 1518).1 = ((p.data.length : Int), p.data)) :
    p.RepeatsHeader := by
  have hmin := p.data_min
  -- what is returned are the bytes from the header of the packet on
  have hread : p.data = d.rxBuffer.bytes off p.data.length := by
    simp only [networkReceivePacket, hoff] at hcall
    split at hcall
    · simp only [Prod.mk.injEq] at hcall
      omega
    · split at hcall
      · simp only [Prod.mk.injEq] at hcall
        omega
      · split at hcall
        · simp only [Prod.mk.injEq] at hcall
          omega
        · split at hcall
          · simp only [Prod.mk.injEq] at hcall
            omega
          · simp only [Prod.mk.injEq] at hcall
            obtain ⟨hn, hd⟩ := hcall
            rw [← Int.ofNat.inj hn, hd]
  have hsplit : p.bytes.length = p.data.length + 8 := by
    rw [RxPacket.bytes, List.length_append, List.length_append, p.length_header, p.length_crc]
    omega
  rw [Memory.Stands, hsplit, Memory.bytes_add] at h
  have htake := congrArg (List.take p.data.length) h
  rw [List.take_left' (Memory.length_bytes _ _ _), ← hread] at htake
  rw [RxPacket.RepeatsHeader]
  refine htake.trans ?_
  rw [RxPacket.bytes, ← List.append_assoc, List.take_append_of_le_length]
  rw [List.length_append]
  omega

/-- After the first packet the driver is 4 bytes behind the card. -/
theorem advance_start (hoff : d.rxOffset = 0) :
    (d.advance (p.length - 4)).rxOffset.toNat + 4 = p.next 0 := by
  have hlen := p.length_toNat
  have hmax := p.data_max
  have hadd : (UInt16.ofNat ((d.rxOffset.toNat + (p.length - 4).toNat + 4 + 3) / 4 * 4)).toNat =
      (p.data.length + 7) / 4 * 4 := by
    rw [hoff, p.length_sub, UInt16.toNat_ofNat']
    change (0 + _ + 4 + 3) / 4 * 4 % 65536 = _
    omega
  simp only [advance]
  rw [if_neg ?_, hadd, RxPacket.next, hlen]
  · omega
  · rw [ge_iff_le, UInt16.le_iff_toNat_le, hadd]
    change ¬ 8192 ≤ _
    omega

end RxDriver

/-! ## Runs -/

/-- What holds in every run: the card keeps the unread packets, and the driver is where they begin
until it has taken one, and 4 bytes before them from then until it has taken another. -/
structure RingInv (r : RxRing) : Prop where
  initialized : r.driver.initialized = true
  stored : Stored r.driver.rxBuffer r.readOffset r.unread
  writeOffset : r.writeOffset = ringEnd r.readOffset r.unread
  first : r.taken = 0 → r.driver.rxOffset = 0 ∧ r.readOffset = 0
  second : r.taken = 1 → r.driver.rxOffset.toNat + 4 = r.readOffset

theorem ringInv_start (rxBuffer : Memory) : RingInv (.start rxBuffer) :=
  ⟨rfl, trivial, rfl, fun _ => ⟨rfl, rfl⟩, fun h => absurd h Nat.zero_ne_one⟩

theorem RxDriver.networkReceivePacket_frame (bufferEmpty : Bool) (maxLength : UInt16)
    (d : RxDriver) : ∃ rxOffset, (d.networkReceivePacket bufferEmpty maxLength).2 =
      { d with rxOffset := rxOffset } := by
  simp only [networkReceivePacket]
  split <;> [exact ⟨d.rxOffset, rfl⟩; skip]
  split <;> [exact ⟨d.rxOffset, rfl⟩; skip]
  split <;> [exact ⟨_, rfl⟩; skip]
  split
  · exact ⟨_, rfl⟩
  · exact ⟨_, rfl⟩

theorem RxRing.call_nil {r : RxRing} (hi : r.driver.initialized = true) (h : r.unread = []) :
    r.call = ((0, []), r.driver) := by
  rw [RxRing.call, h, RxDriver.networkReceivePacket, hi]
  rfl

theorem RingInv.call_first {r : RxRing} (h : RingInv r) {p : RxPacket} {ps : List RxPacket}
    (hu : r.unread = p :: ps) (ht : r.taken = 0) :
    r.call = (((p.data.length : Int), p.data), r.driver.advance (p.length - 4)) := by
  obtain ⟨hoff, hread⟩ := h.first ht
  have hstored := h.stored
  rw [hu] at hstored
  rw [RxRing.call, hu]
  refine RxDriver.networkReceivePacket_packet h.initialized hstored.1 ?_
  rw [hoff, hread]
  rfl

theorem RingInv.step {r : RxRing} (h : RingInv r) {e : RxEvent} (he : e.Allowed r) :
    RingInv (e.apply r) := by
  cases e with
  | deposit p =>
    refine ⟨h.initialized, h.stored.deposit h.writeOffset he, ?_, h.first, h.second⟩
    change p.next r.writeOffset = ringEnd r.readOffset (r.unread ++ [p])
    rw [ringEnd_append, h.writeOffset]
  | receive =>
    cases hu : r.unread with
    | nil =>
      have hsame : r.receive = { r with driver := r.call.2 } := by
        rw [RxRing.receive, hu]
      change RingInv r.receive
      rwa [hsame, r.call_nil h.initialized hu]
    | cons p ps =>
      have hr : r.receive = ⟨r.call.2, r.writeOffset, p.next r.readOffset, ps, r.taken + 1⟩ := by
        rw [RxRing.receive, hu]
      obtain ⟨rxOffset, hcall⟩ := r.driver.networkReceivePacket_frame r.unread.isEmpty 1518
      have hstored := h.stored
      have hwrite := h.writeOffset
      rw [hu] at hstored hwrite
      change RingInv r.receive
      rw [hr]
      refine ⟨?_, ?_, hwrite, fun ht => absurd ht (Nat.succ_ne_zero _), fun ht => ?_⟩
      · rw [RxRing.call, hcall]
        exact h.initialized
      · rw [RxRing.call, hcall]
        exact hstored.2
      · have h0 : r.taken = 0 := Nat.succ.inj ht
        obtain ⟨hoff, hread⟩ := h.first h0
        rw [h.call_first hu h0, hread]
        exact RxDriver.advance_start hoff

/-- What the first call to find a packet has to return, it returns. -/
theorem RingInv.delivers {r : RxRing} (h : RingInv r) {e : RxEvent} (he : FirstOnly e r) :
    Delivers e r := by
  cases e with
  | deposit p => trivial
  | receive =>
    cases hu : r.unread with
    | nil =>
      rw [Delivers, hu, r.call_nil h.initialized hu]
      rfl
    | cons p ps =>
      have ht : r.taken = 0 := he (by rw [hu]; exact List.cons_ne_nil p ps)
      rw [Delivers, hu, h.call_first hu ht]
      rfl

/-- What the second one has to return, it returns only if it repeats its header. -/
theorem RingInv.second_repeats {r : RxRing} (h : RingInv r) {p : RxPacket} {ps : List RxPacket}
    (hu : r.unread = p :: ps) (ht : r.taken = 1) (hd : Delivers .receive r) :
    p.RepeatsHeader := by
  have hstored := h.stored
  rw [hu] at hstored
  rw [Delivers, RxRing.call, hu] at hd
  exact RxDriver.repeatsHeader_of_early hstored.1 (h.second ht) hd

theorem RingInv.run_delivers {es : List RxEvent} {r : RxRing} (h : RingInv r)
    (hes : Every RxEvent.apply RxEvent.Allowed es r) (hfirst : Every RxEvent.apply FirstOnly es r) :
    Every RxEvent.apply Delivers es r := by
  induction es generalizing r with
  | nil => trivial
  | cons e es ih => exact ⟨h.delivers hfirst.1, ih (h.step hes.1) hes.2 hfirst.2⟩

def Deposited (p : RxPacket) (es : List RxEvent) (r : RxRing) : Prop :=
  p ∈ r.unread ∨ .deposit p ∈ es

theorem Deposited.cons {p : RxPacket} {e : RxEvent} {es : List RxEvent} {r : RxRing}
    (h : Deposited p es (e.apply r)) : Deposited p (e :: es) r := by
  rcases h with hunread | hes
  · cases e with
    | deposit q =>
      rcases List.mem_append.mp hunread with hold | hnew
      · exact .inl hold
      · rw [List.mem_singleton.mp hnew]
        exact .inr List.mem_cons_self
    | receive =>
      refine .inl ?_
      change p ∈ r.receive.unread at hunread
      rw [RxRing.receive] at hunread
      split at hunread
      · exact hunread
      · next hu =>
        rw [hu]
        exact List.mem_cons_of_mem _ hunread
  · exact .inr (List.mem_cons_of_mem _ hes)

theorem RingInv.run_first {es : List RxEvent} {r : RxRing} (h : RingInv r) (ht : r.taken ≤ 1)
    (hes : Every RxEvent.apply RxEvent.Allowed es r) (hd : Every RxEvent.apply Delivers es r) :
    Every RxEvent.apply FirstOnly es r ∨ ∃ p, Deposited p es r ∧ p.RepeatsHeader := by
  induction es generalizing r with
  | nil => exact .inl trivial
  | cons e es ih =>
    have hrest : (e.apply r).taken ≤ 1 → FirstOnly e r →
        Every RxEvent.apply FirstOnly (e :: es) r ∨ ∃ p, Deposited p (e :: es) r ∧
          p.RepeatsHeader := by
      intro ht' hfirst
      rcases ih (h.step hes.1) ht' hes.2 hd.2 with hes' | ⟨p, hp, hrepeats⟩
      · exact .inl ⟨hfirst, hes'⟩
      · exact .inr ⟨p, hp.cons, hrepeats⟩
    cases e with
    | deposit p => exact hrest ht trivial
    | receive =>
      cases hu : r.unread with
      | nil =>
        refine hrest ?_ fun hne => absurd hu hne
        change r.receive.taken ≤ 1
        rw [RxRing.receive, hu]
        exact ht
      | cons p ps =>
        rcases Nat.lt_or_eq_of_le ht with h0 | h1
        · refine hrest ?_ fun _ => Nat.lt_one_iff.mp h0
          change r.receive.taken ≤ 1
          rw [RxRing.receive, hu]
          exact h0
        · refine .inr ⟨p, .inl ?_, h.second_repeats hu h1 hd.1⟩
          rw [hu]
          exact List.mem_cons_self

/-- **The ring delivers as long as one packet is taken, and no longer, unless a packet repeats its
header.** -/
theorem ring_delivers_first (rxBuffer : Memory) {es : List RxEvent}
    (hes : Every RxEvent.apply RxEvent.Allowed es (.start rxBuffer)) :
    (Every RxEvent.apply FirstOnly es (.start rxBuffer) →
      Every RxEvent.apply Delivers es (.start rxBuffer)) ∧
    (Every RxEvent.apply Delivers es (.start rxBuffer) →
      (∀ p, .deposit p ∈ es → ¬ p.RepeatsHeader) →
      Every RxEvent.apply FirstOnly es (.start rxBuffer)) := by
  have hinv := ringInv_start rxBuffer
  refine ⟨hinv.run_delivers hes, fun hd hplain => ?_⟩
  refine (hinv.run_first (Nat.zero_le 1) hes hd).resolve_right ?_
  rintro ⟨p, hp, hrepeats⟩
  exact hplain p (hp.resolve_left List.not_mem_nil) hrepeats

def smallPacket : RxPacket :=
  ⟨1, List.replicate 60 0x41, [0x43, 0xF0, 0xEE, 0x30], by decide, rfl, by decide, by decide⟩

theorem one_packet_delivered :
    Every RxEvent.apply Delivers [.deposit smallPacket, .receive, .receive] (.start fun _ => 0) :=
  (ring_delivers_first (fun _ => 0) (show Every RxEvent.apply RxEvent.Allowed
    [.deposit smallPacket, .receive, .receive] (.start fun _ => 0) from
      ⟨trivial, trivial, trivial, trivial⟩)).1
    ⟨trivial, fun _ => rfl, fun h => absurd rfl h, trivial⟩

/-- The second is looked for in the CRC of the first. -/
theorem second_packet_lost :
    Every RxEvent.apply RxEvent.Allowed
      [.deposit smallPacket, .receive, .deposit smallPacket, .receive] (.start fun _ => 0) ∧
    ¬ Every RxEvent.apply Delivers
      [.deposit smallPacket, .receive, .deposit smallPacket, .receive] (.start fun _ => 0) := by
  refine ⟨⟨trivial, trivial, trivial, trivial, trivial⟩, ?_⟩
  rintro ⟨-, -, -, h, -⟩
  have hcode := congrArg Prod.fst h
  revert hcode
  decide +kernel

end EphemeralOS
