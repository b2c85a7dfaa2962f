import EphemeralOS.Drivers.Disk
import EphemeralOS.Kernel.Memory
import EphemeralOS.Lib.Simulation

/-!
# The disk driver and the drive

`drivers/disk.c` down to its ports: `disk_read_sectors` and
`disk_write_sectors` are programs over the ports of a controller (`AtaPorts`),
and `Drive` is the controller on the other side, with its registers, the sector
in transit, and how long it stays busy. How long is not up to the driver: each
busy period takes its length from a schedule (`Drive.delays`).

A call that finds the drive at rest, and asks for sectors that there are, moves
as many of them as become ready within the rounds of the waiting loops
(`Drive.prompt`). `disk_read_sectors` zero-fills the rest of the buffer,
and `disk_write_sectors` leaves the rest of the sectors alone
(`diskReadSectors_prompt`, `diskWriteSectors_prompt`). So a drive that is never
that slow is the sector store of `Drivers/Disk.lean`, in every run
(`drive_refines_disk`), and a timeout is a read that is scheduled to fail there
(`diskReadSectors_one`).
-/

namespace EphemeralOS

/-- The ports of a controller. `insw` and `outsw` move 16-bit words, here as their bytes. -/
structure AtaPorts (δ : Type) where
  inb : UInt16 → δ → UInt8 × δ
  outb : UInt16 → UInt8 → δ → δ
  insw : UInt16 → Nat → δ → List UInt8 × δ
  outsw : UInt16 → List UInt8 → δ → δ

def ataRounds : Nat := 10000000

theorem ataRounds_eq : ataRounds = 9999999 + 1 := rfl

attribute [irreducible] ataRounds

section Driver

variable {δ : Type} (io : AtaPorts δ)

def ataWaitBsyLoop : Nat → δ → Bool × δ
  | 0, d => (false, d)
  | rounds + 1, d =>
    let (status, d) := io.inb 0x1F7 d
    if status &&& 0x80 = 0 then (true, d) else ataWaitBsyLoop rounds d

def ataWaitBsy (d : δ) : Bool × δ := ataWaitBsyLoop io ataRounds d

def ataWaitDrqLoop : Nat → δ → Bool × δ
  | 0, d => (false, d)
  | rounds + 1, d =>
    let (status, d) := io.inb 0x1F7 d
    if status &&& 0x08 ≠ 0 then (true, d)
    else if status &&& 0x01 ≠ 0 then (false, d)
    else ataWaitDrqLoop rounds d

def ataWaitDrq (d : δ) : Bool × δ := ataWaitDrqLoop io ataRounds d

def ataCommand (lba : UInt32) (sectorCount command : UInt8) (d : δ) : δ :=
  let d := io.outb 0x1F6 ((0xE0 : UInt8) ||| ((lba >>> 24) &&& 0x0F).toUInt8) d
  let d := io.outb 0x1F2 sectorCount d
  let d := io.outb 0x1F3 lba.toUInt8 d
  let d := io.outb 0x1F4 (lba >>> 8).toUInt8 d
  let d := io.outb 0x1F5 (lba >>> 16).toUInt8 d
  io.outb 0x1F7 command d

/-- `buffer[j] = 0` for `j` from `i * 512` to `sector_count * 512`. -/
def zeroFill (sectorCount i : Nat) (buffer : Memory) : Memory :=
  buffer.store (i * 512) (List.replicate ((sectorCount - i) * 512) 0)

/-- The loop of `disk_read_sectors`, from sector `i` on with `rounds` rounds left. -/
def readSectorsLoop (sectorCount : Nat) : Nat → Nat → Memory → δ → Memory × δ
  | 0, _, buffer, d => (buffer, d)
  | rounds + 1, i, buffer, d =>
    let (ready, d) := ataWaitBsy io d
    if !ready then (zeroFill sectorCount i buffer, d) else
    let (ready, d) := ataWaitDrq io d
    if !ready then (zeroFill sectorCount i buffer, d) else
    let (data, d) := io.insw 0x1F0 256 d
    readSectorsLoop sectorCount rounds (i + 1) (buffer.store (i * 512) data) d

/-- `disk_read_sectors`: the buffer it leaves. -/
def diskReadSectors (lba : UInt32) (sectorCount : UInt8) (buffer : Memory) (d : δ) : Memory × δ :=
  let (ready, d) := ataWaitBsy io d
  if !ready then (zeroFill sectorCount.toNat 0 buffer, d) else
  readSectorsLoop io sectorCount.toNat sectorCount.toNat 0 buffer
    (ataCommand io lba sectorCount 0x20 d)

/-- The loop of `disk_write_sectors`; `false` when it gives up. -/
def writeSectorsLoop (buffer : Memory) : Nat → Nat → δ → Bool × δ
  | 0, _, d => (true, d)
  | rounds + 1, i, d =>
    let (ready, d) := ataWaitBsy io d
    if !ready then (false, d) else
    let (ready, d) := ataWaitDrq io d
    if !ready then (false, d) else
    writeSectorsLoop buffer rounds (i + 1) (io.outsw 0x1F0 (buffer.bytes (i * 512) 512) d)

def diskWriteSectors (lba : UInt32) (sectorCount : UInt8) (buffer : Memory) (d : δ) : δ :=
  let (ready, d) := ataWaitBsy io d
  if !ready then d else
  let (done, d) := writeSectorsLoop io buffer sectorCount.toNat 0
    (ataCommand io lba sectorCount 0x30 d)
  if !done then d else
  let (ready, d) := ataWaitBsy io d
  if ready then (ataWaitBsy io (io.outb 0x1F7 0xE7 d)).2 else d

end Driver

/-! ## The drive -/

inductive AtaPhase
  | idle
  /-- `data` of the current sector is still to be read; `left` sectors from `next` on follow. -/
  | dataIn (data : List UInt8) (next left : Nat)
  /-- `data` of sector `lba` has been written so far; `left` sectors follow it. -/
  | dataOut (data : List UInt8) (lba left : Nat)
  | error

def AtaPhase.moving : AtaPhase → Bool
  | dataIn .. | dataOut .. => true
  | idle | error => false

/-- A drive with 28-bit sector addresses. -/
structure Drive where
  sectors : Nat → Sector
  size : Nat
  sectorCount : UInt8
  lbaLow : UInt8
  lbaMid : UInt8
  lbaHigh : UInt8
  device : UInt8
  phase : AtaPhase
  /-- How many more times the status is read with BSY set. -/
  busy : Nat
  /-- The lengths of the busy periods to come; those past the end are 0. -/
  delays : List Nat

namespace Drive

/-- A busy period, and then `phase`. -/
def await (phase : AtaPhase) (v : Drive) : Drive :=
  { v with phase := phase, busy := v.delays.headD 0, delays := v.delays.tail }

/-- The status register: BSY, else DRQ while data is to be moved, or ERR. -/
def status (v : Drive) : UInt8 :=
  if v.busy ≠ 0 then 0xD0 else
  match v.phase with
  | .idle => 0x50
  | .dataIn .. | .dataOut .. => 0x58
  | .error => 0x51

/-- Reading the status register; a busy period gets shorter. -/
def readStatus (v : Drive) : UInt8 × Drive := (v.status, { v with busy := v.busy - 1 })

def address (v : Drive) : Nat :=
  (v.device &&& 0x0F).toNat * 2 ^ 24 + v.lbaHigh.toNat * 2 ^ 16 + v.lbaMid.toNat * 2 ^ 8 +
    v.lbaLow.toNat

/-- The number of sectors asked for; 0 stands for 256. -/
def asked (v : Drive) : Nat := if v.sectorCount = 0 then 256 else v.sectorCount.toNat

/-- The registers name sectors that there are, by their address. -/
def Addressed (v : Drive) : Prop := v.device &&& 0x40 ≠ 0 ∧ v.address + v.asked ≤ v.size

instance (v : Drive) : Decidable v.Addressed := inferInstanceAs (Decidable (_ ∧ _))

/-- The commands READ SECTORS, WRITE SECTORS and FLUSH CACHE. A command in the middle of a transfer
is an error. -/
def command (code : UInt8) (v : Drive) : Drive :=
  if v.phase.moving then v.await .error
  else if code = 0x20 ∧ v.Addressed then
    v.await (.dataIn (v.sectors v.address).val (v.address + 1) (v.asked - 1))
  else if code = 0x30 ∧ v.Addressed then v.await (.dataOut [] v.address (v.asked - 1))
  else if code = 0xE7 then v.await .idle
  else v.await .error

/-- A write to a register. A busy drive takes none. -/
def writePort (port : UInt16) (value : UInt8) (v : Drive) : Drive :=
  if v.busy ≠ 0 then v
  else if port = 0x1F2 then { v with sectorCount := value }
  else if port = 0x1F3 then { v with lbaLow := value }
  else if port = 0x1F4 then { v with lbaMid := value }
  else if port = 0x1F5 then { v with lbaHigh := value }
  else if port = 0x1F6 then { v with device := value }
  else if port = 0x1F7 then v.command value
  else v

/-- After a sector has been read: the next one, if any are left. -/
def nextIn (v : Drive) (next : Nat) : Nat → AtaPhase
  | 0 => .idle
  | left + 1 => .dataIn (v.sectors next).val (next + 1) left

def nextOut (next : Nat) : Nat → AtaPhase
  | 0 => .idle
  | left + 1 => .dataOut [] next left

/-- `n` words of the sector in transit. After its last byte the next sector follows, if any. -/
def readData (n : Nat) (v : Drive) : List UInt8 × Drive :=
  match v.phase with
  | .dataIn data next left =>
    if v.busy ≠ 0 then (List.replicate (2 * n) 0xFF, v) else
    (data.take (2 * n) ++ List.replicate (2 * n - data.length) 0xFF,
      if 2 * n < data.length then { v with phase := .dataIn (data.drop (2 * n)) next left }
      else v.await (v.nextIn next left))
  | _ => (List.replicate (2 * n) 0xFF, v)

/-- Words for the sector in transit, which is stored when it is complete. -/
def writeData (data : List UInt8) (v : Drive) : Drive :=
  match v.phase with
  | .dataOut got lba left =>
    if v.busy ≠ 0 then v else
    if (got ++ data).length < 512 then { v with phase := .dataOut (got ++ data) lba left } else
    let sectors := Function.update v.sectors lba (Sector.ofBytes (got ++ data) 0)
    { v with sectors := sectors }.await (nextOut (lba + 1) left)
  | _ => v

def ports : AtaPorts Drive where
  inb port v := if port = 0x1F7 then v.readStatus else (0xFF, v)
  outb := writePort
  insw port n v := if port = 0x1F0 then v.readData n else (List.replicate (2 * n) 0xFF, v)
  outsw port data v := if port = 0x1F0 then v.writeData data else v

/-- The sectors as a disk on which every transfer succeeds. -/
def disk (v : Drive) : Disk := ⟨v.sectors, []⟩

/-- No busy period outlasts the waiting loops. -/
def Prompt (v : Drive) : Prop := v.busy < ataRounds ∧ ∀ d ∈ v.delays, d < ataRounds

def Ready (v : Drive) : Prop := v.phase = .idle ∧ v.Prompt

/-- The number of sectors, at most `n`, that a drive has ready in time. -/
def prompt : Nat → Nat → List Nat → Nat
  | 0, _, _ => 0
  | n + 1, busy, delays =>
    if busy < ataRounds then prompt n (delays.headD 0) delays.tail + 1 else 0

/-- The number of sectors that a call for `n` of them moves. -/
def moved (n : Nat) (v : Drive) : Nat :=
  if v.busy < ataRounds then prompt n (v.delays.headD 0) v.delays.tail else 0

end Drive

/-! ## Waiting -/

namespace Drive

theorem headD_lt {ds : List Nat} (h : ∀ d ∈ ds, d < ataRounds) : ds.headD 0 < ataRounds := by
  cases ds with
  | nil =>
    rw [ataRounds_eq]
    exact Nat.zero_lt_succ _
  | cons d ds => exact h d List.mem_cons_self

theorem Prompt.await {v : Drive} (h : v.Prompt) (phase : AtaPhase) : (v.await phase).Prompt :=
  ⟨headD_lt h.2, fun d hd => h.2 d (List.mem_of_mem_tail hd)⟩

theorem prompt_eq {n busy : Nat} {ds : List Nat} (hbusy : busy < ataRounds)
    (h : ∀ d ∈ ds, d < ataRounds) : prompt n busy ds = n := by
  induction n generalizing busy ds with
  | zero => rfl
  | succ n ih =>
    rw [prompt, if_pos hbusy, ih (headD_lt h) fun d hd => h d (List.mem_of_mem_tail hd)]

theorem moved_eq {v : Drive} (h : v.Prompt) (n : Nat) : v.moved n = n := by
  rw [moved, if_pos h.1, prompt_eq (headD_lt h.2) fun d hd => h.2 d (List.mem_of_mem_tail hd)]

theorem status_busy (v : Drive) : v.status &&& 0x80 = 0 ↔ v.busy = 0 := by
  unfold status
  by_cases h : v.busy = 0
  · rw [if_neg (not_not.mpr h)]
    refine iff_of_true ?_ h
    split <;> rfl
  · rw [if_pos h]
    exact iff_of_false (by decide) h

theorem ports_status (v : Drive) : ports.inb 0x1F7 v = (v.status, { v with busy := v.busy - 1 }) :=
  rfl

/-- The wait for BSY lasts as long as the busy period, or until the rounds are over. -/
theorem ataWaitBsyLoop_eq (rounds : Nat) (v : Drive) : ataWaitBsyLoop ports rounds v =
    if v.busy < rounds then (true, { v with busy := 0 })
    else (false, { v with busy := v.busy - rounds }) := by
  induction rounds generalizing v with
  | zero => rfl
  | succ rounds ih =>
    rw [ataWaitBsyLoop, ports_status]
    simp only [status_busy]
    by_cases h : v.busy = 0
    · rw [if_pos h, if_pos (by omega), h]
    · rw [if_neg h, ih]
      by_cases hlt : v.busy < rounds + 1
      · rw [if_pos (show v.busy - 1 < rounds by omega), if_pos hlt]
      · rw [if_neg (show ¬ v.busy - 1 < rounds by omega), if_neg hlt, Nat.sub_sub, Nat.add_comm 1]

theorem ataWaitBsy_prompt {v : Drive} (h : v.busy < ataRounds) :
    ataWaitBsy ports v = (true, { v with busy := 0 }) := by
  rw [ataWaitBsy, ataWaitBsyLoop_eq, if_pos h]

theorem ataWaitBsy_late {v : Drive} (h : ¬ v.busy < ataRounds) :
    ∃ v', ataWaitBsy ports v = (false, v') ∧ v'.sectors = v.sectors ∧ v'.size = v.size := by
  rw [ataWaitBsy, ataWaitBsyLoop_eq, if_neg h]
  exact ⟨_, rfl, rfl, rfl⟩

/-- There is data to be moved at once when a busy period is over. -/
theorem ataWaitDrq_eq {v : Drive} (hbusy : v.busy = 0) (h : v.status = 0x58) :
    ataWaitDrq ports v = (true, v) := by
  have hread : ports.inb 0x1F7 v = (0x58, v) := by
    rw [ports_status, h, hbusy]
    cases v
    cases hbusy
    rfl
  rw [ataWaitDrq, ataRounds_eq, ataWaitDrqLoop, hread]
  exact if_pos (by decide)

/-! ## The registers -/

theorem toNat_device (lba : UInt32) :
    (((0xE0 : UInt8) ||| ((lba >>> 24) &&& 0x0F).toUInt8) &&& 0x0F).toNat =
      lba.toNat / 2 ^ 24 % 16 := by
  have hx : ((lba >>> 24) &&& 0x0F).toUInt8.toNat = lba.toNat / 2 ^ 24 % 16 := by
    have h : ((lba >>> 24) &&& 0x0F).toNat = lba.toNat / 2 ^ 24 % 16 := by
      rw [UInt32.toNat_and, UInt32.toNat_shiftRight]
      change lba.toNat >>> 24 &&& 2 ^ 4 - 1 = _
      rw [Nat.and_two_pow_sub_one_eq_mod, Nat.shiftRight_eq_div_pow]
    rw [UInt32.toNat_toUInt8, h]
    omega
  rw [UInt8.toNat_and, UInt8.toNat_or, Nat.and_or_distrib_right, hx]
  change 0 ||| lba.toNat / 2 ^ 24 % 16 &&& 2 ^ 4 - 1 = _
  rw [Nat.zero_or, Nat.and_two_pow_sub_one_eq_mod, Nat.mod_mod]

theorem device_lba (x : UInt8) : ((0xE0 : UInt8) ||| x) &&& 0x40 ≠ 0 := by
  intro h
  have h' := congrArg UInt8.toNat h
  rw [UInt8.toNat_and, UInt8.toNat_or, Nat.and_or_distrib_right] at h'
  have := (Nat.or_eq_zero_iff.mp h').1
  exact absurd this (by decide)

/-- What `ataCommand` leaves in the registers. -/
def setup (lba : UInt32) (sectorCount : UInt8) (v : Drive) : Drive :=
  { v with
    sectorCount := sectorCount
    lbaLow := lba.toUInt8
    lbaMid := (lba >>> 8).toUInt8
    lbaHigh := (lba >>> 16).toUInt8
    device := (0xE0 : UInt8) ||| ((lba >>> 24) &&& 0x0F).toUInt8 }

theorem ataCommand_eq {v : Drive} (hbusy : v.busy = 0) (lba : UInt32) (sectorCount code : UInt8) :
    ataCommand ports lba sectorCount code v = (v.setup lba sectorCount).command code := by
  simp [ataCommand, ports, writePort, setup, hbusy]

/-- The address in the registers is what 28 bits hold of the one asked for. -/
theorem address_setup (lba : UInt32) (sectorCount : UInt8) (v : Drive) :
    (v.setup lba sectorCount).address = lba.toNat % 2 ^ 28 := by
  have h8 : (lba >>> 8).toUInt8.toNat = lba.toNat / 2 ^ 8 % 256 := by
    rw [UInt32.toNat_toUInt8, UInt32.toNat_shiftRight]
    change (lba.toNat >>> 8) % _ = _
    rw [Nat.shiftRight_eq_div_pow]
  have h16 : (lba >>> 16).toUInt8.toNat = lba.toNat / 2 ^ 16 % 256 := by
    rw [UInt32.toNat_toUInt8, UInt32.toNat_shiftRight]
    change (lba.toNat >>> 16) % _ = _
    rw [Nat.shiftRight_eq_div_pow]
  have h0 : lba.toUInt8.toNat = lba.toNat % 256 := UInt32.toNat_toUInt8 lba
  simp only [address, setup, toNat_device, h8, h16, h0]
  omega

theorem asked_setup (lba : UInt32) {sectorCount : UInt8} (h : sectorCount ≠ 0) (v : Drive) :
    (v.setup lba sectorCount).asked = sectorCount.toNat := if_neg h

def InRange (v : Drive) (lba : UInt32) (sectorCount : UInt8) : Prop :=
  sectorCount ≠ 0 ∧ lba.toNat % 2 ^ 28 + sectorCount.toNat ≤ v.size

theorem addressed_setup {v : Drive} {lba : UInt32} {sectorCount : UInt8}
    (h : v.InRange lba sectorCount) : (v.setup lba sectorCount).Addressed := by
  refine ⟨device_lba _, ?_⟩
  rw [address_setup, asked_setup lba h.1]
  exact h.2

/-! ## Reading -/

theorem object_succ (d : Disk) (lba n : Nat) :
    d.object lba (n + 1) = (d.sectors lba).val ++ d.object (lba + 1) n := by
  rw [Disk.object, List.range_succ_eq_map, List.flatMap_cons, List.flatMap_map]
  refine congrArg _ (List.flatMap_congr fun i _ => ?_)
  rw [Nat.add_assoc, Nat.add_comm 1 i]

theorem length_object (d : Disk) (lba n : Nat) : (d.object lba n).length = n * 512 := by
  induction n generalizing lba with
  | zero => rfl
  | succ n ih =>
    rw [object_succ, List.length_append, ih, (d.sectors lba).property]
    omega

theorem readData_sector {v : Drive} (hbusy : v.busy = 0) {sec : Sector} {next left : Nat}
    (h : v.phase = .dataIn sec.val next left) :
    v.readData 256 = (sec.val, v.await (v.nextIn next left)) := by
  have hlen : sec.val.length = 2 * 256 := sec.property
  simp only [readData, h, hbusy, ne_eq, not_true_eq_false, if_false, hlen, Nat.lt_irrefl,
    Nat.sub_self, List.replicate_zero, List.append_nil, List.take_of_length_le hlen.le]

theorem store_nil (m : Memory) (off : Nat) : m.store off [] = m :=
  funext fun _ => if_neg fun h => Nat.not_lt.mpr h.1 h.2

/-- **The loop of `disk_read_sectors`**, with `rounds` sectors from `next` on still to come: by
induction on their number. -/
theorem readSectorsLoop_prompt {count rounds i next : Nat} (hcount : count = i + rounds)
    {v : Drive} (hphase : v.phase = v.nextIn next rounds) (buffer : Memory) :
    ∃ v', readSectorsLoop ports count rounds i buffer v =
        (buffer.store (i * 512) (v.disk.object next (prompt rounds v.busy v.delays) ++
          List.replicate ((rounds - prompt rounds v.busy v.delays) * 512) 0), v') ∧
      v'.sectors = v.sectors ∧ v'.size = v.size ∧ (v.Prompt → v'.Ready) := by
  induction rounds generalizing i next v buffer with
  | zero =>
    refine ⟨v, ?_, rfl, rfl, fun h => ⟨hphase, h⟩⟩
    rw [prompt, readSectorsLoop, Nat.sub_zero, Nat.zero_mul, List.replicate_zero, List.append_nil]
    exact congrArg (·, v) (store_nil buffer _).symm
  | succ rounds ih =>
    rw [readSectorsLoop, prompt]
    by_cases hbusy : v.busy < ataRounds
    case neg =>
      -- the sector is late: zeros from here on
      obtain ⟨v', hwait, hsec, hsize⟩ := ataWaitBsy_late hbusy
      rw [hwait, if_neg hbusy, Nat.sub_zero]
      refine ⟨v', ?_, hsec, hsize, fun h => absurd h.1 hbusy⟩
      simp only [Bool.not_false, if_true, zeroFill]
      rw [show count - i = rounds + 1 by omega]
      rfl
    have hstatus : ({ v with busy := 0 } : Drive).status = 0x58 := by
      simp [status, hphase, nextIn]
    rw [ataWaitBsy_prompt hbusy, if_pos hbusy]
    simp only [Bool.not_true, Bool.false_eq_true, if_false]
    rw [ataWaitDrq_eq rfl hstatus]
    simp only [Bool.not_true, Bool.false_eq_true, if_false]
    let v1 : Drive := ({ v with busy := 0 } : Drive).await (v.nextIn (next + 1) rounds)
    have hdata : ports.insw 0x1F0 256 { v with busy := 0 } = ((v.sectors next).val, v1) :=
      readData_sector (v := { v with busy := 0 }) rfl hphase
    obtain ⟨v', hrun, hsec, hsize, hready⟩ := @ih (i + 1) (next + 1) (by omega) v1 rfl
      (buffer.store (i * 512) (v.sectors next).val)
    refine ⟨v', ?_, hsec, hsize, fun h => hready (Prompt.await (v := { v with busy := 0 }) ?_ _)⟩
    · refine (congrArg (fun x : List UInt8 × Drive =>
        readSectorsLoop ports count rounds (i + 1) (buffer.store (i * 512) x.1) x.2) hdata).trans ?_
      refine hrun.trans (congrArg (·, v') ?_)
      rw [object_succ, List.append_assoc, store_append _ _ (v.disk.sectors next).val,
        (v.disk.sectors next).property, ← Nat.succ_mul, Nat.succ_sub_succ]
      rfl
    · exact ⟨Nat.lt_of_le_of_lt (Nat.zero_le _) h.1, h.2⟩

theorem not_moving_setup {v : Drive} (h : v.phase.moving = false) (lba : UInt32)
    (sectorCount : UInt8) : ¬ (v.setup lba sectorCount).phase.moving = true :=
  ne_true_of_eq_false h

theorem toNat_count {sectorCount : UInt8} (h : sectorCount ≠ 0) :
    sectorCount.toNat = sectorCount.toNat - 1 + 1 := by
  have : sectorCount.toNat ≠ 0 := fun e => h (UInt8.toNat_inj.mp e)
  omega

theorem ataCommand_read {v : Drive} (hrest : v.phase.moving = false) (hbusy : v.busy = 0)
    {lba : UInt32} {sectorCount : UInt8} (h : v.InRange lba sectorCount) :
    ∃ v1, ataCommand ports lba sectorCount 0x20 v = v1 ∧
      v1.phase = v1.nextIn (lba.toNat % 2 ^ 28) sectorCount.toNat ∧ v1.busy = v.delays.headD 0 ∧
      v1.delays = v.delays.tail ∧ v1.sectors = v.sectors ∧ v1.size = v.size := by
  rw [ataCommand_eq hbusy, command, if_neg (not_moving_setup hrest lba sectorCount),
    if_pos ⟨rfl, addressed_setup h⟩, address_setup, asked_setup lba h.1]
  refine ⟨_, rfl, ?_, rfl, rfl, rfl, rfl⟩
  rw [toNat_count h.1]
  rfl

/-- **`disk_read_sectors`** delivers the sectors that are ready in time, and zeros after them. -/
theorem diskReadSectors_prompt {v : Drive} (hrest : v.phase.moving = false) {lba : UInt32}
    {sectorCount : UInt8} (h : v.InRange lba sectorCount) (buffer : Memory) :
    ∃ v', diskReadSectors ports lba sectorCount buffer v =
        (buffer.store 0 (v.disk.object (lba.toNat % 2 ^ 28) (v.moved sectorCount.toNat) ++
          List.replicate ((sectorCount.toNat - v.moved sectorCount.toNat) * 512) 0), v') ∧
      v'.sectors = v.sectors ∧ v'.size = v.size ∧ (v.Prompt → v'.Ready) := by
  rw [diskReadSectors, moved]
  by_cases hbusy : v.busy < ataRounds
  case neg =>
    obtain ⟨v', hwait, hsec, hsize⟩ := ataWaitBsy_late hbusy
    rw [hwait, if_neg hbusy]
    exact ⟨v', rfl, hsec, hsize, fun h => absurd h.1 hbusy⟩
  rw [ataWaitBsy_prompt hbusy, if_pos hbusy]
  simp only [Bool.not_true, Bool.false_eq_true, if_false]
  obtain ⟨v1, hcmd, hphase, hbusy1, hdelays, hsec1, hsize1⟩ :=
    ataCommand_read (v := { v with busy := 0 }) hrest rfl h
  obtain ⟨v', hrun, hsec, hsize, hready⟩ := readSectorsLoop_prompt (v := v1) (i := 0)
    (Nat.zero_add _).symm hphase buffer
  have hdisk : v1.disk = v.disk := congrArg (Disk.mk · []) hsec1
  rw [hcmd, hrun, hbusy1, hdelays, hdisk, Nat.zero_mul]
  refine ⟨v', rfl, hsec.trans hsec1, hsize.trans hsize1, fun hp => hready ?_⟩
  unfold Prompt
  rw [hbusy1, hdelays]
  exact (Prompt.await hp .idle)

/-! ## Writing -/

theorem ataCommand_write {v : Drive} (hrest : v.phase.moving = false) (hbusy : v.busy = 0)
    {lba : UInt32} {sectorCount : UInt8} (h : v.InRange lba sectorCount) :
    ∃ v1, ataCommand ports lba sectorCount 0x30 v = v1 ∧
      v1.phase = nextOut (lba.toNat % 2 ^ 28) sectorCount.toNat ∧ v1.busy = v.delays.headD 0 ∧
      v1.delays = v.delays.tail ∧ v1.sectors = v.sectors ∧ v1.size = v.size := by
  rw [ataCommand_eq hbusy, command, if_neg (not_moving_setup hrest lba sectorCount),
    if_neg fun e => absurd e.1 (by decide), if_pos ⟨rfl, addressed_setup h⟩, address_setup,
    asked_setup lba h.1]
  refine ⟨_, rfl, ?_, rfl, rfl, rfl, rfl⟩
  rw [toNat_count h.1]
  rfl

/-- The sector that the 512 bytes from `buffer[i * 512]` on make. -/
def sectorAt (buffer : Memory) (i : Nat) : Sector :=
  ⟨buffer.bytes (i * 512) 512, Memory.length_bytes _ _ _⟩

theorem val_sectorAt (buffer : Memory) (i : Nat) :
    (sectorAt buffer i).val = buffer.bytes (i * 512) 512 := by rw [sectorAt]

theorem ofBytes_of_length {l : List UInt8} (h : l.length = 512) : Sector.ofBytes l 0 = ⟨l, h⟩ := by
  refine Subtype.ext ?_
  change Binary.chunk 512 l 0 = l
  rw [Binary.chunk, Nat.zero_mul, List.drop_zero, List.take_of_length_le h.le, h, Nat.sub_self,
    List.replicate_zero, List.append_nil]

theorem ofBytes_sectorAt (buffer : Memory) (i : Nat) :
    Sector.ofBytes ([] ++ buffer.bytes (i * 512) 512) 0 = sectorAt buffer i := by
  rw [List.nil_append]
  exact ofBytes_of_length (Memory.length_bytes _ _ _)

theorem writeData_sector {v : Drive} (hbusy : v.busy = 0) {lba left : Nat}
    (h : v.phase = .dataOut [] lba left) (buffer : Memory) (i : Nat) :
    v.writeData (buffer.bytes (i * 512) 512) =
      { v with sectors := Function.update v.sectors lba (sectorAt buffer i) }.await
        (nextOut (lba + 1) left) := by
  have hlen : ¬ ([] ++ buffer.bytes (i * 512) 512).length < 512 := by
    rw [List.nil_append, Memory.length_bytes]
    exact Nat.lt_irrefl _
  unfold writeData
  rw [h]
  dsimp only
  rw [if_neg (not_not.mpr hbusy), if_neg hlen, ofBytes_sectorAt]

/-- `k` sectors from `lba` on hold what the buffer holds from sector `i` on. -/
def Stored (v v' : Drive) (buffer : Memory) (i lba k : Nat) : Prop :=
  ∀ x, v'.sectors x =
    if lba ≤ x ∧ x < lba + k then sectorAt buffer (i + (x - lba)) else v.sectors x

theorem Stored.none (v : Drive) (buffer : Memory) (i lba : Nat) {v' : Drive}
    (h : v'.sectors = v.sectors) : Stored v v' buffer i lba 0 := fun x => by
  rw [h, if_neg (by omega)]

/-- **The loop of `disk_write_sectors`**, with `rounds` sectors from `lba` on still to come. -/
theorem writeSectorsLoop_prompt {rounds i lba : Nat} {v : Drive}
    (hphase : v.phase = nextOut lba rounds) (buffer : Memory) :
    ∃ done v', writeSectorsLoop ports buffer rounds i v = (done, v') ∧
      Stored v v' buffer i lba (prompt rounds v.busy v.delays) ∧ v'.size = v.size ∧
      (v.Prompt → done = true ∧ v'.Ready) := by
  induction rounds generalizing i lba v with
  | zero => exact ⟨true, v, rfl, .none v buffer i lba rfl, rfl, fun h => ⟨rfl, hphase, h⟩⟩
  | succ rounds ih =>
    rw [writeSectorsLoop, prompt]
    by_cases hbusy : v.busy < ataRounds
    case neg =>
      obtain ⟨v', hwait, hsec, hsize⟩ := ataWaitBsy_late hbusy
      rw [hwait, if_neg hbusy]
      exact ⟨false, v', rfl, .none v buffer i lba hsec, hsize, fun h => absurd h.1 hbusy⟩
    have hstatus : ({ v with busy := 0 } : Drive).status = 0x58 := by
      simp [status, hphase, nextOut]
    rw [ataWaitBsy_prompt hbusy, if_pos hbusy]
    simp only [Bool.not_true, Bool.false_eq_true, if_false]
    rw [ataWaitDrq_eq rfl hstatus]
    simp only [Bool.not_true, Bool.false_eq_true, if_false]
    let v1 : Drive := ({ v with
      busy := 0, sectors := Function.update v.sectors lba (sectorAt buffer i) } : Drive).await
      (nextOut (lba + 1) rounds)
    have hdata : ports.outsw 0x1F0 (buffer.bytes (i * 512) 512) { v with busy := 0 } = v1 :=
      writeData_sector (v := { v with busy := 0 }) rfl hphase buffer i
    obtain ⟨done, v', hrun, hstored, hsize, hready⟩ :=
      @ih (i + 1) (lba + 1) v1 rfl
    refine ⟨done, v', hdata ▸ hrun, fun x => ?_, hsize, fun h => hready ?_⟩
    · refine (hstored x).trans ?_
      change (if lba + 1 ≤ x ∧ x < lba + 1 + prompt rounds (v.delays.headD 0) v.delays.tail then _
        else Function.update v.sectors lba (sectorAt buffer i) x) = _
      by_cases hx : x = lba
      · rw [if_neg (by omega), if_pos (by omega), hx, Function.update_self, Nat.sub_self]
        rfl
      · rw [Function.update_of_ne hx]
        by_cases hin : lba + 1 ≤ x
        · rw [show i + 1 + (x - (lba + 1)) = i + (x - lba) by omega]
          exact if_congr (by omega) rfl rfl
        · rw [if_neg (by omega), if_neg (by omega)]
    · exact Prompt.await (v := { v with
        busy := 0, sectors := Function.update v.sectors lba (sectorAt buffer i) })
        ⟨Nat.lt_of_le_of_lt (Nat.zero_le _) h.1, h.2⟩ _

theorem sectors_writePort (port : UInt16) (value : UInt8) (v : Drive) :
    (v.writePort port value).sectors = v.sectors ∧ (v.writePort port value).size = v.size := by
  simp only [writePort, command]
  repeat' split
  all_goals exact ⟨rfl, rfl⟩

theorem sectors_ataWaitBsy (v : Drive) :
    (ataWaitBsy ports v).2.sectors = v.sectors ∧ (ataWaitBsy ports v).2.size = v.size := by
  by_cases h : v.busy < ataRounds
  · rw [ataWaitBsy_prompt h]
    exact ⟨rfl, rfl⟩
  · obtain ⟨v', hwait, hsec, hsize⟩ := ataWaitBsy_late h
    rw [hwait]
    exact ⟨hsec, hsize⟩

theorem Ready.waited {v : Drive} (h : v.Ready) : ataWaitBsy ports v = (true, { v with busy := 0 }) ∧
    ({ v with busy := 0 } : Drive).Ready :=
  ⟨ataWaitBsy_prompt h.2.1, h.1, Nat.lt_of_le_of_lt (Nat.zero_le _) h.2.1, h.2.2⟩

/-- **`disk_write_sectors`** writes the sectors that are asked for in time, and no others. -/
theorem diskWriteSectors_prompt {v : Drive} (hrest : v.phase.moving = false) {lba : UInt32}
    {sectorCount : UInt8} (h : v.InRange lba sectorCount) (buffer : Memory) :
    let v' := diskWriteSectors ports lba sectorCount buffer v
    Stored v v' buffer 0 (lba.toNat % 2 ^ 28) (v.moved sectorCount.toNat) ∧ v'.size = v.size ∧
      (v.Prompt → v'.Ready) := by
  intro v'
  unfold v'
  rw [diskWriteSectors, moved]
  by_cases hbusy : v.busy < ataRounds
  case neg =>
    obtain ⟨v', hwait, hsec, hsize⟩ := ataWaitBsy_late hbusy
    rw [hwait, if_neg hbusy]
    exact ⟨.none v buffer _ _ hsec, hsize, fun h => absurd h.1 hbusy⟩
  rw [ataWaitBsy_prompt hbusy, if_pos hbusy]
  simp only [Bool.not_true, Bool.false_eq_true, if_false]
  obtain ⟨v1, hcmd, hphase, hbusy1, hdelays, hsec1, hsize1⟩ :=
    ataCommand_write (v := { v with busy := 0 }) hrest rfl h
  obtain ⟨done, v2, hrun, hstored, hsize2, hready⟩ :=
    writeSectorsLoop_prompt (i := 0) hphase buffer
  rw [hcmd, hrun]
  rw [hbusy1, hdelays] at hstored
  have hstored2 : Stored v v2 buffer 0 (lba.toNat % 2 ^ 28)
      (prompt sectorCount.toNat (v.delays.headD 0) v.delays.tail) := fun x => by
    rw [hstored x, hsec1]
  have hprompt : v.Prompt → v1.Prompt := fun hp => by
    unfold Prompt
    rw [hbusy1, hdelays]
    exact Prompt.await hp .idle
  -- the two waits and the flush leave the sectors alone
  have hkeep : ∀ w : Drive, w.sectors = v2.sectors → w.size = v2.size → (v.Prompt → w.Ready) →
      Stored v w buffer 0 (lba.toNat % 2 ^ 28)
          (prompt sectorCount.toNat (v.delays.headD 0) v.delays.tail) ∧ w.size = v.size ∧
        (v.Prompt → w.Ready) := fun w hsec hsize hw =>
    ⟨fun x => by rw [hsec, hstored2 x], hsize.trans (hsize2.trans hsize1), hw⟩
  cases done with
  | false => exact hkeep v2 rfl rfl fun hp => absurd (hready (hprompt hp)).1 (by decide)
  | true =>
    obtain ⟨hsec3, hsize3⟩ := sectors_ataWaitBsy v2
    simp only [Bool.not_true, Bool.false_eq_true, if_false]
    by_cases hwait : (ataWaitBsy ports v2).1 = true
    case neg =>
      rw [if_neg hwait]
      refine hkeep _ hsec3 hsize3 fun hp => absurd ?_ hwait
      rw [(hready (hprompt hp)).2.waited.1]
    rw [if_pos hwait]
    obtain ⟨hsec4, hsize4⟩ := sectors_writePort 0x1F7 0xE7 (ataWaitBsy ports v2).2
    obtain ⟨hsec5, hsize5⟩ :=
      sectors_ataWaitBsy (ports.outb 0x1F7 0xE7 (ataWaitBsy ports v2).2)
    refine hkeep _ (hsec5.trans (hsec4.trans hsec3)) (hsize5.trans (hsize4.trans hsize3))
      fun hp => ?_
    obtain ⟨h3, hready3⟩ := (hready (hprompt hp)).2.waited
    have hflush : ports.outb 0x1F7 0xE7 { v2 with busy := 0 } =
        ({ v2 with busy := 0 } : Drive).await .idle := by
      have hm : ({ v2 with busy := 0 } : Drive).phase.moving = false := by rw [hready3.1]; rfl
      simp [ports, writePort, command, hm]
    rw [h3, hflush]
    have hready4 : (({ v2 with busy := 0 } : Drive).await .idle).Ready :=
      ⟨rfl, hready3.2.await .idle⟩
    rw [hready4.waited.1]
    exact hready4.waited.2

/-! ## Late sectors -/

theorem prompt_le (n busy : Nat) (ds : List Nat) : prompt n busy ds ≤ n := by
  induction n generalizing busy ds with
  | zero => exact Nat.le_refl _
  | succ n ih =>
    rw [prompt]
    split
    · exact Nat.succ_le_succ (ih _ _)
    · exact Nat.zero_le _

theorem moved_le (n : Nat) (v : Drive) : v.moved n ≤ n := by
  rw [moved]
  split
  · exact prompt_le _ _ _
  · exact Nat.zero_le _

/-- The busy periods that the `n` sectors of a call depend on. -/
theorem prompt_eq_iff (n busy : Nat) (ds : List Nat) :
    prompt n busy ds = n ↔ ∀ d ∈ (busy :: ds).take n, d < ataRounds := by
  induction n generalizing busy ds with
  | zero => exact iff_of_true rfl fun d hd => by cases hd
  | succ n ih =>
    rw [prompt, List.take_succ_cons, List.forall_mem_cons]
    by_cases hbusy : busy < ataRounds
    · rw [if_pos hbusy, Nat.succ_inj, ih]
      refine Iff.trans ?_ (and_iff_right hbusy).symm
      cases ds with
      | cons d ds => exact Iff.rfl
      | nil =>
        -- a period past the end of the schedule is over at once
        refine iff_of_true (fun d hd => ?_) fun d hd => ?_
        · rw [List.mem_singleton.mp (List.mem_of_mem_take hd)]
          exact headD_lt fun d hd => absurd hd List.not_mem_nil
        · rw [List.take_nil] at hd
          cases hd
    · rw [if_neg hbusy]
      exact iff_of_false (by omega) fun h => hbusy h.1

theorem moved_eq_iff (n : Nat) (hn : n ≠ 0) (v : Drive) :
    v.moved n = n ↔ ∀ d ∈ (v.busy :: v.delays).take (n + 1), d < ataRounds := by
  have hsplit := prompt_eq_iff (n + 1) v.busy v.delays
  rw [← hsplit, moved, prompt]
  by_cases hbusy : v.busy < ataRounds
  · rw [if_pos hbusy, if_pos hbusy, Nat.succ_inj]
  · rw [if_neg hbusy, if_neg hbusy]
    exact iff_of_false hn.symm (by omega)

/-- **A slow drive cuts a transfer short, at a sector**: a call moves some of the sectors, the same
ones in both directions, and it moves all of them exactly if none of the busy periods that they
depend on outlasts the waiting loops. What a read does not get is zeros, and a write changes no
other sectors. -/
theorem transfer_cut_short {v : Drive} (hrest : v.phase.moving = false) {lba : UInt32}
    {sectorCount : UInt8} (h : v.InRange lba sectorCount) (buffer : Memory) :
    ∃ k ≤ sectorCount.toNat,
      (k = sectorCount.toNat ↔
        ∀ d ∈ (v.busy :: v.delays).take (sectorCount.toNat + 1), d < ataRounds) ∧
      (diskReadSectors ports lba sectorCount buffer v).1 =
        buffer.store 0 (v.disk.object (lba.toNat % 2 ^ 28) k ++
          List.replicate ((sectorCount.toNat - k) * 512) 0) ∧
      (diskReadSectors ports lba sectorCount buffer v).2.sectors = v.sectors ∧
      Stored v (diskWriteSectors ports lba sectorCount buffer v) buffer 0 (lba.toNat % 2 ^ 28) k := by
  have hn : sectorCount.toNat ≠ 0 := fun e => h.1 (UInt8.toNat_inj.mp e)
  obtain ⟨v', hread, hsec, -⟩ := diskReadSectors_prompt hrest h buffer
  refine ⟨v.moved sectorCount.toNat, moved_le _ v, moved_eq_iff _ hn v, ?_, ?_,
    (diskWriteSectors_prompt hrest h buffer).1⟩
  · rw [hread]
  · rw [hread]
    exact hsec

def lateSecond : Drive :=
  ⟨fun _ => Sector.zero, 2, 0, 0, 0, 0, 0, .idle, 3, [0, ataRounds]⟩

/-- One of the two sectors comes in time. -/
theorem transfer_cut_short_second : ∃ k ≤ 2,
    (k = 2 ↔ ∀ d ∈ (lateSecond.busy :: lateSecond.delays).take (2 + 1), d < ataRounds) ∧
    (diskReadSectors ports 0 2 (fun _ => 7) lateSecond).1 =
      Memory.store (fun _ => 7) 0 (lateSecond.disk.object ((0 : UInt32).toNat % 2 ^ 28) k ++
        List.replicate ((2 - k) * 512) 0) ∧
    (diskReadSectors ports 0 2 (fun _ => 7) lateSecond).2.sectors = lateSecond.sectors ∧
    Stored lateSecond (diskWriteSectors ports 0 2 (fun _ => 7) lateSecond) (fun _ => 7) 0
      ((0 : UInt32).toNat % 2 ^ 28) k :=
  transfer_cut_short (v := lateSecond) rfl (show lateSecond.InRange 0 2 from ⟨by decide, by decide⟩)
    fun _ => 7

/-! ## The sector store -/

/-- **A read of one sector is a read of the sector store**, scheduled to fail when the drive is
late. -/
theorem diskReadSectors_one {v : Drive} (hrest : v.phase.moving = false) {lba : UInt32}
    (h : v.InRange lba 1) (buffer : Memory) :
    ∃ late, (late = false ↔ v.moved 1 = 1) ∧
      (diskReadSectors ports lba 1 buffer v).1 =
        buffer.store 0 (({ v.disk with faults := [late] } : Disk).read (lba.toNat % 2 ^ 28)).1 := by
  obtain ⟨v', hread, -⟩ := diskReadSectors_prompt hrest h buffer
  rw [hread]
  refine ⟨decide (v.moved 1 ≠ 1), by simp, ?_⟩
  have hle : v.moved 1 ≤ 1 := moved_le 1 v
  by_cases hlate : v.moved 1 = 1
  · have hone : v.moved (1 : UInt8).toNat = 1 := hlate
    rw [decide_eq_false (not_not.mpr hlate), hone]
    simp only [Disk.object, List.range_one, List.flatMap_cons, List.flatMap_nil, List.append_nil,
      Nat.add_zero]
    exact congrArg (buffer.store 0) (List.append_nil _)
  · have hzero : v.moved (1 : UInt8).toNat = 0 := show v.moved 1 = 0 by omega
    have hzeros : Sector.zero.val = List.replicate 512 0 := by rw [Sector.zero]
    have hfailed : (({ v.disk with faults := [true] } : Disk).read (lba.toNat % 2 ^ 28)).1 =
        Sector.zero := rfl
    have hobject : v.disk.object (lba.toNat % 2 ^ 28) 0 = [] := rfl
    have hcount : ((1 : UInt8).toNat - 0) * 512 = 512 := rfl
    rw [decide_eq_true hlate, hzero, hfailed, hzeros, hobject, List.nil_append, hcount]

inductive Transfer
  | read (lba : UInt32) (sectorCount : UInt8) (buffer : Memory)
  | write (lba : UInt32) (sectorCount : UInt8) (buffer : Memory)

namespace Transfer

def onDrive : Transfer → Drive → Memory × Drive
  | read lba sectorCount buffer, v => diskReadSectors ports lba sectorCount buffer v
  | write lba sectorCount buffer, v => (buffer, diskWriteSectors ports lba sectorCount buffer v)

def onDisk : Transfer → Disk → Memory × Disk
  | read lba sectorCount buffer, d =>
    let (l, d) := d.readObject (lba.toNat % 2 ^ 28) sectorCount.toNat
    (buffer.store 0 l, d)
  | write lba sectorCount buffer, d =>
    (buffer, d.writeObject (lba.toNat % 2 ^ 28) (buffer.bytes 0 (sectorCount.toNat * 512))
      sectorCount.toNat)

def InRange (v : Drive) : Transfer → Prop
  | read lba sectorCount _ | write lba sectorCount _ => v.InRange lba sectorCount

end Transfer

theorem chunk_eq {n i : Nat} {l a b : List UInt8} (h : l.drop (i * n) = a ++ b)
    (ha : a.length = n) : Binary.chunk n l i = a := by
  rw [Binary.chunk, h, List.take_left' ha, ha, Nat.sub_self, List.replicate_zero, List.append_nil]

/-- A sector of a buffer is that sector of its bytes. -/
theorem ofBytes_bytes (buffer : Memory) {i n : Nat} (hi : i < n) :
    Sector.ofBytes (buffer.bytes 0 (n * 512)) i = sectorAt buffer i := by
  have hsplit : n * 512 = i * 512 + (512 + (n - i - 1) * 512) := by
    have : n = i + 1 + (n - i - 1) := by omega
    omega
  have hbytes : (buffer.bytes 0 (n * 512)).drop (i * 512) =
      (sectorAt buffer i).val ++ buffer.bytes (i * 512 + 512) ((n - i - 1) * 512) := by
    rw [hsplit, Memory.bytes_add, Memory.bytes_add, List.drop_left' (Memory.length_bytes _ _ _),
      Nat.zero_add, val_sectorAt]
  exact Subtype.ext (chunk_eq hbytes (sectorAt buffer i).2)

/-- **A transfer on a drive that is ready is one on its sectors.** -/
theorem Ready.transfer {v : Drive} (hv : v.Ready) {t : Transfer} (ht : t.InRange v) :
    t.onDisk v.disk = ((t.onDrive v).1, (t.onDrive v).2.disk) ∧ (t.onDrive v).2.Ready ∧
      (t.onDrive v).2.size = v.size := by
  have hrest : v.phase.moving = false := by rw [hv.1]; rfl
  cases t with
  | read lba sectorCount buffer =>
    obtain ⟨v', hread, hsec, hsize, hready⟩ := diskReadSectors_prompt hrest ht buffer
    rw [moved_eq hv.2, Nat.sub_self, Nat.zero_mul, List.replicate_zero, List.append_nil] at hread
    have hdisk : v'.disk = v.disk := congrArg (Disk.mk · []) hsec
    rw [Transfer.onDrive, hread, Transfer.onDisk, Disk.readObject_perfect (d := v.disk) rfl, hdisk]
    exact ⟨rfl, hready hv.2, hsize⟩
  | write lba sectorCount buffer =>
    obtain ⟨hstored, hsize, hready⟩ := diskWriteSectors_prompt hrest ht buffer
    rw [moved_eq hv.2] at hstored
    refine ⟨Prod.ext rfl ?_, hready hv.2, hsize⟩
    have hsectors : (v.disk.writeObject (lba.toNat % 2 ^ 28)
        (buffer.bytes 0 (sectorCount.toNat * 512)) sectorCount.toNat).sectors =
        (diskWriteSectors ports lba sectorCount buffer v).sectors := by
      funext x
      rw [Disk.sectors_writeObject, hstored x]
      split
      · next hx => rw [ofBytes_bytes buffer (by omega), Nat.zero_add]
      · rfl
    have hfaults := Disk.faults_writeObject (lba.toNat % 2 ^ 28)
      (buffer.bytes 0 (sectorCount.toNat * 512)) sectorCount.toNat v.disk
    exact (congrArg₂ Disk.mk hsectors hfaults)

/-- **A drive that is never too slow is a sector store**, in every run of transfers: each leaves
the same in its buffer, and the sectors are the same in the end. -/
theorem drive_refines_disk {v : Drive} (hv : v.Ready) {ts : List Transfer}
    (hts : ∀ t ∈ ts, t.InRange v) :
    (Simulation.answers Transfer.onDrive ts v).1 =
        (Simulation.answers Transfer.onDisk ts v.disk).1 ∧
      (Simulation.answers Transfer.onDrive ts v).2.disk =
        (Simulation.answers Transfer.onDisk ts v.disk).2 := by
  have hallowed : ∀ (ts : List Transfer) (w : Drive), (∀ t ∈ ts, t.InRange v) →
      Simulation.Allowed Transfer.onDrive (fun t _ => t.InRange v) ts w := by
    intro ts
    induction ts with
    | nil => exact fun _ _ => trivial
    | cons t ts ih =>
      exact fun w h => ⟨h t List.mem_cons_self, ih _ fun t' ht => h t' (List.mem_cons_of_mem _ ht)⟩
  have hrange : ∀ (t : Transfer) (w : Drive), w.size = v.size → t.InRange v → t.InRange w := by
    intro t w hw ht
    cases t <;> exact ⟨ht.1, hw ▸ ht.2⟩
  have hcall : ∀ (t : Transfer) (w : Drive) (d : Disk),
      (w.Ready ∧ w.size = v.size ∧ d = w.disk) → t.InRange v →
      ∃ d', Simulation.exactly Transfer.onDisk d t (t.onDrive w).1 d' ∧
        ((t.onDrive w).2.Ready ∧ (t.onDrive w).2.size = v.size ∧ d' = (t.onDrive w).2.disk) := by
    intro t w d ⟨hw, hsize, hd⟩ ht
    obtain ⟨h, hw', hsize'⟩ := hw.transfer (hrange t w hsize ht)
    exact ⟨_, (hd ▸ h : _ = _), hw', hsize'.trans hsize, rfl⟩
  obtain ⟨d, hruns, hready, -, hd⟩ :=
    Simulation.Runs.simulate hcall ⟨hv, rfl, rfl⟩ (hallowed ts v hts)
  rw [Simulation.runs_exactly] at hruns
  rw [hruns]
  exact ⟨rfl, hd.symm⟩

def slowButReady : Drive :=
  ⟨fun _ => Sector.zero, 2, 0, 0, 0, 0, 0, .idle, 3, [0, 5]⟩

theorem lt_ataRounds {n : Nat} (h : n < 9999999) : n < ataRounds := by
  rw [ataRounds_eq]
  omega

theorem drive_refines_disk_slow :
    let ts : List Transfer := [.write 1 1 fun _ => 7, .read 0 2 fun _ => 0]
    (Simulation.answers Transfer.onDrive ts slowButReady).1 =
        (Simulation.answers Transfer.onDisk ts slowButReady.disk).1 ∧
      (Simulation.answers Transfer.onDrive ts slowButReady).2.disk =
        (Simulation.answers Transfer.onDisk ts slowButReady.disk).2 :=
  drive_refines_disk (v := slowButReady)
    ⟨rfl, lt_ataRounds (by decide), fun d hd => lt_ataRounds (by
      rcases List.mem_cons.mp hd with rfl | hd
      · decide
      · rw [List.mem_singleton.mp hd]; decide)⟩
    fun t ht => by
      rcases List.mem_cons.mp ht with rfl | ht
      · exact ⟨by decide, by decide⟩
      · rw [List.mem_singleton.mp ht]
        exact ⟨by decide, by decide⟩

end Drive

end EphemeralOS
