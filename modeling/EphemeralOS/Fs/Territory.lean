import EphemeralOS.Fs.Run
import EphemeralOS.Fs.Writes

/-!
# The sectors of the file system

The functions that `filesystem.c` offers, but for the three that only look at the
superblock in memory, as calls (`FsCall`), and what may happen to the machine: a call returns, or power is lost after some of
its transfers and the machine starts again (`FsEvent`). From any state, with any
reads failing, no run changes a sector outside the file system's
(`other_sectors_kept`): the boot sector, the second stage and the kernel's 80
sectors stay as they were written.
-/

namespace EphemeralOS

def fsCheckInstalled : FsM Bool := do
  FsM.modify loadSuperblock
  FsM.gets fun s => decide (s.superblock.magic = fsMagic ∧ s.superblock.version = fsVersion ∧
    s.superblock.installed = 1)

/-- `fs_format` up to its first transfer. -/
def formatTables (s : FsState) : FsState :=
  { s with
    superblock :=
      { magic := fsMagic
        version := fsVersion
        totalInodes := fsMaxInodes
        totalBlocks := fsMaxBlocks
        freeInodes := fsMaxInodes
        freeBlocks := fsMaxBlocks
        rootInode := 0
        installed := 0
        hostname := CArray.zero
        username := CArray.zero
        passwordHash := CArray.zero }
    inodeTable := fun i => if i.toNat < 200 then Inode.zero else s.inodeTable i
    blockBitmap := fun i => if i.toNat < 64 then 0 else s.blockBitmap i }

def fsFormat (s : FsState) : FsState :=
  syncBlockBitmap (syncInodeTable (syncSuperblock (formatTables s)))

/-- A call of the file system. -/
inductive FsCall
  | init
  | checkInstalled
  | format
  | install (hostname username password : List UInt8)
  | createDir (path : List UInt8)
  | createFile (path : List UInt8) (data : Memory) (size : UInt32)
  | deleteFile (path : List UInt8)
  | exist (type : UInt8) (path : List UInt8)
  | listDir (path : List UInt8) (buffer : Memory) (maxSize : Int)
  | readFile (path : List UInt8) (buffer : Memory) (maxSize : UInt32)
  | changeDir (path currentDir : List UInt8)

namespace FsCall

def run : FsCall → FsM Unit
  | init => FsM.modify fsInit
  | checkInstalled => fsCheckInstalled >>= fun _ => pure ()
  | format => FsM.modify fsFormat
  | install hostname username password => FsM.modify (fsInstall hostname username password)
  | createDir path => fsCreateDir path >>= fun _ => pure ()
  | createFile path data size => fsCreateFile path data size >>= fun _ => pure ()
  | deleteFile path => fsDeleteFile path >>= fun _ => pure ()
  | exist type path => inodeExists type path >>= fun _ => pure ()
  | listDir path buffer maxSize => fsListDir path buffer maxSize >>= fun _ => pure ()
  | readFile path buffer maxSize => fsReadFile path buffer maxSize >>= fun _ => pure ()
  | changeDir path currentDir => fsChangeDir path currentDir >>= fun _ => pure ()

def traced : FsCall → FsW Unit
  | format => do
    FsW.quiet (FsM.modify formatTables)
    FsW.syncSuperblock
    FsW.syncInodeTable
    FsW.syncBlockBitmap
  | install hostname username password => FsW.fsInstall hostname username password
  | createDir path => FsW.fsCreateDir path >>= fun _ => pure ()
  | createFile path data size => FsW.fsCreateFile path data size >>= fun _ => pure ()
  | deleteFile path => FsW.fsDeleteFile path >>= fun _ => pure ()
  | c => FsW.quiet c.run

end FsCall

theorem quiet_fsCheckInstalled : Quiet fsCheckInstalled :=
  (Quiet.modify sectors_loadSuperblock).bind fun _ => .gets _

theorem quiet_inodeExists (type : UInt8) (path : List UInt8) : Quiet (inodeExists type path) := by
  unfold inodeExists
  exact (quiet_findInodeByPath path).bind fun _ => .ite (fun _ => .pure _) fun _ =>
    .ite (fun _ => .pure _) fun _ => .gets _

theorem quiet_fsChangeDir (path currentDir : List UInt8) : Quiet (fsChangeDir path currentDir) := by
  unfold fsChangeDir
  refine .ite (fun _ => .ite (fun _ => .pure _) fun _ => .ite (fun _ => .pure _) fun _ => .pure _)
    fun _ => (quiet_inodeExists inodeTypeDir _).bind fun _ => ?_
  exact .ite (fun _ => .pure _) fun _ => .pure _

theorem quiet_fsListDir (path : List UInt8) (buffer : Memory) (maxSize : Int) :
    Quiet (fsListDir path buffer maxSize) := by
  unfold fsListDir
  refine (quiet_findInodeByPath path).bind fun _ => .ite (fun _ => .pure _) fun _ =>
    (Quiet.gets _).bind fun v => .ite (fun _ => .pure _) fun _ => .ite (fun _ => .pure _) fun _ => ?_
  exact (quiet_readDirBlock _).bind fun d => (Quiet.gets _).bind fun _ => .pure _

theorem quiet_readFileBlocks (inode : UInt32) (rounds i : Nat) (remaining : UInt32)
    (buffer : Memory) : Quiet (readFileBlocks inode rounds i remaining buffer) := by
  induction rounds generalizing i remaining buffer with
  | zero => exact .pure _
  | succ rounds ih =>
    unfold readFileBlocks
    refine (Quiet.gets _).bind fun _ => (quiet_readInodeBlock _).bind fun sec => ?_
    have hbuffer : Quiet (FsM.modify fun s => { s with sectorBuffer := sec }) := fun _ => rfl
    exact hbuffer.bind fun _ => ih _ _ _

theorem quiet_fsReadFile (path : List UInt8) (buffer : Memory) (maxSize : UInt32) :
    Quiet (fsReadFile path buffer maxSize) := by
  unfold fsReadFile
  refine (quiet_findInodeByPath path).bind fun _ => .ite (fun _ => .pure _) fun _ =>
    (Quiet.gets _).bind fun v => .ite (fun _ => .pure _) fun _ => ?_
  exact (quiet_readFileBlocks _ _ _ _ _).bind fun _ => .pure _

/-! ## Every call -/

theorem FsCall.traces (c : FsCall) : Traces c.traced c.run := by
  cases c with
  | init => exact .quiet (.modify sectors_fsInit)
  | checkInstalled => exact .quiet (quiet_fsCheckInstalled.bind fun _ => .pure _)
  | format =>
    have htables : Traces (FsW.quiet (FsM.modify formatTables)) (FsM.modify formatTables) :=
      .quiet (.modify fun _ => rfl)
    exact htables.next .syncs
  | install hostname username password => exact .fsInstall hostname username password
  | createDir path => exact (Traces.fsCreateDir path).bind fun _ => .pure _
  | createFile path data size => exact (Traces.fsCreateFile path data size).bind fun _ => .pure _
  | deleteFile path => exact (Traces.fsDeleteFile path).bind fun _ => .pure _
  | exist type path => exact .quiet ((quiet_inodeExists type path).bind fun _ => .pure _)
  | listDir path buffer maxSize =>
    exact .quiet ((quiet_fsListDir path buffer maxSize).bind fun _ => .pure _)
  | readFile path buffer maxSize =>
    exact .quiet ((quiet_fsReadFile path buffer maxSize).bind fun _ => .pure _)
  | changeDir path currentDir =>
    exact .quiet ((quiet_fsChangeDir path currentDir).bind fun _ => .pure _)

theorem Disk.sectors_writeAll_ne {ws : List SectorWrite} {x : Nat} (h : ∀ w ∈ ws, w.1 ≠ x)
    (d : Disk) : (d.writeAll ws).sectors x = d.sectors x := by
  induction ws generalizing d with
  | nil => rfl
  | cons w ws ih =>
    refine (ih (fun w' hw' => h w' (List.mem_cons_of_mem _ hw')) _).trans ?_
    exact Function.update_of_ne (h w List.mem_cons_self).symm _ _

inductive FsEvent
  /-- A call returns. -/
  | call (c : FsCall)
  /-- Power is lost after `transfers` transfers of the call, and the machine starts again with the
  memory `m`. -/
  | powerCut (c : FsCall) (transfers : Nat) (m : FsState)

namespace FsEvent

/-- The state after an event; a restart ends with `fs_init`. -/
def step : FsEvent → FsState → FsState
  | call c, s => (c.run s).2
  | powerCut c transfers m, s => fsInit { m with
      disk := { s.disk.writeAll ((c.traced.writes s).take transfers) with faults := m.disk.faults } }

theorem sectors_step (e : FsEvent) (s : FsState) {x : Nat} (hx : ¬ FsSector x) :
    (e.step s).disk.sectors x = s.disk.sectors x := by
  have hne : ∀ (c : FsCall), ∀ w ∈ c.traced.writes s, w.1 ≠ x := fun c w hw hwx =>
    hx (hwx ▸ c.traces.within s w hw)
  cases e with
  | call c =>
    rw [step, c.traces.disk s]
    exact Disk.sectors_writeAll_ne (hne c) s.disk
  | powerCut c transfers m =>
    rw [step, sectors_fsInit]
    exact Disk.sectors_writeAll_ne (fun w hw => hne c w (List.mem_of_mem_take hw)) s.disk

end FsEvent

/-- The sectors that `boot.asm`, `stage2.asm` and the kernel are loaded from: the boot sector, 15
sectors from sector 1 on and 80 from sector 16 on. -/
def bootSectors : Nat := 1 + 15 + 80

/-- **The file system keeps to its own sectors.** Whatever is called and wherever power is lost,
from any memory and any disk, the other sectors keep what they hold, and the boot image is on
such sectors. -/
theorem other_sectors_kept {s s' : FsState}
    (h : Run.Reached (· = s) FsEvent.step (fun _ _ => True) s') :
    (∀ x, ¬ FsSector x → s'.disk.sectors x = s.disk.sectors x) ∧ ∀ x < bootSectors, ¬ FsSector x := by
  refine ⟨fun x hx => ?_, fun x hx => ?_⟩
  · refine h.invariant (P := fun t => t.disk.sectors x = s.disk.sectors x)
      (fun t ht => ht ▸ rfl) fun t e ht _ => (e.sectors_step t hx).trans ht
  · unfold FsSector fsSuperblockSector fsInodeTableSector fsBlockBitmapSector fsDataStartSector
    unfold bootSectors at hx
    omega

/-- Power is lost in the middle of an installation. -/
theorem other_sectors_kept_install :
    (∀ x, ¬ FsSector x → ((FsEvent.powerCut (.install (ascii "box") (ascii "user") (ascii "pw")) 7
        blankState).step blankState).disk.sectors x = blankState.disk.sectors x) ∧
      ∀ x < bootSectors, ¬ FsSector x :=
  other_sectors_kept (.next (.start rfl) trivial)

end EphemeralOS
