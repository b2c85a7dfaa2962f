import EphemeralOS.Fs.Run
import EphemeralOS.Fs.Read

/-!
# Reboots

A reboot discards the memory and runs `fs_init` on the disk. Memory and disk
agree after every call (`Synced`), so the file system is the same afterwards
(`reboot_preserves`).
-/

namespace EphemeralOS

open Directory Run

/-- The machine restarts with the memory `m` and the disk of `s`. -/
def reboot (m s : FsState) : FsState := fsInit { m with disk := s.disk }

section Reboot

variable {s : FsState} (m : FsState)

theorem reboot_eq (hs : s.disk.Perfect) : reboot m s = { m with
    superblock := s.storedSuperblock
    inodeTable := fun i => if h : i.toNat < 200 then s.storedTable ⟨i.toNat, h⟩ else m.inodeTable i
    blockBitmap := fun i => if h : i.toNat < 64 then s.storedBitmap ⟨i.toNat, h⟩ else m.blockBitmap i
    disk := s.disk } := by
  unfold reboot
  rw [fsInit_eq (by exact hs)]
  rfl

theorem reboot_bit (hs : s.disk.Perfect) {b : UInt32} (hb : b < fsMaxBlocks) :
    (reboot m s).bit b = s.storedBit b := by
  rw [reboot_eq m hs]
  refine test_congr _ ?_
  simp only [dif_pos (byte_lt hb)]

theorem reboot_inode (hs : s.disk.Perfect) {i : UInt32} (hi : i < fsMaxInodes) :
    (reboot m s).inodeTable i = s.storedTable ⟨i.toNat, lt_fsMaxInodes.mp hi⟩ := by
  rw [reboot_eq m hs]
  simp only [dif_pos (lt_fsMaxInodes.mp hi)]

theorem reboot_disk (hs : s.disk.Perfect) : (reboot m s).disk = s.disk := by
  rw [reboot_eq m hs]

theorem reboot_superblock (hs : s.disk.Perfect) :
    (reboot m s).superblock = s.storedSuperblock := by
  rw [reboot_eq m hs]

theorem reboot_stored (hs : s.disk.Perfect) :
    (reboot m s).storedSuperblock = s.storedSuperblock ∧
      (reboot m s).storedTable = s.storedTable ∧ (reboot m s).storedBitmap = s.storedBitmap :=
  stored_congr fun x _ => by rw [reboot_disk m hs]

/-- **A synced state and the state after a reboot agree.** -/
theorem Synced.reboot_agree (hI : Inv s) (hS : Synced s) : Agree s (reboot m s) where
  root := by rw [reboot_superblock m hI.perfect, hS.root, hI.shape.root]
  table i hi := by
    rw [reboot_inode m hI.perfect hi, hS.table, FsState.tableObject, UInt32.ofNat_toNat]
  bits b hb := by rw [reboot_bit m hI.perfect hb, hS.bits b hb]
  data b _ := data_congr (by rw [reboot_disk m hI.perfect]) b
  faults := by rw [reboot_disk m hI.perfect]

theorem Synced.after_reboot (hI : Inv s) (hS : Synced s) : Synced (reboot m s) := by
  obtain ⟨hsuper, htable, hbitmap⟩ := reboot_stored m hI.perfect
  refine ⟨by rw [hsuper, hS.root], fun i => ?_, fun b hb => ?_⟩
  · have hn : (UInt32.ofNat (i : Nat)).toNat = i := by
      rw [UInt32.toNat_ofNat', Nat.mod_eq_of_lt (by omega)]
    have hi : UInt32.ofNat (i : Nat) < fsMaxInodes := lt_fsMaxInodes.mpr (by rw [hn]; exact i.2)
    rw [htable, FsState.tableObject, reboot_inode m hI.perfect hi]
    simp only [hn]
  · rw [reboot_bit m hI.perfect hb]
    unfold FsState.storedBit
    rw [hbitmap]

end Reboot

/-! ## Runs with reboots -/

inductive Event
  | call (op : FsOp)
  | reboot (m : FsState)

def Event.step : Event → FsState → FsState
  | call op, s => op.step s
  | reboot m, s => EphemeralOS.reboot m s

abbrev ReachableWithReboots : FsState → Prop := Reached Installed Event.step fun _ _ => True

/-- **Every run keeps the invariant and keeps memory and disk in sync.** The counters need not
survive a reboot. -/
theorem ReachableWithReboots.synced {s : FsState} (h : ReachableWithReboots s) :
    Inv s ∧ Synced s := by
  refine h.invariant (P := fun t => Inv t ∧ Synced t)
    (fun t ht => ⟨ht.sound.1.inv, ht.sound.1.synced⟩) fun t e ⟨hI, hS⟩ _ => ?_
  cases e with
  | call op =>
    exact (op.changes hI).preserves (P := Synced) (fun _ _ hI hS ht => hS.change hI ht) hI hS
  | reboot m => exact ⟨(hS.reboot_agree m hI).inv hI, hS.after_reboot m hI⟩

structure SameFileSystem (s s' : FsState) : Prop where
  bits : ∀ b, b < fsMaxBlocks → s'.bit b = s.bit b
  free : ∀ i, i < fsMaxInodes →
    ((s'.inodeTable i).type = inodeTypeFree ↔ (s.inodeTable i).type = inodeTypeFree)
  live : ∀ i, s.Live i → s'.inodeTable i = s.inodeTable i
  find : ∀ path, (findInodeByPath path s').1 = (findInodeByPath path s).1
  list : ∀ path buffer maxSize,
    (fsListDir path buffer maxSize s').1 = (fsListDir path buffer maxSize s).1
  read : ∀ path buffer maxSize,
    (fsReadFile path buffer maxSize s').1 = (fsReadFile path buffer maxSize s).1

theorem Agree.sameFileSystem {s s' : FsState} (hI : Inv s) (h : Agree s s') :
    SameFileSystem s s' where
  bits := h.bits
  free i hi := by rw [h.type hi]
  live i hi := h.inode hi
  find := h.findInodeByPath_eq hI
  list := h.fsListDir_eq hI
  read := h.fsReadFile_eq hI

/-- **A reboot preserves the file system.** -/
theorem reboot_preserves {s : FsState} (h : ReachableWithReboots s) (m : FsState) :
    SameFileSystem s (reboot m s) :=
  (h.synced.2.reboot_agree m h.synced.1).sameFileSystem h.synced.1

theorem sampleInstall_reboot_preserves :
    SameFileSystem sampleInstall (reboot blankState sampleInstall) :=
  reboot_preserves (.start sampleInstall_installed) blankState

end EphemeralOS
