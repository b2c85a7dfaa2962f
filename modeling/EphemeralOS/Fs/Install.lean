import EphemeralOS.Fs.Change

/-!
# Installation

`fs_install` writes a file system with a root directory alone (`Base`) and then
calls `fs_create_dir` eight times. The first call, for `/bin`, is the odd one:
bit 0 of the bitmap is clear, so `/bin` gets block 0, which is no block to the
transfers (`Base.bin`, `Fresh`). From then on bit 0 is set and the invariant
holds (`Fresh.inv`).
-/

namespace EphemeralOS

open Path Directory Ownership

def rootInode : Inode := ⟨inodeTypeDir, 0, fun k => if k = 0 then 1 else 0, 0⟩

/-- A file system that holds the root directory alone. -/
structure Base (s : FsState) : Prop where
  perfect : s.disk.Perfect
  root : s.superblock.rootInode = 0
  freeInodes : s.superblock.freeInodes = 199
  freeBlocks : s.superblock.freeBlocks = 511
  table : ∀ i, i < fsMaxInodes → s.inodeTable i = if i = 0 then rootInode else Inode.zero
  bits : ∀ b, b < fsMaxBlocks → s.bit b = decide (b = 1)
  data : s.data 1 = sectorOfDir (newDirBlock 0 0)
  storedRoot : s.storedSuperblock.rootInode = 0

def FsState.settings (s : FsState) : Superblock :=
  { s.superblock with freeInodes := 0, freeBlocks := 0 }

theorem settings_username (s : FsState) : s.settings.username = s.superblock.username := rfl

theorem settings_congr {s s' : FsState} (fi fb : UInt32)
    (h : s'.superblock = { s.superblock with freeInodes := fi, freeBlocks := fb }) :
    s'.settings = s.settings := by
  unfold FsState.settings
  rw [h]

theorem test_zero (b : UInt32) : Bits.test (fun _ => 0) b = false := by
  rw [Bits.test_eq]
  exact Nat.zero_testBit _

theorem test_congr {bm : UInt32 → UInt8} (bm' : UInt32 → UInt8) {b : UInt32}
    (h : bm (b / 8) = bm' (b / 8)) : Bits.test bm b = Bits.test bm' b := by
  unfold Bits.test
  rw [h]

theorem sync_stored (t : FsState) :
    (syncBlockBitmap (syncInodeTable (syncSuperblock t))).storedSuperblock = t.superblock ∧
    (syncBlockBitmap (syncInodeTable (syncSuperblock t))).storedTable = t.tableObject ∧
    (syncBlockBitmap (syncInodeTable (syncSuperblock t))).storedBitmap = t.bitmapObject := by
  refine ⟨?_, ?_, ?_⟩
  · rw [syncBlockBitmap_storedSuperblock, syncInodeTable_storedSuperblock,
      syncSuperblock_storedSuperblock]
  · rw [syncBlockBitmap_storedTable, syncInodeTable_storedTable]
    exact tableObject_congr (syncSuperblock_inodeTable t)
  · rw [syncBlockBitmap_storedBitmap]
    exact bitmapObject_congr (by simp)

theorem fsInit_base {t : FsState} (hs : t.disk.Perfect) (hroot : t.storedSuperblock.rootInode = 0)
    (hinodes : t.storedSuperblock.freeInodes = 199) (hblocks : t.storedSuperblock.freeBlocks = 511)
    (htable : ∀ i, i < fsMaxInodes → ∀ h : i.toNat < 200,
      t.storedTable ⟨i.toNat, h⟩ = if i = 0 then rootInode else Inode.zero)
    (hbits : ∀ b, b < fsMaxBlocks → t.storedBit b = decide (b = 1))
    (hdata : t.data 1 = sectorOfDir (newDirBlock 0 0)) : Base (fsInit t) := by
  have heq := fsInit_eq hs
  have hdisk : (fsInit t).disk = t.disk := by rw [heq]
  exact {
    perfect := by rw [hdisk]; exact hs
    root := by rw [heq]; exact hroot
    freeInodes := by rw [heq]; exact hinodes
    freeBlocks := by rw [heq]; exact hblocks
    table := fun i hi => by
      rw [heq]
      simp only [dif_pos (lt_fsMaxInodes.mp hi)]
      exact htable i hi _
    bits := fun b hb => by
      rw [← hbits b hb, heq]
      refine test_congr _ ?_
      simp only [dif_pos (byte_lt hb)]
    data := (data_congr hdisk 1).trans hdata
    storedRoot := by rw [storedSuperblock_congr (s := t) (by rw [hdisk]), hroot] }

/-- The tables of a fresh file system, written and read back. -/
theorem installRoot_base (hostname username password : List UInt8) {s : FsState}
    (hs : s.disk.Perfect) : Base (installRoot hostname username password s) := by
  have hdata := writeInodeBlock_data 1 (sectorOfDir (newDirBlock 0 0))
    (installTables hostname username password s) 1
  have hsuper := writeInodeBlock_superblock 1 (sectorOfDir (newDirBlock 0 0))
    (installTables hostname username password s)
  have htable := writeInodeBlock_inodeTable 1 (sectorOfDir (newDirBlock 0 0))
    (installTables hostname username password s)
  have hbitmap := writeInodeBlock_blockBitmap 1 (sectorOfDir (newDirBlock 0 0))
    (installTables hostname username password s)
  have hfaults := writeInodeBlock_faults 1 (sectorOfDir (newDirBlock 0 0))
    (installTables hostname username password s)
  show Base (fsInit (syncBlockBitmap (syncInodeTable (syncSuperblock
    { writeInodeBlock 1 (sectorOfDir (newDirBlock 0 0)) (installTables hostname username password s)
      with superblock := { (writeInodeBlock 1 (sectorOfDir (newDirBlock 0 0))
        (installTables hostname username password s)).superblock with installed := 1 } }))))
  generalize writeInodeBlock 1 (sectorOfDir (newDirBlock 0 0))
    (installTables hostname username password s) = t at hdata hsuper htable hbitmap hfaults ⊢
  obtain ⟨h1, h2, h3⟩ := sync_stored
    { t with superblock := { t.superblock with installed := 1 } }
  refine fsInit_base ?_ ?_ ?_ ?_ (fun i hi h => ?_) (fun b hb => ?_) ?_
  · unfold Disk.Perfect
    rw [syncBlockBitmap_faults, syncInodeTable_faults, syncSuperblock_faults]
    exact hfaults.trans hs
  · rw [h1]; exact congrArg Superblock.rootInode hsuper
  · rw [h1]; exact congrArg Superblock.freeInodes hsuper
  · rw [h1]; exact congrArg Superblock.freeBlocks hsuper
  · rw [h2]
    show t.inodeTable (UInt32.ofNat i.toNat) = _
    rw [UInt32.ofNat_toNat, htable]
    simp only [installTables, if_pos h, rootInode]
  · unfold FsState.storedBit
    rw [h3]
    refine (test_congr (Bits.set (fun _ => 0) 1) ?_).trans ?_
    · simp only [dif_pos (byte_lt hb), FsState.bitmapObject, UInt32.ofNat_toNat, hbitmap]
      simp only [installTables, Bits.set]
      by_cases h1 : b / 8 = 1 / 8
      · rw [h1, Function.update_self, Function.update_self]
        rfl
      · rw [Function.update_of_ne h1, Function.update_of_ne h1, if_pos (byte_lt hb)]
    · rw [Bits.test_set, test_zero, Bool.or_false]
  · rw [syncBlockBitmap_data, syncInodeTable_data, syncSuperblock_data]
    refine (data_congr (s := t) rfl 1).trans (hdata.trans ?_)
    rw [if_pos ⟨by decide, rfl⟩]

theorem installRoot_superblock (hostname username password : List UInt8) {s : FsState}
    (hs : s.disk.Perfect) : (installRoot hostname username password s).superblock =
      { (installTables hostname username password s).superblock with installed := 1 } := by
  have hsuper := writeInodeBlock_superblock 1 (sectorOfDir (newDirBlock 0 0))
    (installTables hostname username password s)
  have hfaults := writeInodeBlock_faults 1 (sectorOfDir (newDirBlock 0 0))
    (installTables hostname username password s)
  show (fsInit (syncBlockBitmap (syncInodeTable (syncSuperblock
    { writeInodeBlock 1 (sectorOfDir (newDirBlock 0 0)) (installTables hostname username password s)
      with superblock := { (writeInodeBlock 1 (sectorOfDir (newDirBlock 0 0))
        (installTables hostname username password s)).superblock with installed := 1 } })))).superblock
      = _
  generalize writeInodeBlock 1 (sectorOfDir (newDirBlock 0 0))
    (installTables hostname username password s) = t at hsuper hfaults ⊢
  obtain ⟨h1, -, -⟩ := sync_stored { t with superblock := { t.superblock with installed := 1 } }
  rw [fsInit_eq]
  · exact h1.trans (by rw [hsuper])
  · unfold Disk.Perfect
    rw [syncBlockBitmap_faults, syncInodeTable_faults, syncSuperblock_faults]
    exact hfaults.trans hs

/-! ## The first directory -/

/-- A file system that holds the root directory and `/bin`, which has block 0. -/
structure Fresh (s : FsState) : Prop where
  perfect : s.disk.Perfect
  root : s.superblock.rootInode = 0
  freeInodes : s.superblock.freeInodes = 198
  freeBlocks : s.superblock.freeBlocks = 510
  table : ∀ i, i < fsMaxInodes → s.inodeTable i =
    if i = 0 then rootInode else if i = 1 then dirInode 0 0 else Inode.zero
  bits : ∀ b, b < fsMaxBlocks → s.bit b = decide (b = 0 ∨ b = 1)
  slots : s.slots 0 = Function.update (dotSlots 0 0) 2 (some (ascii "bin", 1))
  synced : Synced s

theorem indices_cons : indices 200 = 0 :: 1 :: (indices 200).drop 2 ∧
    indices 512 = 0 :: (indices 512).drop 1 := by
  constructor <;> decide +kernel

theorem dotSlots_firstEmpty {i : Fin 15} (hempty : dotSlots 0 0 i = none)
    (hbefore : ∀ j, j < i → dotSlots 0 0 j ≠ none) : i = 2 := by
  have hge : 2 ≤ i := by
    by_contra hlt
    have hdots : i = 0 ∨ i = 1 := by omega
    rcases hdots with rfl | rfl <;> cases hempty
  by_contra hne
  exact hbefore 2 (by omega) rfl

theorem comps_bin : comps (ascii "/bin") = [] ++ [ascii "bin"] := by decide +kernel

namespace Base

variable {s : FsState} (B : Base s)
include B

theorem slots_root : s.slots 0 = dotSlots 0 0 := by
  have h0 : s.inodeTable 0 = rootInode := B.table 0 (by decide)
  have hu : s.UsableDir 0 := ⟨by decide, by rw [h0]; rfl, by rw [h0]; decide⟩
  rw [hu.slots_eq, h0, show rootInode.blocks 0 = 1 from rfl, B.data, slots_newDirBlock]

theorem allocateInode_eq : ∃ h : FsState, allocateInode s = (1, h) ∧
    h.inodeTable = Function.update s.inodeTable 1 ⟨inodeTypeFile, 0, fun _ => 0, 0⟩ ∧
    h.disk = s.disk ∧ h.blockBitmap = s.blockBitmap ∧
    h.superblock = { s.superblock with freeInodes := s.superblock.freeInodes - 1 } := by
  have hfind : (indices 200).find? (fun i => (s.inodeTable i).type = inodeTypeFree) = some 1 := by
    rw [indices_cons.1, List.find?_cons, List.find?_cons, B.table 0 (by decide),
      B.table 1 (by decide)]
    rfl
  unfold allocateInode
  rw [hfind]
  exact ⟨_, rfl, rfl, rfl, rfl, rfl⟩

/-- `allocate_block` gives block 0, in a state with the same bitmap. -/
theorem allocateBlock_eq {h : FsState} (hbit : h.blockBitmap = s.blockBitmap) :
    allocateBlock h = (0, h.markBlockUsed 0) := by
  have hfree : h.isBlockFree 0 = true := by
    refine FsState.isBlockFree_eq.mpr ⟨by decide, ?_⟩
    have := B.bits 0 (by decide)
    unfold FsState.bit at this ⊢
    rw [hbit, this]
    decide
  unfold allocateBlock
  rw [indices_cons.2, List.find?_cons, hfree]

/-- `/bin` is made up to its entry in the root, with inode 1 and block 0. -/
theorem makeDir_eq (name : List UInt8) : ∃ h : FsState,
    h.inodeTable = Function.update s.inodeTable 1 (dirInode 0 0) ∧ h.disk = s.disk ∧
    h.blockBitmap = Bits.set s.blockBitmap 0 ∧
    h.superblock = { s.superblock with
      freeInodes := s.superblock.freeInodes - 1, freeBlocks := s.superblock.freeBlocks - 1 } ∧
    ∀ t, linkEntry 0 name 1 h = (true, t) →
      makeDir 0 name s = (0, syncBlockBitmap (syncInodeTable t)) := by
  have hdir : ¬ (s.inodeTable 0).type ≠ inodeTypeDir := by
    rw [B.table 0 (by decide), if_pos rfl]; decide
  obtain ⟨g, ha, hgt, hgd, hgb, hgs⟩ := B.allocateInode_eq
  -- the inode after the assignments of `fs_create_dir`
  obtain ⟨h1, hset⟩ : ∃ h1, g.setInode 1
      { g.inodeTable 1 with type := inodeTypeDir, size := 0, parentInode := 0 } = h1 := ⟨_, rfl⟩
  have htable : h1.inodeTable = Function.update s.inodeTable 1
      ⟨inodeTypeDir, 0, fun _ => 0, 0⟩ := by
    rw [← hset, FsState.setInode, hgt]
    simp only [Function.update_idem, Function.update_self]
  have hdisk : h1.disk = s.disk := by rw [← hset]; exact hgd
  have hbitmap : h1.blockBitmap = s.blockBitmap := by rw [← hset]; exact hgb
  have hsuper : h1.superblock = { s.superblock with
      freeInodes := s.superblock.freeInodes - 1 } := by rw [← hset]; exact hgs
  have hmake : ∀ t, linkEntry 0 name 1 ((h1.markBlockUsed 0).setInodeBlock 1 0 0) = (true, t) →
      makeDir 0 name s = (0, syncBlockBitmap (syncInodeTable t)) := fun t ht => by
    unfold makeDir
    rw [FsM.bind_gets, if_neg hdir, FsM.bind_eq ha, if_neg (by decide), FsM.bind_modify, hset,
      FsM.bind_eq (B.allocateBlock_eq hbitmap), if_neg (by decide), FsM.bind_modify,
      FsM.bind_modify]
    exact FsM.bind_eq ht _
  have hmark := h1.markBlockUsed_of_lt (b := 0) (by decide)
  refine ⟨_, ?_, ?_, ?_, ?_, hmake⟩
  · have h : (h1.markBlockUsed 0).inodeTable = Function.update s.inodeTable 1
        ⟨inodeTypeDir, 0, fun _ => 0, 0⟩ := by
      rw [hmark, htable]
    unfold FsState.setInodeBlock FsState.setInode
    simp only [h, Function.update_self, Function.update_idem]
    congr 1
  · show (h1.markBlockUsed 0).disk = _
    rw [hmark, hdisk]
  · show (h1.markBlockUsed 0).blockBitmap = _
    rw [hmark, hbitmap]
  · show (h1.markBlockUsed 0).superblock = _
    rw [hmark, hsuper]

/-- `/bin` is not there yet, and its parent is. -/
theorem fsCreateDir_bin : fsCreateDir (ascii "/bin") s = makeDir 0 (ascii "bin") s := by
  have hs := B.perfect
  have hnone : s.resolve (comps (ascii "/bin")) = none := by
    rw [comps_bin, resolve_concat, resolve_nil, B.root]
    show s.lookup 0 (ascii "bin") = none
    unfold FsState.lookup
    rw [B.slots_root]
    split <;> decide +kernel
  unfold fsCreateDir createDirDepth createDirStep
  rw [splitPath_concat comps_bin]
  simp only
  rw [if_neg (by decide +kernel), FsM.bind_eq (findInodeByPath_eq hs _), hnone,
    Option.getD_none, if_neg (not_not.mpr rfl),
    FsM.bind_eq (findInodeByPath_parent hs comps_bin), resolve_nil, B.root, Option.getD_some,
    if_neg (by decide)]

section Entered

variable {h : FsState} (htable : h.inodeTable = Function.update s.inodeTable 1 (dirInode 0 0))
  (hdisk : h.disk = s.disk)
include htable

theorem rootInode_kept : h.inodeTable 0 = rootInode := by
  rw [htable, Function.update_of_ne (by decide), B.table 0 (by decide), if_pos rfl]

include hdisk

theorem slots_kept : h.slots 0 = dotSlots 0 0 := by
  rw [← B.slots_root]
  unfold FsState.slots FsState.dirBlock FsState.data
  rw [B.rootInode_kept htable, hdisk, B.table 0 (by decide), if_pos rfl]

/-- Entered in slot 2 of the root and written to the disk, `/bin` is in place. -/
theorem fresh_of_entered (hbitmap : h.blockBitmap = Bits.set s.blockBitmap 0)
    (hsuper : h.superblock = { s.superblock with
      freeInodes := s.superblock.freeInodes - 1, freeBlocks := s.superblock.freeBlocks - 1 })
    {t : FsState} (ht : t = writeInodeBlock 1 (sectorOfDir (Function.update (h.dirBlock 0) 2
      ⟨(h.dirBlock 0 2).name.strcpy (ascii "bin"), 1, 1⟩)) h) :
    Fresh (syncBlockBitmap (syncInodeTable t)) := by
  have ht1 : t.inodeTable = h.inodeTable := by rw [ht]; simp
  have ht2 : t.superblock = h.superblock := by rw [ht]; simp
  have ht3 : t.blockBitmap = h.blockBitmap := by rw [ht]; simp
  have ht4 : t.disk.faults = s.disk.faults := by rw [ht, ← hdisk]; simp
  have hmeta : ∀ x, x < fsDataStartSector → t.disk.sectors x = s.disk.sectors x := fun x hx => by
    rw [ht, writeInodeBlock_meta _ _ _ hx, hdisk]
  have hview := writeInodeBlock_data 1 (sectorOfDir (Function.update (h.dirBlock 0) 2
    ⟨(h.dirBlock 0 2).name.strcpy (ascii "bin"), 1, 1⟩)) h 1
  rw [if_pos ⟨by decide, rfl⟩, ← ht] at hview
  have hroot : (syncBlockBitmap (syncInodeTable t)).inodeTable 0 = rootInode := by
    rw [syncBlockBitmap_inodeTable, syncInodeTable_inodeTable, ht1, B.rootInode_kept htable]
  have hu : (syncBlockBitmap (syncInodeTable t)).UsableDir 0 := by
    unfold FsState.UsableDir
    rw [hroot]
    decide
  exact {
    perfect := by
      unfold Disk.Perfect
      rw [syncBlockBitmap_faults, syncInodeTable_faults, ht4]
      exact B.perfect
    root := by
      rw [syncBlockBitmap_superblock, syncInodeTable_superblock, ht2, hsuper]
      exact B.root
    freeInodes := by
      rw [syncBlockBitmap_superblock, syncInodeTable_superblock, ht2, hsuper]
      exact (congrArg (· - 1) B.freeInodes).trans rfl
    freeBlocks := by
      rw [syncBlockBitmap_superblock, syncInodeTable_superblock, ht2, hsuper]
      exact (congrArg (· - 1) B.freeBlocks).trans rfl
    table := fun i hi => by
      rw [syncBlockBitmap_inodeTable, syncInodeTable_inodeTable, ht1, htable]
      by_cases h1 : i = 1
      · rw [h1, Function.update_self]; rfl
      · rw [Function.update_of_ne h1, B.table i hi, if_neg h1]
    bits := fun b hb => by
      have := B.bits b hb
      unfold FsState.bit at this ⊢
      rw [syncBlockBitmap_blockBitmap, syncInodeTable_blockBitmap, ht3, hbitmap, Bits.test_set, this]
      simp
    slots := by
      rw [hu.slots_eq, hroot, syncBlockBitmap_data, syncInodeTable_data,
        show rootInode.blocks 0 = 1 from rfl, hview,
        slots_sectorOfDir, slots_update_entry _ _ (by decide +kernel) (by decide +kernel)]
      have : slotsOf (h.dirBlock 0) = dotSlots 0 0 := B.slots_kept htable hdisk
      rw [this]
      funext j
      by_cases h14 : j = 14
      · rw [h14, Function.update_self]; rfl
      · rw [Function.update_of_ne h14]
    synced := by
      refine .of_stored ?_ ?_ ?_
      · rw [syncBlockBitmap_storedSuperblock, syncInodeTable_storedSuperblock,
          storedSuperblock_congr (hmeta _ (by decide))]
        exact B.storedRoot
      · rw [syncBlockBitmap_storedTable, syncInodeTable_storedTable]
        exact tableObject_congr (by simp)
      · rw [syncBlockBitmap_storedBitmap]
        exact bitmapObject_congr (by simp) }

end Entered

/-- **The directory `/bin` gets block 0.** -/
theorem bin : ∃ s', fsCreateDir (ascii "/bin") s = (0, s') ∧ Fresh s' ∧
    s'.settings = s.settings := by
  obtain ⟨h, htable, hdisk, hbitmap, hsuper, hmake⟩ := B.makeDir_eq (ascii "bin")
  obtain ⟨i, hempty, hbefore, hlink⟩ :=
    linkEntry_eq (s := h) (hdisk ▸ B.perfect) 0 (ascii "bin") 1
  rw [B.slots_kept htable hdisk] at hempty hbefore
  obtain rfl := dotSlots_firstEmpty hempty hbefore
  rw [B.rootInode_kept htable, show rootInode.blocks 0 = 1 from rfl] at hlink
  rw [B.fsCreateDir_bin, hmake _ hlink]
  refine ⟨_, rfl, B.fresh_of_entered htable hdisk hbitmap hsuper rfl,
    settings_congr (s.superblock.freeInodes - 1) (s.superblock.freeBlocks - 1) ?_⟩
  rw [syncBlockBitmap_superblock, syncInodeTable_superblock, writeInodeBlock_superblock, hsuper]

end Base

/-! ## The invariant after the first directory -/

namespace Fresh

variable {s : FsState} (F : Fresh s)
include F

theorem inode_root : s.inodeTable 0 = rootInode := F.table 0 (by decide)

theorem inode_bin : s.inodeTable 1 = dirInode 0 0 := F.table 1 (by decide)

theorem live_iff {i : UInt32} : s.Live i ↔ i = 0 ∨ i = 1 := by
  constructor
  · rintro ⟨hi, htype⟩
    by_contra h
    rw [not_or] at h
    rw [F.table i hi, if_neg h.1, if_neg h.2] at htype
    exact htype rfl
  · rintro (rfl | rfl)
    · exact ⟨by decide, by rw [F.inode_root]; decide⟩
    · exact ⟨by decide, by rw [F.inode_bin]; decide⟩

theorem isDir {i : UInt32} (hi : s.Live i) : s.IsDir i := by
  refine ⟨hi.1, ?_⟩
  rcases F.live_iff.mp hi with rfl | rfl
  · rw [F.inode_root]; rfl
  · rw [F.inode_bin]; rfl

theorem usable_iff {d : UInt32} : s.UsableDir d ↔ d = 0 := by
  constructor
  · intro h
    rcases F.live_iff.mp h.isDir.live with rfl | rfl
    · rfl
    · have := h.2.2.1
      rw [F.inode_bin] at this
      exact absurd rfl this
  · rintro rfl
    unfold FsState.UsableDir
    rw [F.inode_root]
    decide

theorem blockUsed_iff {b : UInt32} : s.BlockUsed b ↔ b = 1 := by
  constructor
  · rintro ⟨hv, hb⟩
    rw [F.bits b hv.2, decide_eq_true_eq] at hb
    exact hb.resolve_left hv.1
  · rintro rfl
    exact ⟨by decide, by rw [F.bits 1 (by decide)]; rfl⟩

theorem blockRef_iff {x : UInt32 × Fin 12} {b : UInt32} :
    s.blockRef x = some b ↔ x = (0, 0) ∧ b = 1 := by
  obtain ⟨i, k⟩ := x
  rw [FsState.blockRef_eq_some, F.live_iff]
  constructor
  · rintro ⟨rfl | rfl, hk, h0⟩
    · simp only [F.inode_root, rootInode] at hk
      split at hk
      · next h => exact ⟨by rw [h], hk.symm⟩
      · exact absurd hk.symm h0
    · simp only [F.inode_bin, dirInode, ite_self] at hk
      exact absurd hk.symm h0
  · rintro ⟨h, rfl⟩
    cases h
    exact ⟨.inl rfl, by rw [F.inode_root]; rfl, by decide⟩

theorem blocks : Blocks s where
  clean i hi hfree := by
    have hn : ¬ (i = 0 ∨ i = 1) := fun h => (F.live_iff.mpr h).2 hfree
    rw [not_or] at hn
    rw [F.table i hi, if_neg hn.1, if_neg hn.2]
    exact ⟨rfl, fun _ => rfl⟩
  block0 := by rw [F.bits 0 (by decide)]; rfl
  owned :=
    { used_iff := fun b => by
        rw [F.blockUsed_iff]
        simp only [F.blockRef_iff]
        exact ⟨fun h => ⟨(0, 0), rfl, h⟩, fun ⟨_, _, h⟩ => h⟩
      inj := fun x y b hx hy => by
        rw [(F.blockRef_iff.mp hx).1, (F.blockRef_iff.mp hy).1] }

theorem parent_eq {i : UInt32} (hi : s.Live i) : (s.inodeTable i).parentInode = 0 := by
  rcases F.live_iff.mp hi with rfl | rfl
  · rw [F.inode_root]; rfl
  · rw [F.inode_bin]; rfl

theorem shape : Shape s where
  root := F.root
  types i hi := .inr (F.isDir hi)
  rootDir := ⟨F.isDir (F.live_iff.mpr (.inl rfl)), F.parent_eq (F.live_iff.mpr (.inl rfl))⟩
  bin := ⟨F.isDir (F.live_iff.mpr (.inr rfl)), by rw [F.inode_bin]; rfl⟩
  dirs d hd h1 := by
    rcases F.live_iff.mp hd.live with rfl | rfl
    · exact (F.usable_iff.mpr rfl).2.2
    · exact absurd rfl h1
  parents i hi := by
    rw [F.parent_eq hi]
    exact F.isDir (F.live_iff.mpr (.inl rfl))
  rooted i hi := by
    refine .child ?_ ?_ <;> rw [F.parent_eq hi]
    · exact F.isDir (F.live_iff.mpr (.inl rfl))
    · exact .root

theorem slot_cases {j : Fin 15} {c : List UInt8} {e : UInt32} (hj : 2 ≤ j)
    (h : s.slots 0 j = some (c, e)) : j = 2 ∧ c = ascii "bin" ∧ e = 1 := by
  rw [F.slots] at h
  by_cases h2 : j = 2
  · rw [h2, Function.update_self] at h
    cases h
    exact ⟨h2, rfl, rfl⟩
  · rw [Function.update_of_ne h2, dotSlots_of_two_le hj] at h
    cases h

theorem entriesOf : EntriesOf s 0 where
  dot := by rw [F.slots]; rfl
  dotdot := by rw [F.slots, F.inode_root]; rfl
  entry j c e hj h := by
    obtain ⟨-, rfl, rfl⟩ := F.slot_cases hj h
    have hl := F.live_iff.mpr (.inr rfl)
    exact ⟨⟨by constructor <;> decide +kernel, by decide +kernel, by decide +kernel⟩, hl,
      by decide, F.parent_eq hl⟩
  distinct j k c c' e hj hk h1 h2 := (F.slot_cases hj h1).1.trans (F.slot_cases hk h2).1.symm
  order j k c e e' _ he _ _ _ := absurd (F.isDir he.live) he.not_isDir

/-- **The invariant holds once `/bin` is there.** -/
theorem inv : Inv s where
  perfect := F.perfect
  blocks := F.blocks
  shape := F.shape
  entries _ hd := F.usable_iff.mp hd ▸ F.entriesOf
  files _ hi := absurd (F.isDir hi.live) hi.not_isDir

theorem counters : Counters s where
  blocks := by
    have h : s.clearBlocks.card + [(0 : UInt32), 1].length = (indices 512).toFinset.card := by
      refine card_free (by decide) (fun b hb => ?_) fun b hb => ?_
      · refine List.mem_toFinset.mpr (mem_blocks.mpr ?_)
        rcases List.mem_pair.mp hb with rfl | rfl <;> decide
      · rw [F.bits b (mem_blocks.mp (List.mem_toFinset.mp hb))]
        simp
    rw [card_indices (by omega), List.length_cons, List.length_singleton] at h
    rw [F.freeBlocks]
    show 510 = _
    omega
  inodes := by
    have h : s.freeNumbers.card + [(0 : UInt32), 1].length = (indices 200).toFinset.card := by
      refine card_free (by decide) (fun i hi => ?_) fun i hi => ?_
      · refine List.mem_toFinset.mpr (mem_inodes.mpr ?_)
        rcases List.mem_pair.mp hi with rfl | rfl <;> decide
      · have hlive := F.live_iff (i := i)
        have hlt := mem_inodes.mp (List.mem_toFinset.mp hi)
        unfold FsState.Live at hlive
        simp only [hlt, true_and] at hlive
        rw [← not_iff_not, not_not]
        exact hlive.trans (by simp)
    rw [card_indices (by omega), List.length_cons, List.length_singleton] at h
    rw [F.freeInodes]
    show 198 = _
    omega

end Fresh

end EphemeralOS
