import EphemeralOS.Fs.LookupSpec

/-!
# Views of the state

What the proofs look at instead of raw bytes: the bits of the bitmap (`bit`),
the sectors of the data blocks (`data`), the slots of a directory sector
(`slots_sectorOfDir`), and the objects stored on the disk (`storedTable`,
`storedBitmap`, `storedSuperblock`), with one lemma per update and view.
-/

namespace EphemeralOS

open Binary Directory

theorem lt_fsMaxInodes {i : UInt32} : i < fsMaxInodes ↔ i.toNat < 200 := UInt32.lt_iff_toNat_lt

theorem lt_fsMaxBlocks {b : UInt32} : b < fsMaxBlocks ↔ b.toNat < 512 := UInt32.lt_iff_toNat_lt

theorem noNumber_not_lt : ¬ noNumber < fsMaxInodes := by decide

theorem ne_noNumber_of_lt {i : UInt32} (h : i < fsMaxInodes) : i ≠ noNumber := fun e =>
  noNumber_not_lt (e ▸ h)

theorem ne_noNumber_of_lt_blocks {b : UInt32} (h : b < fsMaxBlocks) : b ≠ noNumber := fun e =>
  absurd (e ▸ h) (by decide)

theorem dataSector_inj {a b : UInt32} (h : fsDataStartSector + a.toNat = fsDataStartSector + b.toNat) :
    a = b := UInt32.toNat_inj.mp (Nat.add_left_cancel h)

/-! ## Directory sectors -/

theorem val_sectorOfDir (d : DirBlock) : (sectorOfDir d).val = (dirBlockLayout.enc d).take 512 := by
  have hlen : (dirBlockLayout.enc d).length = 540 := dirBlockLayout.enc_length d
  have : ((dirBlockLayout.enc d).take 512).length = 512 := by rw [List.length_take, hlen]; rfl
  show chunk 512 (dirBlockLayout.enc d) 0 = _
  simp only [chunk, Nat.zero_mul, List.drop_zero, this, Nat.sub_self, List.replicate_zero,
    List.append_nil]

/-- A directory block read back is the block written, but for its last entry. -/
theorem dirOfSector_sectorOfDir (d : DirBlock) {i : Fin 15} (hi : i ≠ 14) :
    dirOfSector (sectorOfDir d) i = d i := by
  rw [dirOfSector, val_sectorOfDir]
  refine Layout.dec_array_take dirEntryLayout d _ i ?_
  have hs : dirEntryLayout.size = 36 := rfl
  have : (i : Nat) ≠ 14 := fun e => hi (Fin.ext e)
  rw [hs]; omega

/-- **The last entry of a directory block never reads as in use**: its `in_use` byte lies past the
512 bytes that are transferred. -/
theorem inUse_last (sec : Sector) : (dirOfSector sec 14).inUse = 0 := by
  have hin : (dirOfSector sec 14).inUse =
      ((sec.val ++ List.replicate 28 0).drop 504 |>.drop 28 |>.drop 4).headD 0 := rfl
  have hlen : sec.val.length = 512 := sec.property
  rw [hin, List.drop_drop, List.drop_drop, List.drop_append, List.drop_eq_nil_of_le (by omega),
    hlen, List.drop_replicate]
  rfl

theorem slotsOf_eq_some {d : DirBlock} {i : Fin 15} {c : List UInt8} {e : UInt32} :
    slotsOf d i = some (c, e) ↔ (d i).inUse = 1 ∧ (d i).name.cstr = c ∧ (d i).inode = e := by
  unfold slotsOf
  split <;> simp_all

theorem slotsOf_eq_none {d : DirBlock} {i : Fin 15} : slotsOf d i = none ↔ (d i).inUse ≠ 1 := by
  unfold slotsOf
  split <;> simp_all

theorem slotsOf_congr {d d' : DirBlock} {i : Fin 15} (h : d i = d' i) : slotsOf d i = slotsOf d' i := by
  unfold slotsOf; rw [h]

/-- The slots a directory block has once it is on the disk. -/
theorem slots_sectorOfDir (d : DirBlock) :
    slotsOf (dirOfSector (sectorOfDir d)) = Function.update (slotsOf d) 14 none := by
  funext i
  by_cases hi : i = 14
  · subst hi
    rw [Function.update_self, slotsOf_eq_none, inUse_last]
    decide
  · rw [Function.update_of_ne hi]
    exact slotsOf_congr (dirOfSector_sectorOfDir d hi)

theorem slots_last (sec : Sector) : slotsOf (dirOfSector sec) 14 = none := by
  rw [slotsOf_eq_none, inUse_last]; decide

theorem slots_zero : slotsOf (dirOfSector Sector.zero) = fun _ => none := by
  have h : ∀ i : Fin 15, (dirOfSector Sector.zero i).inUse ≠ 1 := by decide +kernel
  funext i
  exact slotsOf_eq_none.mpr (h i)

/-- Entering a name in a slot of a block that came from the disk. -/
theorem slots_update_entry (d : DirBlock) (i : Fin 15) {name : List UInt8} (h0 : 0 ∉ name)
    (hn : name.length < fsMaxFilename) (e : UInt32) :
    slotsOf (Function.update d i ⟨(d i).name.strcpy name, e, 1⟩) =
      Function.update (slotsOf d) i (some (name, e)) := by
  funext j
  by_cases hj : j = i
  · subst hj
    rw [Function.update_self, slotsOf_eq_some, Function.update_self]
    exact ⟨rfl, CArray.cstr_strcpy _ h0 hn, rfl⟩
  · rw [Function.update_of_ne hj]
    exact slotsOf_congr (Function.update_of_ne hj _ _)

theorem slots_update_unused (d : DirBlock) (i : Fin 15) {v : DirEntry} (hv : v.inUse ≠ 1) :
    slotsOf (Function.update d i v) = Function.update (slotsOf d) i none := by
  funext j
  by_cases hj : j = i
  · subst hj
    rw [Function.update_self, slotsOf_eq_none, Function.update_self]
    exact hv
  · rw [Function.update_of_ne hj]
    exact slotsOf_congr (Function.update_of_ne hj _ _)

namespace FsState

/-- Bit `b` of the block bitmap. -/
def bit (s : FsState) (b : UInt32) : Bool := Bits.test s.blockBitmap b

@[simp] theorem setInode_superblock (s : FsState) (n : UInt32) (v : Inode) :
    (s.setInode n v).superblock = s.superblock := rfl
@[simp] theorem setInode_blockBitmap (s : FsState) (n : UInt32) (v : Inode) :
    (s.setInode n v).blockBitmap = s.blockBitmap := rfl
@[simp] theorem setInode_disk (s : FsState) (n : UInt32) (v : Inode) :
    (s.setInode n v).disk = s.disk := rfl

@[simp] theorem bit_setInode (s : FsState) (n : UInt32) (v : Inode) (b : UInt32) :
    (s.setInode n v).bit b = s.bit b := rfl

theorem isBlockFree_eq {s : FsState} {b : UInt32} : s.isBlockFree b = true ↔
    b < fsMaxBlocks ∧ s.bit b = false := by
  unfold isBlockFree bit
  by_cases h : b < fsMaxBlocks
  · rw [if_neg (by simpa using h)]; simp [h]
  · rw [if_pos (by simpa using h)]; simp [h]

theorem markBlockUsed_of_lt (s : FsState) {b : UInt32} (hb : b < fsMaxBlocks) :
    s.markBlockUsed b = { s with
      blockBitmap := Bits.set s.blockBitmap b
      superblock := { s.superblock with freeBlocks := s.superblock.freeBlocks - 1 } } := by
  unfold markBlockUsed; rw [if_neg (UInt32.not_le.mpr hb)]

theorem markBlockFree_of_lt (s : FsState) {b : UInt32} (hb : b < fsMaxBlocks) :
    s.markBlockFree b = { s with
      blockBitmap := Bits.clear s.blockBitmap b
      superblock := { s.superblock with freeBlocks := s.superblock.freeBlocks + 1 } } := by
  unfold markBlockFree; rw [if_neg (UInt32.not_le.mpr hb)]

end FsState

section Write

variable (b : UInt32) (sec : Sector) (s : FsState)

@[simp] theorem writeInodeBlock_superblock :
    (writeInodeBlock b sec s).superblock = s.superblock := by unfold writeInodeBlock; split <;> rfl
@[simp] theorem writeInodeBlock_inodeTable :
    (writeInodeBlock b sec s).inodeTable = s.inodeTable := by unfold writeInodeBlock; split <;> rfl
@[simp] theorem writeInodeBlock_blockBitmap :
    (writeInodeBlock b sec s).blockBitmap = s.blockBitmap := by unfold writeInodeBlock; split <;> rfl
@[simp] theorem writeInodeBlock_bit (x : UInt32) : (writeInodeBlock b sec s).bit x = s.bit x := by
  simp [FsState.bit]
@[simp] theorem writeInodeBlock_faults :
    (writeInodeBlock b sec s).disk.faults = s.disk.faults := by unfold writeInodeBlock; split <;> rfl

theorem validBlock_iff_not {b : UInt32} : ValidBlock b ↔ ¬ (b = 0 ∨ b ≥ fsMaxBlocks) := by
  rw [not_or]
  exact and_congr_right fun _ => UInt32.not_le.symm

theorem writeInodeBlock_sectors (x : Nat) : (writeInodeBlock b sec s).disk.sectors x =
    if ValidBlock b ∧ x = fsDataStartSector + b.toNat then sec else s.disk.sectors x := by
  unfold writeInodeBlock
  by_cases hv : ValidBlock b
  · rw [if_neg (validBlock_iff_not.mp hv), Disk.sectors_write]
    simp [hv]
  · rw [if_pos (not_not.mp (mt validBlock_iff_not.mpr hv))]
    simp [hv]

theorem writeInodeBlock_data (x : UInt32) : (writeInodeBlock b sec s).data x =
    if ValidBlock b ∧ x = b then sec else s.data x := by
  unfold FsState.data
  rw [writeInodeBlock_sectors]
  have : fsDataStartSector + x.toNat = fsDataStartSector + b.toNat ↔ x = b :=
    ⟨dataSector_inj, fun e => by rw [e]⟩
  simp only [this]

theorem writeInodeBlock_meta {x : Nat} (hx : x < fsDataStartSector) :
    (writeInodeBlock b sec s).disk.sectors x = s.disk.sectors x := by
  rw [writeInodeBlock_sectors, if_neg fun h => by omega]

end Write

/-! ## Syncing and loading -/

def FsState.storedSuperblock (s : FsState) : Superblock :=
  superblockLayout.dec (s.disk.sectors fsSuperblockSector).val

def FsState.storedTable (s : FsState) : Fin 200 → Inode :=
  inodeTableLayout.dec (s.disk.object fsInodeTableSector (sectorsNeeded inodeTableLayout.size))

def FsState.storedBitmap (s : FsState) : Fin 64 → UInt8 :=
  blockBitmapLayout.dec (s.disk.object fsBlockBitmapSector (sectorsNeeded blockBitmapLayout.size))

theorem sectorsNeeded_inodeTable : sectorsNeeded inodeTableLayout.size = 24 := rfl
theorem sectorsNeeded_blockBitmap : sectorsNeeded blockBitmapLayout.size = 1 := rfl

theorem storedTable_congr {s s' : FsState}
    (h : ∀ x, 101 ≤ x → x < 125 → s'.disk.sectors x = s.disk.sectors x) :
    s'.storedTable = s.storedTable := by
  refine congrArg inodeTableLayout.dec (Disk.object_congr fun x h1 h2 => ?_)
  rw [sectorsNeeded_inodeTable] at h2
  exact h x h1 h2

theorem storedBitmap_congr {s s' : FsState} (h : s'.disk.sectors 151 = s.disk.sectors 151) :
    s'.storedBitmap = s.storedBitmap := by
  refine congrArg blockBitmapLayout.dec (Disk.object_congr fun x h1 h2 => ?_)
  rw [sectorsNeeded_blockBitmap] at h2
  simp only [fsBlockBitmapSector] at h1 h2
  rw [show x = 151 by omega, h]

theorem storedSuperblock_congr {s s' : FsState} (h : s'.disk.sectors 100 = s.disk.sectors 100) :
    s'.storedSuperblock = s.storedSuperblock := by
  unfold FsState.storedSuperblock
  rw [show fsSuperblockSector = 100 from rfl, h]

theorem data_congr {s s' : FsState} (h : s'.disk = s.disk) (b : UInt32) : s'.data b = s.data b := by
  unfold FsState.data
  rw [h]

/-- The stored objects depend on the sectors before the data area only. -/
theorem stored_congr {s s' : FsState}
    (h : ∀ x, x < fsDataStartSector → s'.disk.sectors x = s.disk.sectors x) :
    s'.storedSuperblock = s.storedSuperblock ∧ s'.storedTable = s.storedTable ∧
      s'.storedBitmap = s.storedBitmap := by
  have hd : fsDataStartSector = 201 := rfl
  exact ⟨storedSuperblock_congr (h _ (by decide)),
    storedTable_congr fun x _ _ => h x (by omega), storedBitmap_congr (h _ (by decide))⟩

theorem prefix_ofBytes (l : List UInt8) (h : l.length ≤ 512) : l <+: (Sector.ofBytes l 0).val := by
  have h1 : (List.range 1).flatMap (chunk 512 l) = (Sector.ofBytes l 0).val := by
    rw [List.range_one, List.flatMap_cons, List.flatMap_nil, List.append_nil]
    rfl
  exact h1 ▸ prefix_chunks (by omega)

theorem tableObject_congr {s s' : FsState} (h : s.inodeTable = s'.inodeTable) :
    s.tableObject = s'.tableObject := by unfold FsState.tableObject; rw [h]

theorem bitmapObject_congr {s s' : FsState} (h : s.blockBitmap = s'.blockBitmap) :
    s.bitmapObject = s'.bitmapObject := by unfold FsState.bitmapObject; rw [h]

section Sync

variable (s : FsState)

@[simp] theorem syncSuperblock_superblock : (syncSuperblock s).superblock = s.superblock := rfl
@[simp] theorem syncSuperblock_inodeTable : (syncSuperblock s).inodeTable = s.inodeTable := rfl
@[simp] theorem syncSuperblock_blockBitmap : (syncSuperblock s).blockBitmap = s.blockBitmap := rfl
@[simp] theorem syncSuperblock_faults : (syncSuperblock s).disk.faults = s.disk.faults := rfl
@[simp] theorem syncInodeTable_superblock : (syncInodeTable s).superblock = s.superblock := rfl
@[simp] theorem syncInodeTable_inodeTable : (syncInodeTable s).inodeTable = s.inodeTable := rfl
@[simp] theorem syncInodeTable_blockBitmap : (syncInodeTable s).blockBitmap = s.blockBitmap := rfl
@[simp] theorem syncInodeTable_faults : (syncInodeTable s).disk.faults = s.disk.faults :=
  Disk.faults_writeObject ..
@[simp] theorem syncBlockBitmap_superblock : (syncBlockBitmap s).superblock = s.superblock := rfl
@[simp] theorem syncBlockBitmap_inodeTable : (syncBlockBitmap s).inodeTable = s.inodeTable := rfl
@[simp] theorem syncBlockBitmap_blockBitmap : (syncBlockBitmap s).blockBitmap = s.blockBitmap := rfl
@[simp] theorem syncBlockBitmap_faults : (syncBlockBitmap s).disk.faults = s.disk.faults :=
  Disk.faults_writeObject ..

theorem syncSuperblock_sectors {x : Nat} (hx : x ≠ fsSuperblockSector) :
    (syncSuperblock s).disk.sectors x = s.disk.sectors x := by
  show (s.disk.write _ _).sectors x = _
  rw [Disk.sectors_write, if_neg hx]

theorem syncInodeTable_sectors {x : Nat} (hx : x < 101 ∨ 125 ≤ x) :
    (syncInodeTable s).disk.sectors x = s.disk.sectors x := by
  show (s.disk.writeObject 101 _ 24).sectors x = _
  rw [Disk.sectors_writeObject, if_neg (by omega)]

theorem syncBlockBitmap_sectors {x : Nat} (hx : x ≠ 151) :
    (syncBlockBitmap s).disk.sectors x = s.disk.sectors x := by
  show (s.disk.writeObject 151 _ 1).sectors x = _
  rw [Disk.sectors_writeObject, if_neg (by omega)]

@[simp] theorem syncSuperblock_data (b : UInt32) : (syncSuperblock s).data b = s.data b :=
  syncSuperblock_sectors s (by simp only [fsSuperblockSector, fsDataStartSector]; omega)

@[simp] theorem syncInodeTable_data (b : UInt32) : (syncInodeTable s).data b = s.data b :=
  syncInodeTable_sectors s (by simp only [fsDataStartSector]; omega)

@[simp] theorem syncBlockBitmap_data (b : UInt32) : (syncBlockBitmap s).data b = s.data b :=
  syncBlockBitmap_sectors s (by simp only [fsDataStartSector]; omega)

@[simp] theorem syncSuperblock_storedSuperblock :
    (syncSuperblock s).storedSuperblock = s.superblock := by
  unfold FsState.storedSuperblock
  show superblockLayout.dec ((s.disk.write _ _).sectors _).val = _
  rw [Disk.sectors_write, if_pos rfl]
  exact superblockLayout.dec_of_prefix (prefix_ofBytes _ (by
    rw [Layout.length_enc, sizeof_superblock]; omega))

@[simp] theorem syncInodeTable_storedTable : (syncInodeTable s).storedTable = s.tableObject :=
  inodeTableLayout.dec_of_prefix (Disk.prefix_object_write _ (by
    rw [Layout.length_enc, sectorsNeeded_inodeTable, sizeof_inodeTable]; omega))

@[simp] theorem syncBlockBitmap_storedBitmap : (syncBlockBitmap s).storedBitmap = s.bitmapObject :=
  blockBitmapLayout.dec_of_prefix (Disk.prefix_object_write _ (by
    rw [Layout.length_enc, sectorsNeeded_blockBitmap, sizeof_blockBitmap]; omega))

@[simp] theorem syncBlockBitmap_storedTable : (syncBlockBitmap s).storedTable = s.storedTable :=
  storedTable_congr fun x _ _ => syncBlockBitmap_sectors s (by omega)

@[simp] theorem syncBlockBitmap_storedSuperblock :
    (syncBlockBitmap s).storedSuperblock = s.storedSuperblock :=
  storedSuperblock_congr (syncBlockBitmap_sectors s (by decide))

@[simp] theorem syncInodeTable_storedSuperblock :
    (syncInodeTable s).storedSuperblock = s.storedSuperblock :=
  storedSuperblock_congr (syncInodeTable_sectors s (by decide))

@[simp] theorem syncSuperblock_storedTable : (syncSuperblock s).storedTable = s.storedTable :=
  storedTable_congr fun x _ _ =>
    syncSuperblock_sectors s (by simp only [fsSuperblockSector]; omega)

@[simp] theorem syncSuperblock_storedBitmap : (syncSuperblock s).storedBitmap = s.storedBitmap :=
  storedBitmap_congr (syncSuperblock_sectors s (by decide))

end Sync

section Load

variable {s : FsState} (hs : s.disk.Perfect)
include hs

theorem loadSuperblock_eq : loadSuperblock s = { s with superblock := s.storedSuperblock } := by
  unfold loadSuperblock
  rw [Disk.read_perfect hs]
  rfl

theorem loadInodeTable_eq : loadInodeTable s = { s with
    inodeTable := fun i => if h : i.toNat < 200 then s.storedTable ⟨i.toNat, h⟩ else s.inodeTable i } := by
  unfold loadInodeTable
  rw [Disk.readObject_perfect hs]
  rfl

theorem loadBlockBitmap_eq : loadBlockBitmap s = { s with
    blockBitmap := fun i => if h : i.toNat < 64 then s.storedBitmap ⟨i.toNat, h⟩ else s.blockBitmap i } := by
  unfold loadBlockBitmap
  rw [Disk.readObject_perfect hs]
  rfl

/-- **`fs_init` puts the stored objects in memory and touches nothing else.** -/
theorem fsInit_eq : fsInit s = { s with
    superblock := s.storedSuperblock
    inodeTable := fun i => if h : i.toNat < 200 then s.storedTable ⟨i.toNat, h⟩ else s.inodeTable i
    blockBitmap := fun i =>
      if h : i.toNat < 64 then s.storedBitmap ⟨i.toNat, h⟩ else s.blockBitmap i } := by
  unfold fsInit
  rw [loadSuperblock_eq hs, loadInodeTable_eq (by exact hs), loadBlockBitmap_eq (by exact hs)]
  simp only [FsState.storedTable, FsState.storedBitmap]

end Load

end EphemeralOS
