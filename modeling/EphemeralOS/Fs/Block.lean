import EphemeralOS.Fs.Types

/-!
# Allocation and disk transfers

The block and inode allocators, the `sync_*` and `load_*` transfers of the
superblock, the inode table and the bitmap, and the transfers of data blocks
(`fs/filesystem.c`, lines 11 to 136). A transfer of a table moves whole
sectors; what follows the object in its last sector is written as zeros and
dropped on reading, since each transfer is taken to touch only the object it
names.
-/

namespace EphemeralOS

open Binary

namespace FsState

def setInode (s : FsState) (n : UInt32) (v : Inode) : FsState :=
  { s with inodeTable := Function.update s.inodeTable n v }

/-- `inode_table[n].blocks[k] = b`. -/
def setInodeBlock (s : FsState) (n : UInt32) (k : Nat) (b : UInt32) : FsState :=
  s.setInode n { s.inodeTable n with
    blocks := fun j => if (j : Nat) = k then b else (s.inodeTable n).blocks j }

def isBlockFree (s : FsState) (blockNum : UInt32) : Bool :=
  if blockNum ≥ fsMaxBlocks then false else !Bits.test s.blockBitmap blockNum

def markBlockUsed (s : FsState) (blockNum : UInt32) : FsState :=
  if blockNum ≥ fsMaxBlocks then s
  else { s with
    blockBitmap := Bits.set s.blockBitmap blockNum
    superblock := { s.superblock with freeBlocks := s.superblock.freeBlocks - 1 } }

def markBlockFree (s : FsState) (blockNum : UInt32) : FsState :=
  if blockNum ≥ fsMaxBlocks then s
  else { s with
    blockBitmap := Bits.clear s.blockBitmap blockNum
    superblock := { s.superblock with freeBlocks := s.superblock.freeBlocks + 1 } }

end FsState

/-- The first free block, marked used; `noNumber` when the bitmap is full. -/
def allocateBlock : FsM UInt32 := fun s =>
  match (indices 512).find? s.isBlockFree with
  | some i => (i, s.markBlockUsed i)
  | none => (noNumber, s)

/-- The first free inode, initialised as an empty file; `noNumber` when there is none. -/
def allocateInode : FsM UInt32 := fun s =>
  match (indices 200).find? fun i => (s.inodeTable i).type = inodeTypeFree with
  | some i =>
    (i, { s.setInode i ⟨inodeTypeFile, 0, fun _ => 0, 0⟩ with
      superblock := { s.superblock with freeInodes := s.superblock.freeInodes - 1 } })
  | none => (noNumber, s)

/-- The loop of `free_inode` over `blocks[k..]`. -/
def freeInodeBlocks (inodeNum : UInt32) : List (Fin 12) → FsState → FsState
  | [], s => s
  | k :: ks, s =>
    let b := (s.inodeTable inodeNum).blocks k
    freeInodeBlocks inodeNum ks
      (if b ≠ 0 then (s.markBlockFree b).setInodeBlock inodeNum k 0 else s)

def freeInode (inodeNum : UInt32) (s : FsState) : FsState :=
  if inodeNum ≥ fsMaxInodes then s
  else
    let s := freeInodeBlocks inodeNum (List.finRange 12) s
    let s := s.setInode inodeNum { s.inodeTable inodeNum with type := inodeTypeFree, size := 0 }
    { s with superblock := { s.superblock with freeInodes := s.superblock.freeInodes + 1 } }

/-- `(size + 511) / 512`. -/
def sectorsNeeded (size : Nat) : Nat := (size + 511) / 512

def FsState.tableObject (s : FsState) : Fin 200 → Inode := fun i => s.inodeTable (UInt32.ofNat i)

def FsState.bitmapObject (s : FsState) : Fin 64 → UInt8 := fun i => s.blockBitmap (UInt32.ofNat i)

def syncSuperblock (s : FsState) : FsState :=
  let sec := Sector.ofBytes (superblockLayout.enc s.superblock) 0
  { s with disk := s.disk.write fsSuperblockSector sec }

def syncInodeTable (s : FsState) : FsState :=
  let n := sectorsNeeded inodeTableLayout.size
  { s with disk := s.disk.writeObject fsInodeTableSector (inodeTableLayout.enc s.tableObject) n }

def syncBlockBitmap (s : FsState) : FsState :=
  let n := sectorsNeeded blockBitmapLayout.size
  { s with disk := s.disk.writeObject fsBlockBitmapSector (blockBitmapLayout.enc s.bitmapObject) n }

def loadSuperblock (s : FsState) : FsState :=
  let (sec, disk) := s.disk.read fsSuperblockSector
  { s with superblock := superblockLayout.dec sec.val, disk := disk }

def loadInodeTable (s : FsState) : FsState :=
  let (l, disk) := s.disk.readObject fsInodeTableSector (sectorsNeeded inodeTableLayout.size)
  { s with
    inodeTable := fun i =>
      if h : i.toNat < 200 then inodeTableLayout.dec l ⟨i.toNat, h⟩ else s.inodeTable i
    disk := disk }

def loadBlockBitmap (s : FsState) : FsState :=
  let (l, disk) := s.disk.readObject fsBlockBitmapSector (sectorsNeeded blockBitmapLayout.size)
  { s with
    blockBitmap := fun i =>
      if h : i.toNat < 64 then blockBitmapLayout.dec l ⟨i.toNat, h⟩ else s.blockBitmap i
    disk := disk }

def readInodeBlock (blockNum : UInt32) : FsM Sector := fun s =>
  if blockNum = 0 ∨ blockNum ≥ fsMaxBlocks then (Sector.zero, s)
  else
    let (sec, disk) := s.disk.read (fsDataStartSector + blockNum.toNat)
    (sec, { s with disk := disk })

def writeInodeBlock (blockNum : UInt32) (sec : Sector) (s : FsState) : FsState :=
  if blockNum = 0 ∨ blockNum ≥ fsMaxBlocks then s
  else { s with disk := s.disk.write (fsDataStartSector + blockNum.toNat) sec }

end EphemeralOS
