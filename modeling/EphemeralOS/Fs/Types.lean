import EphemeralOS.Lib.Bitmap
import EphemeralOS.Lib.Path
import EphemeralOS.Kernel.String
import EphemeralOS.Drivers.Disk
import Mathlib.Data.Fin.VecNotation

/-!
# File system data

The constants and structures of `fs/filesystem.h`, the C layout of each
structure that goes to disk, and the state of the file system: the static
objects of `fs/filesystem.c` and the disk.

An `fs_dir_block_t` is 540 bytes long and goes to disk through transfers of 512
bytes, so its last entry loses everything after the first eight bytes of its
name (`sizeof_dirBlock`, `sectorOfDir`, `dirOfSector`).
-/

namespace EphemeralOS

open Binary

/-! ## Constants -/

def fsMagic : UInt32 := 0x45504853
def fsVersion : UInt32 := 2

def fsSuperblockSector : Nat := 100
def fsInodeTableSector : Nat := 101
def fsBlockBitmapSector : Nat := 151
def fsDataStartSector : Nat := 201

def fsMaxInodes : UInt32 := 200
def fsMaxBlocks : UInt32 := 512
def fsBlockSize : UInt32 := 512
def fsMaxFilename : Nat := 28
def fsMaxFileSize : UInt32 := 16384
def fsInodeDirectBlocks : UInt32 := 12

def inodeTypeFree : UInt8 := 0
def inodeTypeFile : UInt8 := 1
def inodeTypeDir : UInt8 := 2

/-- The number `0xFFFFFFFF`, for "no such inode" and "no free block". -/
def noNumber : UInt32 := 0xFFFFFFFF

/-- A literal is an index of `blocks`. -/
instance neZeroBlocks : NeZero 12 := ⟨by decide⟩

/-- A literal is an index of `entries`. -/
instance neZeroEntries : NeZero 15 := ⟨by decide⟩

/-- `fs_superblock_t`. -/
structure Superblock where
  magic : UInt32
  version : UInt32
  totalInodes : UInt32
  totalBlocks : UInt32
  freeInodes : UInt32
  freeBlocks : UInt32
  rootInode : UInt32
  installed : UInt32
  hostname : CArray 64
  username : CArray 64
  passwordHash : CArray 32

/-- `fs_inode_t`. -/
structure Inode where
  type : UInt8
  size : UInt32
  blocks : Fin 12 → UInt32
  parentInode : UInt32

/-- `fs_dir_entry_t`. -/
structure DirEntry where
  name : CArray 28
  inode : UInt32
  inUse : UInt8

/-- `fs_dir_block_t`: its only field, the `entries` array. -/
abbrev DirBlock := Fin 15 → DirEntry

def Superblock.zero : Superblock := ⟨0, 0, 0, 0, 0, 0, 0, 0, CArray.zero, CArray.zero, CArray.zero⟩
def Inode.zero : Inode := ⟨inodeTypeFree, 0, fun _ => 0, 0⟩
def DirEntry.zero : DirEntry := ⟨CArray.zero, 0, 0⟩
def DirBlock.zero : DirBlock := fun _ => DirEntry.zero

def superblockLayout : Layout Superblock :=
  Layout.record
    ((Layout.array 8 Layout.word32).seq ((Layout.array 64 Layout.byte).seq
      ((Layout.array 64 Layout.byte).seq (Layout.array 32 Layout.byte))))
    (fun p => ⟨p.1 0, p.1 1, p.1 2, p.1 3, p.1 4, p.1 5, p.1 6, p.1 7, p.2.1, p.2.2.1, p.2.2.2⟩)
    (fun b => (![b.magic, b.version, b.totalInodes, b.totalBlocks, b.freeInodes, b.freeBlocks,
      b.rootInode, b.installed], b.hostname, b.username, b.passwordHash))
    (fun _ => rfl)

/-- Three padding bytes align `size`. -/
def inodeLayout : Layout Inode :=
  Layout.record
    (Layout.byte.seq ((Layout.pad 3).seq (Layout.word32.seq
      ((Layout.array 12 Layout.word32).seq Layout.word32))))
    (fun p => ⟨p.1, p.2.2.1, p.2.2.2.1, p.2.2.2.2⟩)
    (fun v => (v.type, (), v.size, v.blocks, v.parentInode))
    (fun _ => rfl)

/-- Three padding bytes after `in_use` align the next entry. -/
def dirEntryLayout : Layout DirEntry :=
  Layout.record
    ((Layout.array 28 Layout.byte).seq (Layout.word32.seq (Layout.byte.seq (Layout.pad 3))))
    (fun p => ⟨p.1, p.2.1, p.2.2.1⟩)
    (fun e => (e.name, e.inode, e.inUse, ()))
    (fun _ => rfl)

def dirBlockLayout : Layout DirBlock := Layout.array 15 dirEntryLayout

def inodeTableLayout : Layout (Fin 200 → Inode) := Layout.array 200 inodeLayout

def blockBitmapLayout : Layout (Fin 64 → UInt8) := Layout.array 64 Layout.byte

theorem sizeof_superblock : superblockLayout.size = 192 := rfl
theorem sizeof_inodeTable : inodeTableLayout.size = 12000 := rfl
theorem sizeof_blockBitmap : blockBitmapLayout.size = 64 := rfl
theorem sizeof_dirBlock : dirBlockLayout.size = 540 := rfl

/-- The 512 bytes that go to disk when a directory block is written. -/
def sectorOfDir (d : DirBlock) : Sector := Sector.ofBytes (dirBlockLayout.enc d) 0

/-- The directory block after `memset(&block, 0, sizeof(block))` and a 512-byte read into it. -/
def dirOfSector (sec : Sector) : DirBlock :=
  dirBlockLayout.dec (sec.val ++ List.replicate (dirBlockLayout.size - 512) 0)

/-! ## State -/

/-- The static objects of `filesystem.c`, and the disk. The inode table is indexed by inode
number; what lies past its 200 entries is whatever memory holds there. -/
structure FsState where
  superblock : Superblock
  inodeTable : UInt32 → Inode
  blockBitmap : UInt32 → UInt8
  sectorBuffer : Sector
  disk : Disk

/-- A C function on the file system's state. -/
abbrev FsM (α : Type) := StateM FsState α

namespace FsM

variable {α β : Type}

def gets (f : FsState → α) : FsM α := fun s => (f s, s)

def modify (f : FsState → FsState) : FsM Unit := fun s => ((), f s)

/-- A step of known result. Running a function statement by statement through this lemma puts
each result where the rest of the function tests it. -/
theorem bind_eq {x : FsM α} {s s' : FsState} {a : α} (h : x s = (a, s')) (f : α → FsM β) :
    (x >>= f) s = f a s' := by
  show f (x s).1 (x s).2 = f a s'
  rw [h]

@[simp] theorem bind_gets (g : FsState → α) (f : α → FsM β) (s : FsState) :
    (gets g >>= f) s = f (g s) s := rfl

@[simp] theorem bind_modify (g : FsState → FsState) (f : Unit → FsM β) (s : FsState) :
    (modify g >>= f) s = f () (g s) := rfl

@[simp] theorem pure_apply (a : α) (s : FsState) : (pure a : FsM α) s = (a, s) := rfl

def after (x : FsM α) (f : α → FsState → β) (s : FsState) : β := f (x s).1 (x s).2

theorem after_eq {x : FsM α} {s s' : FsState} {a : α} (h : x s = (a, s')) (f : α → FsState → β) :
    x.after f s = f a s' := by
  unfold FsM.after
  rw [h]

end FsM

/-- `0, 1, .., n - 1` as `uint32_t` loop indices. -/
def indices (n : Nat) : List UInt32 := (List.range n).map UInt32.ofNat

theorem mem_indices {n : Nat} (hn : n ≤ 2 ^ 32) {i : UInt32} : i ∈ indices n ↔ i.toNat < n := by
  simp only [indices, List.mem_map, List.mem_range]
  constructor
  · rintro ⟨k, hk, rfl⟩
    rw [UInt32.toNat_ofNat', Nat.mod_eq_of_lt (by omega)]
    exact hk
  · intro h
    exact ⟨i.toNat, h, UInt32.ofNat_toNat⟩

theorem nodup_indices {n : Nat} (hn : n ≤ 2 ^ 32) : (indices n).Nodup := by
  refine List.Nodup.map_on (fun a ha b hb h => ?_) List.nodup_range
  have h' := congrArg UInt32.toNat h
  rw [List.mem_range] at ha hb
  rwa [UInt32.toNat_ofNat', UInt32.toNat_ofNat', Nat.mod_eq_of_lt (by omega),
    Nat.mod_eq_of_lt (by omega)] at h'

end EphemeralOS
