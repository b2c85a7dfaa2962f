import EphemeralOS.Fs.Lookup

/-!
# File system operations

`fs_init`, `fs_install`, `fs_create_dir`, `fs_list_dir`, `fs_create_file`,
`fs_read_file` and `fs_delete_file` (`fs/filesystem.c`, from line 274 on), with
the C result codes as integers.
-/

namespace EphemeralOS

/-- The block of a new directory: `.` and `..` in slots 0 and 1. -/
def newDirBlock (self parent : UInt32) : DirBlock := fun i =>
  if i = 0 then ⟨CArray.zero.strcpy (ascii "."), self, 1⟩
  else if i = 1 then ⟨CArray.zero.strcpy (ascii ".."), parent, 1⟩
  else DirEntry.zero

/-- The loop that enters `name` in the first slot not in use. -/
def addEntry (d : DirBlock) (name : List UInt8) (inode : UInt32) : Option DirBlock :=
  match firstSlot d fun e => e.inUse ≠ 1 with
  | some i => some (Function.update d i ⟨(d i).name.strcpy name, inode, 1⟩)
  | none => none

/-- The loop of `fs_delete_file` that drops the first entry of `inode`. -/
def removeEntry (d : DirBlock) (inode : UInt32) : DirBlock :=
  match firstSlot d fun e => e.inUse = 1 ∧ e.inode = inode with
  | some i => Function.update d i ⟨CArray.zero, (d i).inode, 0⟩
  | none => d

/-- Enter `newInode` in the directory `parentInode` and write the directory back; `false` when
it has no slot left. -/
def linkEntry (parentInode : UInt32) (name : List UInt8) (newInode : UInt32) : FsM Bool := do
  let block ← FsM.gets fun s => (s.inodeTable parentInode).blocks 0
  let parentDir ← readDirBlock block
  match addEntry parentDir name newInode with
  | none => return false
  | some parentDir =>
    FsM.modify (writeInodeBlock block (sectorOfDir parentDir))
    return true

/-! ## `fs_create_dir` -/

/-- `fs_create_dir` from line 446 on: the directory `dirName` in `parentInode`. -/
def makeDir (parentInode : UInt32) (dirName : List UInt8) : FsM Int := do
  let parentType ← FsM.gets fun s => (s.inodeTable parentInode).type
  if parentType ≠ inodeTypeDir then return -1
  let newInode ← allocateInode
  if newInode = noNumber then return -1
  FsM.modify fun s => s.setInode newInode
    { s.inodeTable newInode with type := inodeTypeDir, size := 0, parentInode := parentInode }
  let newBlock ← allocateBlock
  if newBlock = noNumber then
    FsM.modify (freeInode newInode)
    return -1
  FsM.modify fun s => s.setInodeBlock newInode 0 newBlock
  FsM.modify (writeInodeBlock newBlock (sectorOfDir (newDirBlock newInode parentInode)))
  let added ← linkEntry parentInode dirName newInode
  if !added then
    FsM.modify (freeInode newInode)
    return -1
  FsM.modify syncInodeTable
  FsM.modify syncBlockBitmap
  return 0

/-- `fs_create_dir`, with `createDir` for the call on the parent path. -/
def createDirStep (createDir : List UInt8 → FsM Int) (path : List UInt8) : FsM Int := do
  let (parentPath, dirName) := splitPath path
  if dirName.length = 0 ∨ dirName.length ≥ fsMaxFilename then return -1
  let existing ← findInodeByPath path
  if existing ≠ noNumber then return 0
  let parentInode ← findInodeByPath parentPath
  if parentInode = noNumber then
    if parentPath ≠ [slash] then
      let result ← createDir parentPath
      if result ≠ 0 then return -1
      let parentInode ← findInodeByPath parentPath
      if parentInode = noNumber then return -1
      makeDir parentInode dirName
    else return -1
  else makeDir parentInode dirName

/-- `fs_create_dir` with a bound on the depth of its recursion. -/
def createDirDepth : Nat → List UInt8 → FsM Int
  | 0, _ => return -1
  | depth + 1, path => createDirStep (createDirDepth depth) path

/-- `fs_create_dir`. Each call has one component less than its caller, so the bound is not
reached (`createDirDepth_mkdirs`). -/
def fsCreateDir (path : List UInt8) : FsM Int := createDirDepth (path.length + 1) path

/-! ## `fs_delete_file` -/

def fsDeleteFile (path : List UInt8) : FsM Int := do
  let (parentPath, _) := splitPath path
  let parentInode ← findInodeByPath parentPath
  if parentInode = noNumber then return -1
  let fileInode ← findInodeByPath path
  if fileInode = noNumber then return -1
  let fileType ← FsM.gets fun s => (s.inodeTable fileInode).type
  if fileType ≠ inodeTypeFile then return -1
  FsM.modify (freeInode fileInode)
  let block ← FsM.gets fun s => (s.inodeTable parentInode).blocks 0
  let parentDir ← readDirBlock block
  FsM.modify (writeInodeBlock block (sectorOfDir (removeEntry parentDir fileInode)))
  FsM.modify syncInodeTable
  FsM.modify syncBlockBitmap
  return 0

/-! ## `fs_create_file` -/

/-- `(size + FS_BLOCK_SIZE - 1) / FS_BLOCK_SIZE`, at most the direct blocks of an inode. -/
def blocksNeeded (size : UInt32) : UInt32 :=
  let needed := (size + fsBlockSize - 1) / fsBlockSize
  if needed > fsInodeDirectBlocks then fsInodeDirectBlocks else needed

def copySize (remaining : UInt32) : UInt32 :=
  if remaining > fsBlockSize then fsBlockSize else remaining

/-- The loop of `fs_create_file` over the data, from block `i` on with `rounds` rounds left;
`false` after running out of blocks. -/
def writeFileBlocks (newInode : UInt32) (data : Memory) : Nat → Nat → UInt32 → FsM Bool
  | 0, _, _ => return true
  | rounds + 1, i, remaining => do
    let block ← allocateBlock
    if block = noNumber then
      FsM.modify (freeInode newInode)
      return false
    FsM.modify fun s => s.setInodeBlock newInode i block
    let bytes := data.bytes (i * 512) (copySize remaining).toNat
    FsM.modify fun s => { s with sectorBuffer := Sector.ofBytes bytes 0 }
    FsM.modify fun s => writeInodeBlock block s.sectorBuffer s
    writeFileBlocks newInode data rounds (i + 1) (remaining - copySize remaining)

/-- `fs_create_file` from line 656 on: the file `fileName` in `parentInode`. -/
def makeFile (parentInode : UInt32) (fileName : List UInt8) (data : Memory) (size : UInt32) :
    FsM Int := do
  let newInode ← allocateInode
  if newInode = noNumber then return -1
  FsM.modify fun s => s.setInode newInode
    { s.inodeTable newInode with type := inodeTypeFile, size := size, parentInode := parentInode }
  let written ← writeFileBlocks newInode data (blocksNeeded size).toNat 0 size
  if !written then return -1
  let added ← linkEntry parentInode fileName newInode
  if !added then
    FsM.modify (freeInode newInode)
    return -1
  FsM.modify syncInodeTable
  FsM.modify syncBlockBitmap
  FsM.modify syncSuperblock
  return 0

/-- `fs_create_file` from line 647 on: the parent is found, an existing target is deleted. -/
def replaceFile (path : List UInt8) (parentInode : UInt32) (fileName : List UInt8) (data : Memory)
    (size : UInt32) : FsM Int := do
  let parentType ← FsM.gets fun s => (s.inodeTable parentInode).type
  if parentType ≠ inodeTypeDir then return -1
  let existing ← findInodeByPath path
  if existing ≠ noNumber then
    let _ ← fsDeleteFile path
    makeFile parentInode fileName data size
  else makeFile parentInode fileName data size

/-- `fs_create_file`; `data` is the memory at the data pointer. -/
def fsCreateFile (path : List UInt8) (data : Memory) (size : UInt32) : FsM Int := do
  if size > fsMaxFileSize then return -1
  let (parentPath, fileName) := splitPath path
  if fileName.length = 0 ∨ fileName.length ≥ fsMaxFilename then return -1
  let parentInode ← findInodeByPath parentPath
  if parentInode = noNumber then
    let result ← fsCreateDir parentPath
    if result ≠ 0 then return -1
    let parentInode ← findInodeByPath parentPath
    if parentInode = noNumber then return -1
    replaceFile path parentInode fileName data size
  else replaceFile path parentInode fileName data size

/-! ## `fs_read_file` -/

/-- A `uint32_t` returned as an `int`. -/
def toInt (w : UInt32) : Int := w.toBitVec.toInt

/-- The loop of `fs_read_file`, from block `i` on with `rounds` rounds left. -/
def readFileBlocks (inode : UInt32) : Nat → Nat → UInt32 → Memory → FsM Memory
  | 0, _, _, buffer => return buffer
  | rounds + 1, i, remaining, buffer => do
    let blocks ← FsM.gets fun s => (s.inodeTable inode).blocks
    let sec ← readInodeBlock (if h : i < 12 then blocks ⟨i, h⟩ else 0)
    FsM.modify fun s => { s with sectorBuffer := sec }
    let bytes := sec.val.take (copySize remaining).toNat
    readFileBlocks inode rounds (i + 1) (remaining - copySize remaining)
      (buffer.store (i * 512) bytes)

/-- `fs_read_file`: its result and the buffer it leaves. -/
def fsReadFile (path : List UInt8) (buffer : Memory) (maxSize : UInt32) : FsM (Int × Memory) := do
  let inode ← findInodeByPath path
  if inode = noNumber ∨ inode ≥ fsMaxInodes then return (-1, buffer)
  let v ← FsM.gets fun s => s.inodeTable inode
  if v.type ≠ inodeTypeFile then return (-1, buffer)
  let size := if v.size > maxSize then maxSize else v.size
  let buffer ← readFileBlocks inode (blocksNeeded size).toNat 0 size buffer
  return (toInt v.size, buffer)

/-! ## `fs_dir_exists`, `fs_file_exists`, `fs_change_dir` -/

/-- Does `path` lead to an inode of the type `type`? -/
def inodeExists (type : UInt8) (path : List UInt8) : FsM Bool := do
  let inode ← findInodeByPath path
  if inode = noNumber then return false
  if inode ≥ fsMaxInodes then return false
  FsM.gets fun s => decide ((s.inodeTable inode).type = type)

def fsDirExists (path : List UInt8) : FsM Bool := inodeExists inodeTypeDir path

def fsFileExists (path : List UInt8) : FsM Bool := inodeExists inodeTypeFile path

/-- A path of the shell: itself when it is absolute, else below `currentDir`. -/
def joinPath (currentDir path : List UInt8) : List UInt8 :=
  if path.head? = some slash then path
  else if currentDir = [slash] then [slash] ++ path
  else currentDir ++ [slash] ++ path

/-- `fs_change_dir`: its result and the `current_dir` it leaves. -/
def fsChangeDir (path currentDir : List UInt8) : FsM (Int × List UInt8) := do
  if path = ascii ".." then
    if currentDir = [slash] then return (0, currentDir)
    let last := lastSlash currentDir 0 0
    if last = 0 then return (0, [slash])
    return (0, currentDir.take last)
  let newPath := joinPath currentDir path
  if ← fsDirExists newPath then return (0, newPath)
  return (-1, currentDir)

/-! ## `fs_list_dir` -/

/-- The length of a listable name: 0 when it has a byte outside `' '..'~'`. -/
def listedLength (name : List UInt8) : Nat :=
  if name.all fun c => 32 ≤ c ∧ c ≤ 126 then name.length else 0

/-- The loop of `fs_list_dir`; `written` bytes of `buffer` are filled. -/
def listEntries (s : FsState) (d : DirBlock) (maxSize : Int) :
    List (Fin 15) → Memory → Nat → Memory × Nat
  | [], buffer, written => (buffer, written)
  | i :: is, buffer, written =>
    if ¬ ((written : Int) < maxSize - 64) then (buffer, written) else
    let name := (d i).name.cstr
    if (d i).inUse ≠ 1 then listEntries s d maxSize is buffer written else
    if name = ascii "." ∨ name = ascii ".." then listEntries s d maxSize is buffer written else
    let nameLen := listedLength name
    if nameLen = 0 then listEntries s d maxSize is buffer written else
    if (written : Int) + nameLen + 2 ≥ maxSize then (buffer, written) else
    let buffer := buffer.store written (name ++ [0])
    let written := written + nameLen
    let entry := (d i).inode
    let isDir := decide (entry < fsMaxInodes ∧ (s.inodeTable entry).type = inodeTypeDir)
    let suffix := if isDir then ascii "/\n" else ascii "\n"
    listEntries s d maxSize is (buffer.store written suffix) (written + suffix.length)

/-- `fs_list_dir`: its result and the buffer it leaves. -/
def fsListDir (path : List UInt8) (buffer : Memory) (maxSize : Int) : FsM (Int × Memory) := do
  let inode ← findInodeByPath path
  let failed := (-1, buffer.store 0 [0])
  if inode = noNumber ∨ inode ≥ fsMaxInodes then return failed
  let v ← FsM.gets fun s => s.inodeTable inode
  if v.type ≠ inodeTypeDir then return failed
  if v.blocks 0 = 0 ∨ v.blocks 0 ≥ fsMaxBlocks then return failed
  let dirBlock ← readDirBlock (v.blocks 0)
  let (buffer, written) ← FsM.gets fun s =>
    listEntries s dirBlock maxSize (List.finRange 15) (buffer.store 0 [0]) 0
  return (written, buffer.store written [0])

/-! ## Boot and installation -/

def fsInit (s : FsState) : FsState := loadBlockBitmap (loadInodeTable (loadSuperblock s))

/-- `simple_hash`; a `char` is sign-extended. -/
def simpleHash (str : List UInt8) : UInt32 :=
  str.foldl (fun hash c => ((hash <<< 5) + hash) + c.toInt8.toInt32.toUInt32) 5381

/-- The bytes of `password_hash`. -/
def passwordHash (password : List UInt8) : CArray 32 := fun i =>
  ((simpleHash password >>> UInt32.ofNat (i % 32)) &&& 0xFF).toUInt8

/-- `fs_install` up to the first write (lines 311 to 348): the objects of a fresh file system. -/
def installTables (hostname username password : List UInt8) (s : FsState) : FsState :=
  { s with
    superblock :=
      { magic := fsMagic
        version := fsVersion
        totalInodes := fsMaxInodes
        totalBlocks := fsMaxBlocks
        freeInodes := fsMaxInodes - 1
        freeBlocks := fsMaxBlocks - 1
        rootInode := 0
        installed := 0
        hostname := CArray.zero.strcpy hostname
        username := CArray.zero.strcpy username
        passwordHash := passwordHash password }
    inodeTable := fun i =>
      if i = 0 then ⟨inodeTypeDir, 0, fun k => if k = 0 then 1 else 0, 0⟩
      else if i.toNat < 200 then Inode.zero else s.inodeTable i
    blockBitmap := Bits.set (fun i => if i.toNat < 64 then 0 else s.blockBitmap i) 1 }

/-- `fs_install` up to its first `fs_create_dir` (line 371): the root directory alone. -/
def installRoot (hostname username password : List UInt8) (s : FsState) : FsState :=
  let s := installTables hostname username password s
  let s := writeInodeBlock 1 (sectorOfDir (newDirBlock 0 0)) s
  let s := { s with superblock := { s.superblock with installed := 1 } }
  let s := syncBlockBitmap (syncInodeTable (syncSuperblock s))
  loadBlockBitmap (loadInodeTable (loadSuperblock s))

/-- The directories `fs_install` creates, in order. -/
def installDirs (username : List UInt8) : List (List UInt8) :=
  let userHome := ascii "/home/" ++ username
  [ascii "/bin", ascii "/home", ascii "/tmp", ascii "/etc", ascii "/var", userHome,
    userHome ++ ascii "/documents", userHome ++ ascii "/downloads"]

/-- `fs_create_dir` on each path in turn, its results ignored. -/
def createDirs : List (List UInt8) → FsState → FsState
  | [], s => s
  | path :: paths, s => createDirs paths (fsCreateDir path s).2

def fsInstall (hostname username password : List UInt8) (s : FsState) : FsState :=
  let s := createDirs (installDirs username) (installRoot hostname username password s)
  syncBlockBitmap (syncInodeTable (syncSuperblock s))

end EphemeralOS
