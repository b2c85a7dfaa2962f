import EphemeralOS.Fs.Ops
import EphemeralOS.Fs.View

/-!
# The sectors an operation writes

The operations of `Fs/Ops.lean` with the sector transfers they make, in order
(`FsW`). Leaving the transfers out gives the operation, and carrying them out on
the disk gives the disk it leaves (`Traces`). Every transfer goes to one of the
file system's own sectors (`FsSector`), whatever the disk holds and whichever
reads fail.
-/

namespace EphemeralOS

abbrev SectorWrite := Nat × Sector

def Disk.writeAll : List SectorWrite → Disk → Disk
  | [], d => d
  | w :: ws, d => writeAll ws (d.write w.1 w.2)

theorem Disk.writeAll_append (ws ws' : List SectorWrite) (d : Disk) :
    d.writeAll (ws ++ ws') = (d.writeAll ws).writeAll ws' := by
  induction ws generalizing d with
  | nil => rfl
  | cons w ws ih => exact ih _

/-- What the transfers leave in a sector does not depend on the scheduled faults. -/
theorem Disk.sectors_writeAll_congr (ws : List SectorWrite) {d d' : Disk}
    (h : d.sectors = d'.sectors) : (d.writeAll ws).sectors = (d'.writeAll ws).sectors := by
  induction ws generalizing d d' with
  | nil => exact h
  | cons w ws ih =>
    refine ih ?_
    unfold Disk.write
    rw [h]

/-- A C function on the file system's state, with the transfers it makes. -/
def FsW (α : Type) : Type := FsM (α × List SectorWrite)

namespace FsW

variable {α β : Type}

protected def bind (w : FsW α) (f : α → FsW β) : FsW β := fun s =>
  let ((a, ws), s) := w s
  let ((b, ws'), s) := f a s
  ((b, ws ++ ws'), s)

theorem bind_apply (w : FsW α) (f : α → FsW β) (s : FsState) : FsW.bind w f s =
    (((f (w s).1.1 (w s).2).1.1, (w s).1.2 ++ (f (w s).1.1 (w s).2).1.2),
      (f (w s).1.1 (w s).2).2) := rfl

attribute [irreducible] FsW.bind

instance : Monad FsW where
  pure a := fun s => ((a, []), s)
  bind := FsW.bind

def quiet (m : FsM α) : FsW α := fun s => (((m s).1, []), (m s).2)

def result (w : FsW α) (s : FsState) : α := (w s).1.1

def writes (w : FsW α) (s : FsState) : List SectorWrite := (w s).1.2

end FsW

def objectWrites (lba : Nat) (l : List UInt8) (n : Nat) : List SectorWrite :=
  (List.range n).map fun i => (lba + i, Sector.ofBytes l i)

namespace FsW

def writeInodeBlock (blockNum : UInt32) (sec : Sector) : FsW Unit := fun s =>
  (((), if blockNum = 0 ∨ blockNum ≥ fsMaxBlocks then []
    else [(fsDataStartSector + blockNum.toNat, sec)]), EphemeralOS.writeInodeBlock blockNum sec s)

/-- `memset(sector_buffer, 0, 512)`, and `bytes` copied to it. -/
def fillBuffer (bytes : List UInt8) : FsW Unit :=
  quiet (FsM.modify fun s => { s with sectorBuffer := Sector.ofBytes bytes 0 })

/-- `write_inode_block(block, sector_buffer)`. -/
def writeBuffer (block : UInt32) : FsW Unit := fun s => writeInodeBlock block s.sectorBuffer s

def syncSuperblock : FsW Unit := fun s =>
  (((), [(fsSuperblockSector, Sector.ofBytes (superblockLayout.enc s.superblock) 0)]),
    EphemeralOS.syncSuperblock s)

def syncInodeTable : FsW Unit := fun s =>
  (((), objectWrites fsInodeTableSector (inodeTableLayout.enc s.tableObject)
    (sectorsNeeded inodeTableLayout.size)), EphemeralOS.syncInodeTable s)

def syncBlockBitmap : FsW Unit := fun s =>
  (((), objectWrites fsBlockBitmapSector (blockBitmapLayout.enc s.bitmapObject)
    (sectorsNeeded blockBitmapLayout.size)), EphemeralOS.syncBlockBitmap s)

/-! ## The operations -/

def linkEntry (parentInode : UInt32) (name : List UInt8) (newInode : UInt32) : FsW Bool := do
  let block ← quiet (FsM.gets fun s => (s.inodeTable parentInode).blocks 0)
  let parentDir ← quiet (readDirBlock block)
  match addEntry parentDir name newInode with
  | none => return false
  | some parentDir =>
    writeInodeBlock block (sectorOfDir parentDir)
    return true

def makeDir (parentInode : UInt32) (dirName : List UInt8) : FsW Int := do
  let parentType ← quiet (FsM.gets fun s => (s.inodeTable parentInode).type)
  if parentType ≠ inodeTypeDir then return -1
  let newInode ← quiet allocateInode
  if newInode = noNumber then return -1
  quiet (FsM.modify fun s => s.setInode newInode
    { s.inodeTable newInode with type := inodeTypeDir, size := 0, parentInode := parentInode })
  let newBlock ← quiet allocateBlock
  if newBlock = noNumber then
    quiet (FsM.modify (freeInode newInode))
    return -1
  quiet (FsM.modify fun s => s.setInodeBlock newInode 0 newBlock)
  writeInodeBlock newBlock (sectorOfDir (newDirBlock newInode parentInode))
  let added ← linkEntry parentInode dirName newInode
  if !added then
    quiet (FsM.modify (freeInode newInode))
    return -1
  syncInodeTable
  syncBlockBitmap
  return 0

def createDirStep (createDir : List UInt8 → FsW Int) (path : List UInt8) : FsW Int := do
  let (parentPath, dirName) := splitPath path
  if dirName.length = 0 ∨ dirName.length ≥ fsMaxFilename then return -1
  let existing ← quiet (findInodeByPath path)
  if existing ≠ noNumber then return 0
  let parentInode ← quiet (findInodeByPath parentPath)
  if parentInode = noNumber then
    if parentPath ≠ [slash] then
      let result ← createDir parentPath
      if result ≠ 0 then return -1
      let parentInode ← quiet (findInodeByPath parentPath)
      if parentInode = noNumber then return -1
      makeDir parentInode dirName
    else return -1
  else makeDir parentInode dirName

def createDirDepth : Nat → List UInt8 → FsW Int
  | 0, _ => return -1
  | depth + 1, path => createDirStep (createDirDepth depth) path

def fsCreateDir (path : List UInt8) : FsW Int := createDirDepth (path.length + 1) path

def fsDeleteFile (path : List UInt8) : FsW Int := do
  let (parentPath, _) := splitPath path
  let parentInode ← quiet (findInodeByPath parentPath)
  if parentInode = noNumber then return -1
  let fileInode ← quiet (findInodeByPath path)
  if fileInode = noNumber then return -1
  let fileType ← quiet (FsM.gets fun s => (s.inodeTable fileInode).type)
  if fileType ≠ inodeTypeFile then return -1
  quiet (FsM.modify (freeInode fileInode))
  let block ← quiet (FsM.gets fun s => (s.inodeTable parentInode).blocks 0)
  let parentDir ← quiet (readDirBlock block)
  writeInodeBlock block (sectorOfDir (removeEntry parentDir fileInode))
  syncInodeTable
  syncBlockBitmap
  return 0

def writeFileBlocks (newInode : UInt32) (data : Memory) : Nat → Nat → UInt32 → FsW Bool
  | 0, _, _ => return true
  | rounds + 1, i, remaining => do
    let block ← quiet allocateBlock
    if block = noNumber then
      quiet (FsM.modify (freeInode newInode))
      return false
    quiet (FsM.modify fun s => s.setInodeBlock newInode i block)
    fillBuffer (data.bytes (i * 512) (copySize remaining).toNat)
    writeBuffer block
    writeFileBlocks newInode data rounds (i + 1) (remaining - copySize remaining)

def makeFile (parentInode : UInt32) (fileName : List UInt8) (data : Memory) (size : UInt32) :
    FsW Int := do
  let newInode ← quiet allocateInode
  if newInode = noNumber then return -1
  quiet (FsM.modify fun s => s.setInode newInode
    { s.inodeTable newInode with type := inodeTypeFile, size := size, parentInode := parentInode })
  let written ← writeFileBlocks newInode data (blocksNeeded size).toNat 0 size
  if !written then return -1
  let added ← linkEntry parentInode fileName newInode
  if !added then
    quiet (FsM.modify (freeInode newInode))
    return -1
  syncInodeTable
  syncBlockBitmap
  syncSuperblock
  return 0

def replaceFile (path : List UInt8) (parentInode : UInt32) (fileName : List UInt8) (data : Memory)
    (size : UInt32) : FsW Int := do
  let parentType ← quiet (FsM.gets fun s => (s.inodeTable parentInode).type)
  if parentType ≠ inodeTypeDir then return -1
  let existing ← quiet (findInodeByPath path)
  if existing ≠ noNumber then
    let _ ← fsDeleteFile path
    makeFile parentInode fileName data size
  else makeFile parentInode fileName data size

def fsCreateFile (path : List UInt8) (data : Memory) (size : UInt32) : FsW Int := do
  if size > fsMaxFileSize then return -1
  let (parentPath, fileName) := splitPath path
  if fileName.length = 0 ∨ fileName.length ≥ fsMaxFilename then return -1
  let parentInode ← quiet (findInodeByPath parentPath)
  if parentInode = noNumber then
    let result ← fsCreateDir parentPath
    if result ≠ 0 then return -1
    let parentInode ← quiet (findInodeByPath parentPath)
    if parentInode = noNumber then return -1
    replaceFile path parentInode fileName data size
  else replaceFile path parentInode fileName data size

/-- `fs_install` up to its first `fs_create_dir`. -/
def installRoot (hostname username password : List UInt8) : FsW Unit := do
  quiet (FsM.modify (installTables hostname username password))
  writeInodeBlock 1 (sectorOfDir (newDirBlock 0 0))
  quiet (FsM.modify fun s => { s with superblock := { s.superblock with installed := 1 } })
  syncSuperblock
  syncInodeTable
  syncBlockBitmap
  quiet (FsM.modify fun s => loadBlockBitmap (loadInodeTable (loadSuperblock s)))

def createDirs : List (List UInt8) → FsW Unit
  | [] => return ()
  | path :: paths => do
    let _ ← fsCreateDir path
    createDirs paths

def fsInstall (hostname username password : List UInt8) : FsW Unit := do
  installRoot hostname username password
  createDirs (installDirs username)
  syncSuperblock
  syncInodeTable
  syncBlockBitmap

end FsW

/-! ## The transfers are those of the operations -/

/-- The file system's sectors: the superblock, the inode table, the bitmap, and the data blocks
from 1 on. -/
def FsSector (x : Nat) : Prop :=
  x = fsSuperblockSector ∨ (fsInodeTableSector ≤ x ∧ x < fsInodeTableSector + 24) ∨
    x = fsBlockBitmapSector ∨ (fsDataStartSector < x ∧ x < fsDataStartSector + 512)

instance (x : Nat) : Decidable (FsSector x) := inferInstanceAs (Decidable (_ ∨ _))

/-- `w` is `m` with its transfers, which go to the file system's sectors. -/
structure Traces {α : Type} (w : FsW α) (m : FsM α) : Prop where
  result : ∀ s, w.result s = (m s).1
  state : ∀ s, (w s).2 = (m s).2
  disk : ∀ s, (m s).2.disk.sectors = (s.disk.writeAll (w.writes s)).sectors
  within : ∀ s, ∀ x ∈ w.writes s, FsSector x.1

def Quiet {α : Type} (m : FsM α) : Prop := ∀ s, (m s).2.disk.sectors = s.disk.sectors

namespace Quiet

variable {α β : Type}

theorem pure (a : α) : Quiet (Pure.pure a) := fun _ => rfl

theorem gets (f : FsState → α) : Quiet (FsM.gets f) := fun _ => rfl

theorem modify {f : FsState → FsState} (h : ∀ s, (f s).disk.sectors = s.disk.sectors) :
    Quiet (FsM.modify f) := h

theorem bind {m : FsM α} {f : α → FsM β} (hm : Quiet m) (hf : ∀ a, Quiet (f a)) :
    Quiet (m >>= f) := fun s => (hf (m s).1 (m s).2).trans (hm s)

theorem ite {c : Prop} [Decidable c] {m m' : FsM α} (hm : c → Quiet m) (hm' : ¬ c → Quiet m') :
    Quiet (if c then m else m') := by
  split
  · next h => exact hm h
  · next h => exact hm' h

end Quiet

namespace Traces

variable {α β : Type}

theorem pure (a : α) : Traces (Pure.pure a) (Pure.pure a) :=
  ⟨fun _ => rfl, fun _ => rfl, fun _ => rfl, fun _ _ hx => absurd hx List.not_mem_nil⟩

theorem quiet {m : FsM α} (h : Quiet m) : Traces (FsW.quiet m) m :=
  ⟨fun _ => rfl, fun _ => rfl, h, fun _ _ hx => absurd hx List.not_mem_nil⟩

theorem bind {w : FsW α} {m : FsM α} {f : α → FsW β} {g : α → FsM β} (hw : Traces w m)
    (hf : ∀ a, Traces (f a) (g a)) : Traces (w >>= f) (m >>= g) := by
  have hrun : ∀ s, (w >>= f) s = (((f (m s).1).result (m s).2,
      w.writes s ++ (f (m s).1).writes (m s).2), (f (m s).1 (m s).2).2) := fun s => by
    rw [← hw.result s, ← hw.state s]
    exact FsW.bind_apply w f s
  refine ⟨fun s => ?_, fun s => ?_, fun s => ?_, fun s x hx => ?_⟩
  · rw [FsW.result, hrun]
    exact (hf _).result _
  · rw [hrun]
    exact (hf _).state _
  · rw [FsW.writes, hrun, Disk.writeAll_append, ← Disk.sectors_writeAll_congr _ (hw.disk s)]
    exact (hf _).disk _
  · rw [FsW.writes, hrun] at hx
    exact (List.mem_append.mp hx).elim (hw.within s x) ((hf _).within _ x)

theorem ite {c : Prop} [Decidable c] {w w' : FsW α} {m m' : FsM α} (h : Traces w m)
    (h' : Traces w' m') : Traces (if c then w else w') (if c then m else m') := by
  split
  · exact h
  · exact h'

theorem step {m : FsM α} {f : α → FsW β} {g : α → FsM β} (hm : Quiet m)
    (hf : ∀ a, Traces (f a) (g a)) : Traces (FsW.quiet m >>= f) (m >>= g) := (quiet hm).bind hf

end Traces

/-! ### Functions that transfer nothing -/

theorem sectors_read (lba : Nat) (d : Disk) : (d.read lba).2.sectors = d.sectors := by
  unfold Disk.read
  split <;> rfl

theorem quiet_readInodeBlock (blockNum : UInt32) : Quiet (readInodeBlock blockNum) := fun s => by
  unfold readInodeBlock
  split
  · rfl
  · exact sectors_read _ s.disk

theorem quiet_readDirBlock (blockNum : UInt32) : Quiet (readDirBlock blockNum) :=
  (quiet_readInodeBlock blockNum).bind fun _ => .pure _

theorem quiet_findComponent (current : UInt32) (component : List UInt8) :
    Quiet (findComponent current component) := by
  unfold findComponent
  refine .ite (fun _ => .pure _) fun _ => .ite (fun _ => .pure _) fun _ => (Quiet.gets _).bind
    fun v => .ite (fun _ => .pure _) fun _ => .ite (fun _ => .pure _) fun _ =>
      (quiet_readDirBlock _).bind fun d => ?_
  split
  · exact .pure _
  · exact .pure _

theorem quiet_findLoop : ∀ (rounds : Nat) (p : List UInt8) (current : UInt32),
    Quiet (findLoop rounds p current)
  | 0, _, _ => .pure _
  | rounds + 1, p, current => by
    unfold findLoop
    refine .ite (fun _ => .pure _) fun _ => (quiet_findComponent _ _).bind fun found => ?_
    exact .ite (fun _ => .pure _) fun _ => .ite
      (fun _ => .ite (fun _ => .pure _) fun _ => quiet_findLoop rounds _ found) fun _ => .pure _

theorem quiet_findInodeByPath (path : List UInt8) : Quiet (findInodeByPath path) := by
  unfold findInodeByPath
  exact (Quiet.gets _).bind fun root => .ite (fun _ => .pure _) fun _ => quiet_findLoop _ _ _

theorem quiet_allocateInode : Quiet allocateInode := fun s => by
  unfold allocateInode
  split <;> rfl

theorem quiet_allocateBlock : Quiet allocateBlock := fun s => by
  unfold allocateBlock FsState.markBlockUsed
  split
  · split <;> rfl
  · rfl

theorem sectors_freeInodeBlocks (n : UInt32) (ks : List (Fin 12)) (s : FsState) :
    (freeInodeBlocks n ks s).disk.sectors = s.disk.sectors := by
  induction ks generalizing s with
  | nil => rfl
  | cons k ks ih =>
    rw [freeInodeBlocks, ih]
    unfold FsState.markBlockFree
    split
    · rw [FsState.setInodeBlock, FsState.setInode_disk]
      split <;> rfl
    · rfl

theorem sectors_freeInode (n : UInt32) (s : FsState) :
    (freeInode n s).disk.sectors = s.disk.sectors := by
  rw [freeInode]
  split
  · rfl
  · simp only [FsState.setInode_disk, sectors_freeInodeBlocks]

theorem quiet_freeInode (n : UInt32) : Quiet (FsM.modify (freeInode n)) := .modify (sectors_freeInode n)

theorem quiet_setInodeBlock (n : UInt32) (k : Nat) (b : UInt32) :
    Quiet (FsM.modify fun s => s.setInodeBlock n k b) := fun _ => rfl

theorem sectors_readObject (lba n : Nat) (d : Disk) : (d.readObject lba n).2.sectors = d.sectors := by
  induction n with
  | zero => rfl
  | succ n ih =>
    rw [Disk.readObject]
    exact (sectors_read _ _).trans ih

theorem sectors_loadSuperblock (s : FsState) :
    (loadSuperblock s).disk.sectors = s.disk.sectors := sectors_read _ s.disk

theorem sectors_loadInodeTable (s : FsState) :
    (loadInodeTable s).disk.sectors = s.disk.sectors :=
  sectors_readObject fsInodeTableSector (sectorsNeeded inodeTableLayout.size) s.disk

theorem sectors_loadBlockBitmap (s : FsState) :
    (loadBlockBitmap s).disk.sectors = s.disk.sectors :=
  sectors_readObject fsBlockBitmapSector (sectorsNeeded blockBitmapLayout.size) s.disk

theorem sectors_fsInit (s : FsState) : (fsInit s).disk.sectors = s.disk.sectors := by
  rw [fsInit, sectors_loadBlockBitmap, sectors_loadInodeTable, sectors_loadSuperblock]

/-! ### Transfers -/

theorem Disk.writeAll_objectWrites (lba : Nat) (l : List UInt8) (n : Nat) (d : Disk) :
    d.writeAll (objectWrites lba l n) = d.writeObject lba l n := by
  induction n with
  | zero => rfl
  | succ n ih =>
    rw [objectWrites, List.range_succ, List.map_append, Disk.writeAll_append, Disk.writeObject, ← ih]
    rfl

namespace Traces

theorem writeInodeBlock (b : UInt32) (sec : Sector) :
    Traces (FsW.writeInodeBlock b sec) (FsM.modify (EphemeralOS.writeInodeBlock b sec)) where
  result _ := rfl
  state _ := rfl
  disk s := by
    unfold FsM.modify EphemeralOS.writeInodeBlock FsW.writes FsW.writeInodeBlock
    split <;> rfl
  within s x hx := by
    unfold FsW.writes FsW.writeInodeBlock at hx
    split at hx
    · cases hx
    · next hb =>
      rw [List.mem_singleton.mp hx]
      have hv := validBlock_iff_not.mpr hb
      have h0 : b.toNat ≠ 0 := fun e => hv.1 (UInt32.toNat_inj.mp e)
      have := lt_fsMaxBlocks.mp hv.2
      exact .inr (.inr (.inr (by simp only [fsDataStartSector]; omega)))

theorem fillBuffer (bytes : List UInt8) : Traces (FsW.fillBuffer bytes)
    (FsM.modify fun s => { s with sectorBuffer := Sector.ofBytes bytes 0 }) := quiet fun _ => rfl

theorem writeBuffer (b : UInt32) : Traces (FsW.writeBuffer b)
    (FsM.modify fun s => EphemeralOS.writeInodeBlock b s.sectorBuffer s) where
  result _ := rfl
  state _ := rfl
  disk s := (writeInodeBlock b s.sectorBuffer).disk s
  within s := (writeInodeBlock b s.sectorBuffer).within s

theorem mem_objectWrites {lba n : Nat} {l : List UInt8} {x : SectorWrite}
    (h : x ∈ objectWrites lba l n) : lba ≤ x.1 ∧ x.1 < lba + n := by
  obtain ⟨i, hi, rfl⟩ := List.mem_map.mp h
  have := List.mem_range.mp hi
  exact ⟨Nat.le_add_right _ _, Nat.add_lt_add_left this _⟩

theorem syncSuperblock : Traces FsW.syncSuperblock (FsM.modify EphemeralOS.syncSuperblock) where
  result _ := rfl
  state _ := rfl
  disk _ := rfl
  within s x hx := by
    rw [List.mem_singleton.mp hx]
    exact .inl rfl

theorem syncInodeTable : Traces FsW.syncInodeTable (FsM.modify EphemeralOS.syncInodeTable) where
  result _ := rfl
  state _ := rfl
  disk s := (congrArg Disk.sectors (Disk.writeAll_objectWrites _ _ _ s.disk)).symm
  within _ _ hx := .inr (.inl (mem_objectWrites hx))

theorem syncBlockBitmap : Traces FsW.syncBlockBitmap (FsM.modify EphemeralOS.syncBlockBitmap) where
  result _ := rfl
  state _ := rfl
  disk s := (congrArg Disk.sectors (Disk.writeAll_objectWrites _ _ _ s.disk)).symm
  within s x hx := by
    have h := mem_objectWrites hx
    rw [sectorsNeeded_blockBitmap] at h
    exact .inr (.inr (.inl (Nat.le_antisymm (Nat.le_of_lt_succ h.2) h.1)))

/-! ### Operations -/

theorem linkEntry (p : UInt32) (name : List UInt8) (n : UInt32) :
    Traces (FsW.linkEntry p name n) (EphemeralOS.linkEntry p name n) := by
  unfold FsW.linkEntry EphemeralOS.linkEntry
  refine .step (.gets _) fun block => .step (quiet_readDirBlock _) fun d => ?_
  cases addEntry d name n with
  | none => exact .pure _
  | some d => exact (writeInodeBlock _ _).bind fun _ => .pure _

theorem makeDir (p : UInt32) (name : List UInt8) :
    Traces (FsW.makeDir p name) (EphemeralOS.makeDir p name) := by
  unfold FsW.makeDir EphemeralOS.makeDir
  refine .step (.gets _) fun _ => .ite (.pure _) <| .step quiet_allocateInode fun n =>
    .ite (.pure _) <| .step (fun _ => rfl) fun _ => .step quiet_allocateBlock fun b => ?_
  refine .ite (.step (quiet_freeInode n) fun _ => .pure _) <|
    .step (quiet_setInodeBlock n 0 b) fun _ => (writeInodeBlock _ _).bind fun _ =>
      (linkEntry p name n).bind fun added => ?_
  exact .ite (.step (quiet_freeInode n) fun _ => .pure _) <|
    syncInodeTable.bind fun _ => syncBlockBitmap.bind fun _ => .pure _

theorem createDirDepth : ∀ (depth : Nat) (path : List UInt8),
    Traces (FsW.createDirDepth depth path) (EphemeralOS.createDirDepth depth path)
  | 0, _ => .pure _
  | depth + 1, path => by
    unfold FsW.createDirDepth EphemeralOS.createDirDepth FsW.createDirStep EphemeralOS.createDirStep
    refine .ite (.pure _) <| .step (quiet_findInodeByPath _) fun _ => .ite (.pure _) <|
      .step (quiet_findInodeByPath _) fun p => .ite (.ite ?_ (.pure _)) (makeDir p _)
    exact (createDirDepth depth _).bind fun _ => .ite (.pure _) <|
      .step (quiet_findInodeByPath _) fun p => .ite (.pure _) (makeDir p _)

theorem fsCreateDir (path : List UInt8) :
    Traces (FsW.fsCreateDir path) (EphemeralOS.fsCreateDir path) := createDirDepth _ path

theorem fsDeleteFile (path : List UInt8) :
    Traces (FsW.fsDeleteFile path) (EphemeralOS.fsDeleteFile path) := by
  unfold FsW.fsDeleteFile EphemeralOS.fsDeleteFile
  refine .step (quiet_findInodeByPath _) fun _ => .ite (.pure _) <|
    .step (quiet_findInodeByPath _) fun f => .ite (.pure _) <|
      .step (.gets _) fun _ => .ite (.pure _) ?_
  refine .step (quiet_freeInode f) fun _ => .step (.gets _) fun b =>
    .step (quiet_readDirBlock b) fun d => ?_
  exact (writeInodeBlock b (sectorOfDir (removeEntry d f))).bind fun _ =>
    syncInodeTable.bind fun _ => syncBlockBitmap.bind fun _ => .pure _

theorem writeFileBlocks (n : UInt32) (data : Memory) (rounds i : Nat) (remaining : UInt32) :
    Traces (FsW.writeFileBlocks n data rounds i remaining)
      (EphemeralOS.writeFileBlocks n data rounds i remaining) := by
  induction rounds generalizing i remaining with
  | zero => exact .pure _
  | succ rounds ih =>
    unfold FsW.writeFileBlocks EphemeralOS.writeFileBlocks
    refine .step quiet_allocateBlock fun b => .ite (.step (quiet_freeInode n) fun _ => .pure _) <|
      .step (quiet_setInodeBlock n i b) fun _ => (fillBuffer _).bind fun _ => ?_
    exact (writeBuffer b).bind fun _ => ih _ _

theorem makeFile (p : UInt32) (name : List UInt8) (data : Memory) (size : UInt32) :
    Traces (FsW.makeFile p name data size) (EphemeralOS.makeFile p name data size) := by
  unfold FsW.makeFile EphemeralOS.makeFile
  refine .step quiet_allocateInode fun n => .ite (.pure _) <| .step (fun _ => rfl) fun _ =>
    (writeFileBlocks n data _ _ _).bind fun written => .ite (.pure _) <|
      (linkEntry p name n).bind fun added => ?_
  exact .ite (.step (quiet_freeInode n) fun _ => .pure _) <| syncInodeTable.bind fun _ =>
    syncBlockBitmap.bind fun _ => syncSuperblock.bind fun _ => .pure _

theorem replaceFile (path : List UInt8) (p : UInt32) (name : List UInt8) (data : Memory)
    (size : UInt32) : Traces (FsW.replaceFile path p name data size)
      (EphemeralOS.replaceFile path p name data size) := by
  unfold FsW.replaceFile EphemeralOS.replaceFile
  exact .step (.gets _) fun _ => .ite (.pure _) <| .step (quiet_findInodeByPath _) fun _ =>
    .ite ((fsDeleteFile path).bind fun _ => makeFile p name data size) (makeFile p name data size)

theorem fsCreateFile (path : List UInt8) (data : Memory) (size : UInt32) :
    Traces (FsW.fsCreateFile path data size) (EphemeralOS.fsCreateFile path data size) := by
  unfold FsW.fsCreateFile EphemeralOS.fsCreateFile
  refine .ite (.pure _) <| .ite (.pure _) <| .step (quiet_findInodeByPath _) fun p =>
    .ite ?_ (replaceFile path p _ data size)
  exact (fsCreateDir _).bind fun _ => .ite (.pure _) <| .step (quiet_findInodeByPath _) fun p =>
    .ite (.pure _) (replaceFile path p _ data size)

theorem next {w w' : FsW Unit} {f g : FsState → FsState} (h : Traces w (FsM.modify f))
    (h' : Traces w' (FsM.modify g)) : Traces (w >>= fun _ => w') (FsM.modify fun s => g (f s)) :=
  h.bind fun _ => h'

theorem syncs : Traces
    (FsW.syncSuperblock >>= fun _ => FsW.syncInodeTable >>= fun _ => FsW.syncBlockBitmap)
    (FsM.modify fun s => EphemeralOS.syncBlockBitmap (EphemeralOS.syncInodeTable
      (EphemeralOS.syncSuperblock s))) := syncSuperblock.next (syncInodeTable.next syncBlockBitmap)

theorem installRoot (hostname username password : List UInt8) :
    Traces (FsW.installRoot hostname username password)
      (FsM.modify (EphemeralOS.installRoot hostname username password)) := by
  have htables : Traces (FsW.quiet (FsM.modify (installTables hostname username password)))
      (FsM.modify (installTables hostname username password)) := quiet (.modify fun _ => rfl)
  have hinstalled : Traces (FsW.quiet (FsM.modify fun s =>
      { s with superblock := { s.superblock with installed := 1 } })) (FsM.modify fun s =>
      { s with superblock := { s.superblock with installed := 1 } }) := quiet (.modify fun _ => rfl)
  have hload : Traces (FsW.quiet (FsM.modify fun s =>
      loadBlockBitmap (loadInodeTable (loadSuperblock s)))) (FsM.modify fun s =>
      loadBlockBitmap (loadInodeTable (loadSuperblock s))) := quiet (.modify sectors_fsInit)
  exact htables.next <| (writeInodeBlock 1 (sectorOfDir (newDirBlock 0 0))).next <|
    hinstalled.next <| syncSuperblock.next <| syncInodeTable.next <| syncBlockBitmap.next hload

theorem createDirs (paths : List (List UInt8)) :
    Traces (FsW.createDirs paths) (FsM.modify (EphemeralOS.createDirs paths)) := by
  induction paths with
  | nil => exact .pure ()
  | cons path paths ih =>
    have hcons : FsM.modify (EphemeralOS.createDirs (path :: paths)) =
        EphemeralOS.fsCreateDir path >>= fun _ => FsM.modify (EphemeralOS.createDirs paths) := by
      funext s
      rw [FsM.modify, EphemeralOS.createDirs]
      exact (FsM.bind_eq rfl _).symm
    rw [FsW.createDirs, hcons]
    exact (fsCreateDir path).bind fun _ => ih

theorem fsInstall (hostname username password : List UInt8) :
    Traces (FsW.fsInstall hostname username password)
      (FsM.modify (EphemeralOS.fsInstall hostname username password)) := by
  have hinstall : FsM.modify (EphemeralOS.fsInstall hostname username password) = FsM.modify fun s =>
      EphemeralOS.syncBlockBitmap (EphemeralOS.syncInodeTable (EphemeralOS.syncSuperblock
        (EphemeralOS.createDirs (installDirs username)
          (EphemeralOS.installRoot hostname username password s)))) := by
    funext s
    rw [FsM.modify, EphemeralOS.fsInstall]
    rfl
  have h := (installRoot hostname username password).next <|
    (createDirs (installDirs username)).next syncs
  rw [FsW.fsInstall, hinstall]
  exact h

end Traces

end EphemeralOS
