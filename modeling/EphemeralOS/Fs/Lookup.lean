import EphemeralOS.Fs.Block

/-!
# Paths and lookup

`normalize_path`, `split_path` and `find_inode_by_path` (`fs/filesystem.c`,
lines 138 to 272). A path is the list of its bytes; the buffers the source
copies it to are taken to be large enough.
-/

namespace EphemeralOS

/-- `'/'`. -/
def slash : UInt8 := 47

/-- The loop of `normalize_path` over the rest of `path`; `out` is `normalized[0..j)`. -/
def normalizeLoop : List UInt8 → List UInt8 → Bool → List UInt8
  | [], out, _ => out
  | c :: path, out, lastWasSlash =>
    if c = slash then
      if !lastWasSlash && decide (out.length > 0) then normalizeLoop path (out ++ [slash]) true
      else if out.length = 0 then normalizeLoop path (out ++ [slash]) true
      else normalizeLoop path out lastWasSlash
    else normalizeLoop path (out ++ [c]) false

def normalizePath (path : List UInt8) : List UInt8 :=
  let absolute := decide (path.head? = some slash)
  let out := normalizeLoop path (if absolute then [] else [slash]) absolute
  let out := if out.length > 1 ∧ out.getLast? = some slash then out.dropLast else out
  if out.length = 0 then [slash] else out

/-- The index of the last slash of `l`, `i` being the index of its head and `last` the answer so
far. -/
def lastSlash : List UInt8 → Nat → Nat → Nat
  | [], _, last => last
  | c :: l, i, last => lastSlash l (i + 1) (if c = slash then i else last)

def splitPath (path : List UInt8) : List UInt8 × List UInt8 :=
  let normalized := normalizePath path
  if normalized = [slash] then ([slash], [])
  else
    let last := lastSlash normalized 0 0
    if last = 0 then ([slash], normalized.drop (last + 1))
    else (normalized.take last, normalized.drop (last + 1))

/-- The first slot of a directory block whose entry satisfies `p`. -/
def firstSlot (d : DirBlock) (p : DirEntry → Bool) : Option (Fin 15) :=
  (List.finRange 15).find? fun i => p (d i)

/-- The directory block in data block `blockNum`. -/
def readDirBlock (blockNum : UInt32) : FsM DirBlock := do
  let sec ← readInodeBlock blockNum
  return dirOfSector sec

/-- One round of the loop of `find_inode_by_path`: the entry of `component` in directory
`current`. -/
def findComponent (current : UInt32) (component : List UInt8) : FsM UInt32 := do
  if component.length ≥ fsMaxFilename then return noNumber
  if current ≥ fsMaxInodes then return noNumber
  let v ← FsM.gets fun s => s.inodeTable current
  if v.type ≠ inodeTypeDir then return noNumber
  if v.blocks 0 = 0 ∨ v.blocks 0 ≥ fsMaxBlocks then return noNumber
  let dirBlock ← readDirBlock (v.blocks 0)
  match firstSlot dirBlock fun e => e.inUse = 1 ∧ e.name.cstr = component with
  | some i => return (dirBlock i).inode
  | none => return noNumber

/-- The loop of `find_inode_by_path` from position `p` of the normalised path. Each round consumes
at least one byte, so the length of the path bounds the number of rounds. -/
def findLoop : Nat → List UInt8 → UInt32 → FsM UInt32
  | 0, _, current => return current
  | rounds + 1, p, current => do
    if p = [] then return current
    let component := p.takeWhile (· ≠ slash)
    let nextSlash := p.drop component.length
    let found ← findComponent current component
    if found = noNumber then return noNumber
    if nextSlash.head? = some slash then
      if nextSlash.drop 1 = [] then return found
      findLoop rounds (nextSlash.drop 1) found
    else return found

def findInodeByPath (path : List UInt8) : FsM UInt32 := do
  let normalized := normalizePath path
  let root ← FsM.gets fun s => s.superblock.rootInode
  if normalized = [slash] then return root
  findLoop normalized.length (normalized.drop 1) root

end EphemeralOS
