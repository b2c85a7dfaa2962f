import EphemeralOS.Fs.Names
import EphemeralOS.Fs.Readers
import Mathlib.Data.Set.Card

/-!
# What the file system is for

A tree of directories and files, each found by the names that lead to it from
the root, and what is left of the two resources (`Tree`). The calls are stated
on the tree, without numbers, slots or blocks of their own.

Three limits show here: a directory takes twelve entries (`Tree.Full`), one more
being accepted and lost; a directory may be `bare`, its entries all lost; and a
file keeps the first 6144 bytes of the 16384 it may be given.
-/

namespace EphemeralOS

abbrev FileName := List UInt8

inductive Node
  | dir
  /-- A directory that cannot hold entries. -/
  | bare
  /-- A file: the size it was given, and what it keeps. -/
  | file (size : Nat) (content : List UInt8)

namespace Node

def IsDirectory : Node → Prop
  | dir | bare => True
  | file _ _ => False

def blocks : Node → Nat
  | dir => 1
  | bare => 0
  | file size _ => min 12 ((size + 511) / 512)

/-- The file made of the first `size` bytes of `data`. -/
def ofData (data : Memory) (size : Nat) : Node :=
  file size ((List.range (min size (12 * 512))).map data)

end Node

/-- The nodes by their places, which are the names on the way from the root, and how many inodes and
blocks are left. -/
structure Tree where
  node : List FileName → Option Node
  inodes : Nat
  blocks : Nat

open scoped Classical

namespace Tree

/-- From the directory at `pos` to what `c` names there. -/
noncomputable def step (t : Tree) (pos : List FileName) (c : FileName) : Option (List FileName) :=
  if t.node pos ≠ some .dir then none
  else if c = ascii "." then some pos
  else if c = ascii ".." then some pos.dropLast
  else if t.node (pos ++ [c]) = none then none
  else some (pos ++ [c])

noncomputable def find (t : Tree) (path : List FileName) : Option (List FileName) :=
  Directory.walk t.step [] path

def IsDirectory (t : Tree) (pos : List FileName) : Prop := ∃ v, t.node pos = some v ∧ v.IsDirectory

/-- The names of the entries at `pos`. -/
def names (t : Tree) (pos : List FileName) : Set FileName := {c | t.node (pos ++ [c]) ≠ none}

/-- The directory at `pos` takes no more entries. -/
def Full (t : Tree) (pos : List FileName) : Prop := 12 ≤ (t.names pos).ncard

/-- Room for a node that takes `k` blocks. -/
def Room (t : Tree) (k : Nat) : Prop := t.inodes ≠ 0 ∧ k ≤ t.blocks

/-- A new node enters the directory at `pos`; where there is no place for the entry the node is
lost, and so is what it takes. -/
noncomputable def enter (t : Tree) (pos : List FileName) (c : FileName) (v : Node) : Tree :=
  { node := if t.node pos = some .dir ∧ ¬ t.Full pos
      then Function.update t.node (pos ++ [c]) (some v) else t.node
    inodes := t.inodes - 1
    blocks := t.blocks - v.blocks }

@[simp] theorem enter_inodes (t : Tree) (pos : List FileName) (c : FileName) (v : Node) :
    (t.enter pos c v).inodes = t.inodes - 1 := rfl

@[simp] theorem enter_blocks (t : Tree) (pos : List FileName) (c : FileName) (v : Node) :
    (t.enter pos c v).blocks = t.blocks - v.blocks := rfl

/-- A node in the directory at `pos`, if there is room for it. -/
noncomputable def make (t : Tree) (pos : List FileName) (c : FileName) (v : Node) : Int × Tree :=
  if t.IsDirectory pos ∧ t.Room v.blocks then (0, t.enter pos c v) else (-1, t)

theorem make_eq {t : Tree} {pos : List FileName} (c : FileName) {v : Node} (hd : t.IsDirectory pos)
    (hroom : t.Room v.blocks) : t.make pos c v = (0, t.enter pos c v) := if_pos ⟨hd, hroom⟩

theorem make_fails {t : Tree} {pos : List FileName} (c : FileName) {v : Node}
    (h : ¬ (t.IsDirectory pos ∧ t.Room v.blocks)) : t.make pos c v = (-1, t) := if_neg h

/-- The node at `pos` goes, and what it has taken is free again. -/
def remove (t : Tree) (pos : List FileName) (v : Node) : Tree :=
  { node := Function.update t.node pos none
    inodes := t.inodes + 1
    blocks := t.blocks + v.blocks }

/-! ## The calls -/

/-- One step down a path, a missing directory being made. -/
noncomputable def descend : Option (List FileName) × Tree → FileName → Option (List FileName) × Tree
  | (none, t), _ => (none, t)
  | (some pos, t), c =>
    match t.step pos c with
    | some pos => (some pos, t)
    | none =>
      let (r, t) := t.make pos c .dir
      if r = 0 then (t.step pos c, t) else (none, t)

theorem foldl_descend {t : Tree} {path pos : List FileName} (h : t.find path = some pos) :
    path.foldl descend (some [], t) = (some pos, t) := by
  induction path using List.reverseRecOn generalizing pos with
  | nil =>
    cases h
    rfl
  | append_singleton ds c ih =>
    unfold find at h
    rw [Directory.walk_concat] at h
    obtain ⟨qs, hqs, hstep⟩ := Option.bind_eq_some_iff.mp h
    rw [List.foldl_concat, ih hqs, descend, hstep]

/-- Down a path, every missing directory being made; nothing is made for a path with a name that is
too long. -/
noncomputable def parents (t : Tree) (path : List FileName) : Option (List FileName) × Tree :=
  if ∃ c ∈ path, fsMaxFilename ≤ c.length then (t.find path, t)
  else path.foldl descend (some [], t)

/-- `fs_create_dir`. The root has no name of its own, and is refused. -/
noncomputable def createDir (t : Tree) (path : List FileName) : Int × Tree :=
  match path.getLast? with
  | none => (-1, t)
  | some c =>
    if fsMaxFilename ≤ c.length then (-1, t)
    else if t.find path ≠ none then (0, t)
    else match t.parents path.dropLast with
      | (none, t) => (-1, t)
      | (some pos, t) => t.make pos c .dir

theorem createDir_concat (t : Tree) (ds : List FileName) (c : FileName) : t.createDir (ds ++ [c]) =
    if fsMaxFilename ≤ c.length then (-1, t)
    else if t.find (ds ++ [c]) ≠ none then (0, t)
    else match t.parents ds with
      | (none, t) => (-1, t)
      | (some pos, t) => t.make pos c .dir := by
  unfold createDir
  rw [List.getLast?_concat, List.dropLast_concat]

/-- The file that is in the way of a new one goes. -/
noncomputable def clear (t : Tree) (pos : List FileName) (c : FileName) : Tree :=
  match t.node (pos ++ [c]) with
  | some (.file size content) => t.remove (pos ++ [c]) (.file size content)
  | _ => t

/-- `fs_create_file`: the parents are made first, and an old file of that name goes. -/
noncomputable def createFile (t : Tree) (path : List FileName) (data : Memory) (size : Nat) :
    Int × Tree :=
  match path.getLast? with
  | none => (-1, t)
  | some c =>
    if 16384 < size ∨ fsMaxFilename ≤ c.length then (-1, t)
    else match t.parents path.dropLast with
      | (none, t) => (-1, t)
      | (some pos, t) =>
        if t.IsDirectory pos then (t.clear pos c).make pos c (.ofData data size) else (-1, t)

theorem createFile_concat (t : Tree) (ds : List FileName) (c : FileName) (data : Memory) (size : Nat) :
    t.createFile (ds ++ [c]) data size =
      if 16384 < size ∨ fsMaxFilename ≤ c.length then (-1, t)
      else match t.parents ds with
        | (none, t) => (-1, t)
        | (some pos, t) =>
          if t.IsDirectory pos then (t.clear pos c).make pos c (.ofData data size)
          else (-1, t) := by
  unfold createFile
  rw [List.getLast?_concat, List.dropLast_concat]

/-- `fs_delete_file`. -/
noncomputable def deleteFile (t : Tree) (path : List FileName) : Int × Tree :=
  match t.find path with
  | none => (-1, t)
  | some pos => match t.node pos with
    | some (.file size content) => (0, t.remove pos (.file size content))
    | _ => (-1, t)

noncomputable def look (t : Tree) (path : List FileName) : Option Node := (t.find path).bind t.node

/-- `fs_dir_exists`. -/
noncomputable def dirExists (t : Tree) (path : List FileName) : Bool :=
  decide (∃ v, t.look path = some v ∧ v.IsDirectory)

/-- `fs_file_exists`. -/
noncomputable def fileExists (t : Tree) (path : List FileName) : Bool :=
  decide (∃ v, t.look path = some v ∧ ¬ v.IsDirectory)

theorem dirExists_iff {t : Tree} {path : List FileName} :
    t.dirExists path = true ↔ ∃ v, t.look path = some v ∧ v.IsDirectory := decide_eq_true_iff

theorem fileExists_iff {t : Tree} {path : List FileName} :
    t.fileExists path = true ↔ ∃ v, t.look path = some v ∧ ¬ v.IsDirectory := decide_eq_true_iff

/-- `fs_read_file`. -/
noncomputable def readFile (t : Tree) (path : List FileName) (buffer : Memory) (maxSize : Nat) :
    Int × Memory :=
  match t.look path with
  | some (.file size content) => (size, buffer.store 0 (content.take maxSize))
  | _ => (-1, buffer)

noncomputable def line (t : Tree) (pos : List FileName) (c : FileName) : List UInt8 :=
  c ++ (if t.IsDirectory (pos ++ [c]) then ascii "/" else []) ++ ascii "\n"

/-- Two directories and nothing else: the root, and `/bin`, which never gets a block. -/
noncomputable def rootAndBin : Tree where
  node pos := if pos = [] then some .dir else if pos = [ascii "bin"] then some .bare else none
  inodes := 198
  blocks := 510

/-- The directories of an installation, made on the first two. -/
noncomputable def installed (username : List UInt8) : Tree :=
  (installDirs username).tail.foldl (fun t path => (t.createDir (comps path)).2) rootAndBin

/-- The text is the listing of the directory at `pos`: lines of the printable names, in an order
that is not specified, and all of them in 512 bytes. -/
def Lists (t : Tree) (pos : List FileName) (maxSize : Int) (text : List UInt8) : Prop :=
  ∃ order : List FileName, order.Nodup ∧ (∀ c, c ∈ order ↔ c ∈ t.names pos) ∧
    ∃ k, text = firstLines ((order.filter Listable).map (t.line pos)) k ∧
      (text.length : Int) < maxSize ∧ (512 ≤ maxSize → (order.filter Listable).length ≤ k)

end Tree

end EphemeralOS
