import EphemeralOS.Fs.Install
import EphemeralOS.Kernel.Memory

/-!
# Where the loaders write

`load_superblock`, `load_inode_table` and `load_block_bitmap` hand the address of
an object to `disk_read_sectors`, which stores whole sectors there. None of the
three objects is a whole number of sectors long, so each loader stores the rest
of the last sector behind its object (`objects_overrun`). Only a memory that
already holds those bytes there is left as it was (`loads_in_place_iff`).
-/

namespace EphemeralOS

/-- The static objects that `fs_init` loads. -/
inductive FsObject
  | superblock
  | inodeTable
  | blockBitmap
  deriving DecidableEq

namespace FsObject

/-- `sizeof` the object. -/
def size : FsObject → Nat
  | superblock => superblockLayout.size
  | inodeTable => inodeTableLayout.size
  | blockBitmap => blockBitmapLayout.size

def lba : FsObject → Nat
  | superblock => fsSuperblockSector
  | inodeTable => fsInodeTableSector
  | blockBitmap => fsBlockBitmapSector

def sectors : FsObject → Nat
  | superblock => 1
  | inodeTable => sectorsNeeded inodeTableLayout.size
  | blockBitmap => sectorsNeeded blockBitmapLayout.size

end FsObject

/-- Where the linker has put the objects: side by side in some order, or apart. -/
structure Placement where
  base : FsObject → Nat
  disjoint : ∀ o o', o ≠ o' → base o + o.size ≤ base o' ∨ base o' + o'.size ≤ base o

def Placement.Inside (P : Placement) (o : FsObject) (a : Nat) : Prop :=
  P.base o ≤ a ∧ a < P.base o + o.size

/-- `disk_read_sectors(lba + i, 1, base + i * 512)` for every `i` below `n`. -/
def storeSectors (disk : Disk) (lba base : Nat) : Nat → Memory → Memory
  | 0, m => m
  | n + 1, m =>
    (storeSectors disk lba base n m).store (base + n * 512) (disk.sectors (lba + n)).val

def Placement.load (P : Placement) (disk : Disk) (o : FsObject) (m : Memory) : Memory :=
  storeSectors disk o.lba (P.base o) o.sectors m

/-- `fs_init` on the memory. -/
def Placement.fsInit (P : Placement) (disk : Disk) (m : Memory) : Memory :=
  P.load disk .blockBitmap (P.load disk .inodeTable (P.load disk .superblock m))

/-- Nothing outside the addresses `S` has changed. -/
def ChangesOnly (S : Nat → Prop) (m m' : Memory) : Prop := ∀ a, ¬ S a → m' a = m a

/-- Each loader of `fs_init` changes its own object alone, and all together none but the three. -/
structure LoadsInPlace (P : Placement) (disk : Disk) (m : Memory) : Prop where
  superblock : ChangesOnly (P.Inside .superblock) m (P.load disk .superblock m)
  inodeTable : ChangesOnly (P.Inside .inodeTable) (P.load disk .superblock m)
    (P.load disk .inodeTable (P.load disk .superblock m))
  blockBitmap : ChangesOnly (P.Inside .blockBitmap)
    (P.load disk .inodeTable (P.load disk .superblock m)) (P.fsInit disk m)
  all : ChangesOnly (fun a => ∃ o, P.Inside o a) m (P.fsInit disk m)

/-! ## What is stored -/

theorem length_object (disk : Disk) (lba n : Nat) : (disk.object lba n).length = n * 512 := by
  induction n with
  | zero => rfl
  | succ n ih =>
    rw [Disk.object, List.range_succ, List.flatMap_append, List.length_append, ← Disk.object, ih,
      List.flatMap_singleton, (disk.sectors (lba + n)).property]
    omega

theorem storeSectors_eq (disk : Disk) (lba base n : Nat) (m : Memory) :
    storeSectors disk lba base n m = m.store base (disk.object lba n) := by
  induction n with
  | zero =>
    funext a
    rw [store_apply, if_neg (by rw [length_object]; omega)]
    rfl
  | succ n ih =>
    have hobject : disk.object lba (n + 1) =
        disk.object lba n ++ (disk.sectors (lba + n)).val := by
      rw [Disk.object, List.range_succ, List.flatMap_append, List.flatMap_singleton, Disk.object]
    rw [storeSectors, ih, hobject, store_append, length_object]

def FsObject.loaded (disk : Disk) (o : FsObject) : List UInt8 := disk.object o.lba o.sectors

theorem FsObject.length_loaded (disk : Disk) (o : FsObject) :
    (o.loaded disk).length = o.sectors * 512 := length_object disk o.lba o.sectors

/-- **Every loader stores past the end of its object.** -/
theorem objects_overrun (o : FsObject) : o.size < o.sectors * 512 := by
  cases o <;> decide

/-- What follows the object in its last sector is what follows it in the memory. -/
def TailMatches (P : Placement) (disk : Disk) (o : FsObject) (m : Memory) : Prop :=
  ∀ j, o.size ≤ j → j < o.sectors * 512 → m (P.base o + j) = (o.loaded disk).getD j 0

def Placement.loadExactly (P : Placement) (disk : Disk) (o : FsObject) (m : Memory) : Memory :=
  m.store (P.base o) ((o.loaded disk).take o.size)

/-- The memory behind each object holds the rest of its last sector, the objects loaded before it
being in place. -/
structure TailsMatch (P : Placement) (disk : Disk) (m : Memory) : Prop where
  superblock : TailMatches P disk .superblock m
  inodeTable : TailMatches P disk .inodeTable (P.loadExactly disk .superblock m)
  blockBitmap : TailMatches P disk .blockBitmap
    (P.loadExactly disk .inodeTable (P.loadExactly disk .superblock m))

section Frames

variable {P : Placement} {disk : Disk} {o : FsObject} {m : Memory}

theorem load_eq : P.load disk o m = m.store (P.base o) (o.loaded disk) := storeSectors_eq ..

theorem length_take_loaded : ((o.loaded disk).take o.size).length = o.size := by
  have hlt := objects_overrun o
  rw [List.length_take, o.length_loaded]
  omega

theorem load_exact (h : TailMatches P disk o m) : P.load disk o m = P.loadExactly disk o m := by
  have hlt := objects_overrun o
  funext a
  rw [load_eq, Placement.loadExactly, store_apply, store_apply, length_take_loaded,
    o.length_loaded]
  by_cases hin : P.base o ≤ a ∧ a < P.base o + o.size
  · rw [if_pos hin, if_pos (by omega), List.getD_eq_getElem?_getD, List.getD_eq_getElem?_getD,
      List.getElem?_take_of_lt (by omega)]
  · rw [if_neg hin]
    split
    · next hout =>
      rw [← h (a - P.base o) (by omega) (by omega)]
      congr 1
      omega
    · rfl

/-- **A loader changes its own object alone exactly if the tails match.** -/
theorem changesOnly_load_iff :
    ChangesOnly (P.Inside o) m (P.load disk o m) ↔ TailMatches P disk o m := by
  constructor
  · intro h j hsize hj
    have hkept := h (P.base o + j) (fun hin => by have := hin.2; omega)
    rw [load_eq, store_apply, o.length_loaded, if_pos (by omega), Nat.add_sub_cancel_left] at hkept
    exact hkept.symm
  · intro h a ha
    rw [load_exact h, Placement.loadExactly, store_apply, length_take_loaded]
    exact if_neg ha

theorem ChangesOnly.trans {S T : Nat → Prop} {m m' m'' : Memory} (h : ChangesOnly S m m')
    (h' : ChangesOnly T m' m'') {U : Nat → Prop} (hS : ∀ a, S a → U a) (hT : ∀ a, T a → U a) :
    ChangesOnly U m m'' := fun a ha =>
  (h' a fun hin => ha (hT a hin)).trans (h a fun hin => ha (hS a hin))

/-- **`fs_init` keeps to its objects exactly if each of them is followed in memory by what follows
it on the disk.** -/
theorem loads_in_place_iff (P : Placement) (disk : Disk) (m : Memory) :
    LoadsInPlace P disk m ↔ TailsMatch P disk m := by
  constructor
  · rintro ⟨hsuper, htable, hbitmap, -⟩
    have hsuper := changesOnly_load_iff.mp hsuper
    rw [load_exact hsuper] at htable hbitmap
    have htable := changesOnly_load_iff.mp htable
    rw [Placement.fsInit, load_exact hsuper, load_exact htable] at hbitmap
    exact ⟨hsuper, htable, changesOnly_load_iff.mp hbitmap⟩
  · rintro ⟨hsuper, htable, hbitmap⟩
    have h1 := changesOnly_load_iff.mpr hsuper
    have h2 := changesOnly_load_iff.mpr htable
    have h3 := changesOnly_load_iff.mpr hbitmap
    rw [← load_exact hsuper] at h2 h3
    rw [← load_exact (by rwa [load_exact hsuper])] at h3
    refine ⟨h1, h2, h3, ?_⟩
    have h12 := h1.trans h2 (U := fun a => ∃ o, P.Inside o a) (fun _ h => ⟨_, h⟩) fun _ h => ⟨_, h⟩
    exact h12.trans h3 (fun _ h => h) fun _ h => ⟨_, h⟩

end Frames

theorem loaded_superblock (disk : Disk) :
    FsObject.superblock.loaded disk = (disk.sectors fsSuperblockSector).val := by
  simp [FsObject.loaded, FsObject.sectors, FsObject.lba, Disk.object]

def samplePlacement : Placement where
  base
    | .superblock => 0
    | .inodeTable => 192
    | .blockBitmap => 12192
  disjoint o o' hne := by
    cases o <;> cases o' <;> first | exact absurd rfl hne | decide

/-- Sectors of zeros over a memory of ones. -/
theorem loaders_overrun :
    ¬ ∀ (P : Placement) (disk : Disk) (m : Memory), LoadsInPlace P disk m := by
  intro hall
  have htail := changesOnly_load_iff.mp
    (hall samplePlacement ⟨fun _ => Sector.zero, []⟩ fun _ => 1).superblock 192 (by decide)
    (by decide)
  have hzero : (List.replicate 512 (0 : UInt8)).getD 192 0 = 0 := by
    rw [List.getD_eq_getElem?_getD, List.getElem?_replicate]
    rfl
  rw [loaded_superblock] at htail
  exact absurd (htail.trans hzero) (by decide)

/-! ## The objects loaded -/

theorem local_superblock : superblockLayout.Local := by
  have hbytes := fun n => Binary.Layout.local_byte.array n
  exact ((Binary.Layout.local_word32.array 8).seq
    ((hbytes 64).seq ((hbytes 64).seq (hbytes 32)))).record _ _ _

theorem local_inode : inodeLayout.Local :=
  (Binary.Layout.local_byte.seq ((Binary.Layout.local_pad 3).seq (Binary.Layout.local_word32.seq
    ((Binary.Layout.local_word32.array 12).seq Binary.Layout.local_word32)))).record _ _ _

section Objects

variable {P : Placement} {disk : Disk} {m : Memory}

theorem stands_loadExactly {o o' : FsObject} (hne : o ≠ o')
    (h : m.Stands (P.base o) ((o.loaded disk).take o.size)) :
    (P.loadExactly disk o' m).Stands (P.base o) ((o.loaded disk).take o.size) := by
  refine h.store ?_
  rw [length_take_loaded, length_take_loaded]
  exact (P.disjoint o o' hne).symm

theorem fsInit_stands (h : TailsMatch P disk m) (o : FsObject) :
    (P.fsInit disk m).Stands (P.base o) ((o.loaded disk).take o.size) := by
  rw [Placement.fsInit, load_exact h.superblock, load_exact h.inodeTable, load_exact h.blockBitmap]
  have hown := fun o m => Memory.stands_store m (P.base o) ((o.loaded disk).take o.size)
  cases o with
  | superblock => exact stands_loadExactly (by decide) (stands_loadExactly (by decide) (hown _ _))
  | inodeTable => exact stands_loadExactly (by decide) (hown _ _)
  | blockBitmap => exact hown _ _

theorem fsInit_bytes (h : TailsMatch P disk m) (o : FsObject) :
    (P.fsInit disk m).bytes (P.base o) o.size = (o.loaded disk).take o.size := by
  have hstands := fsInit_stands h o
  rwa [Memory.Stands, length_take_loaded] at hstands

end Objects

/-- **Loaded in place, the objects are those that the disk stores**, as the model's `fsInit` has
them. -/
theorem fsInit_objects {P : Placement} {s : FsState} {m : Memory} (h : TailsMatch P s.disk m) :
    superblockLayout.dec ((P.fsInit s.disk m).bytes (P.base .superblock)
        FsObject.superblock.size) = s.storedSuperblock ∧
      inodeTableLayout.dec ((P.fsInit s.disk m).bytes (P.base .inodeTable)
        FsObject.inodeTable.size) = s.storedTable ∧
      blockBitmapLayout.dec ((P.fsInit s.disk m).bytes (P.base .blockBitmap)
        FsObject.blockBitmap.size) = s.storedBitmap := by
  rw [fsInit_bytes h, fsInit_bytes h, fsInit_bytes h]
  refine ⟨?_, ?_, ?_⟩
  · exact (local_superblock _ _ (Nat.le_refl _)).trans
      (congrArg superblockLayout.dec (loaded_superblock s.disk))
  · exact local_inode.array 200 _ _ (Nat.le_refl _)
  · exact Binary.Layout.local_byte.array 64 _ _ (Nat.le_refl _)

end EphemeralOS
