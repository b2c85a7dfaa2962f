import EphemeralOS.Fs.Change
import EphemeralOS.Kernel.Memory

/-!
# What the readers see

`fs_read_file` on a file gives the bytes its blocks hold (`fsReadFile_file`),
and `fs_list_dir` the entries of the directory's block (`fsListDir_dir`).
Agreeing states read alike (`Agree.fsReadFile_eq`, `Agree.fsListDir_eq`).
-/

namespace EphemeralOS

open Directory

/-- Byte `a` of the file `v`, as its blocks hold it. -/
def FsState.fileByte (s : FsState) (v : Inode) (a : Nat) : UInt8 :=
  let b := if h : a / 512 < 12 then v.blocks ⟨a / 512, h⟩ else 0
  (if ValidBlock b then s.data b else Sector.zero).val.getD (a % 512) 0

/-- One round of the loop of `fs_read_file` stores the bytes of one block. -/
theorem store_sector {s : FsState} {v : Inode} (i n : Nat) (buffer : Memory) (a : Nat)
    (hn : n ≤ 512) :
    buffer.store (i * 512) ((if ValidBlock (if h : i < 12 then v.blocks ⟨i, h⟩ else 0)
        then s.data (if h : i < 12 then v.blocks ⟨i, h⟩ else 0) else Sector.zero).val.take n) a =
      if i * 512 ≤ a ∧ a < i * 512 + n then s.fileByte v a else buffer a := by
  have hlen : ∀ sec : Sector, (sec.val.take n).length = n := fun sec => by
    rw [List.length_take, sec.property]; omega
  rw [store_apply, hlen]
  split
  · next h =>
    have hdiv : a / 512 = i := by omega
    have hmod : a % 512 = a - i * 512 := by omega
    unfold FsState.fileByte
    simp only [hdiv, hmod]
    rw [List.getD_eq_getElem?_getD, List.getElem?_take_of_lt (by omega),
      ← List.getD_eq_getElem?_getD]
  · rfl

/-- The loop of `fs_read_file`, by induction on the rounds left. -/
theorem readFileBlocks_eq (inode : UInt32) :
    ∀ (rounds i : Nat) (remaining : UInt32) (buffer : Memory) (s : FsState), s.disk.Perfect →
      (readFileBlocks inode rounds i remaining buffer s).1 = fun a =>
        if i * 512 ≤ a ∧ a < i * 512 + min remaining.toNat (rounds * 512)
        then s.fileByte (s.inodeTable inode) a else buffer a
  | 0, i, remaining, buffer, s, _ => by
    funext a
    rw [if_neg (by omega)]
    rfl
  | rounds + 1, i, remaining, buffer, s, hs => by
    unfold readFileBlocks
    rw [FsM.bind_gets, FsM.bind_eq (readInodeBlock_eq hs _), FsM.bind_modify,
      readFileBlocks_eq inode rounds (i + 1) _ _ _ (by exact hs)]
    funext a
    have hcopy : (copySize remaining).toNat ≤ 512 := by rw [toNat_copySize]; omega
    rw [store_sector i _ buffer a hcopy, toNat_sub_copySize, toNat_copySize]
    have hbyte : ∀ sec, FsState.fileByte { s with sectorBuffer := sec }
        (s.inodeTable inode) a = s.fileByte (s.inodeTable inode) a := fun _ => rfl
    rw [hbyte]
    have hsplit : (i * 512 ≤ a ∧ a < i * 512 + min remaining.toNat ((rounds + 1) * 512)) ↔
        ((i + 1) * 512 ≤ a ∧ a < (i + 1) * 512 + min (remaining.toNat - 512) (rounds * 512)) ∨
          (i * 512 ≤ a ∧ a < i * 512 + min 512 remaining.toNat) := by
      clear hbyte hcopy
      omega
    by_cases h2 : (i + 1) * 512 ≤ a ∧ a < (i + 1) * 512 + min (remaining.toNat - 512) (rounds * 512)
    · rw [if_pos h2, if_pos (hsplit.mpr (.inl h2))]
    · rw [if_neg h2]
      exact if_congr (by rw [hsplit, or_iff_right h2]) rfl rfl

/-- What a reader gets of the file `v`: its size, and as many of its bytes as were asked for and
its blocks can hold. -/
def FsState.fileContent (s : FsState) (v : Inode) (buffer : Memory) (maxSize : UInt32) :
    Int × Memory :=
  (toInt v.size, fun a =>
    if a < min (min v.size.toNat maxSize.toNat) (12 * 512) then s.fileByte v a else buffer a)

/-- `fs_read_file` on a perfect disk, on a file of a size that it can have. -/
theorem fsReadFile_perfect {s : FsState} (hs : s.disk.Perfect) {path : List UInt8} {i : UInt32}
    (h : s.resolve (comps path) = some i) (hf : s.IsFile i)
    (hsize : (s.inodeTable i).size ≤ fsMaxFileSize) (buffer : Memory) (maxSize : UInt32) :
    (fsReadFile path buffer maxSize s).1 = s.fileContent (s.inodeTable i) buffer maxSize := by
  unfold fsReadFile
  rw [FsM.bind_eq (findInodeByPath_eq hs path), h, Option.getD_some,
    if_neg (not_or.mpr ⟨ne_noNumber_of_lt hf.1, UInt32.not_le.mpr hf.1⟩), FsM.bind_gets,
    if_neg (not_not.mpr hf.2)]
  obtain ⟨size, hsz⟩ : ∃ size, (if (s.inodeTable i).size > maxSize then maxSize
      else (s.inodeTable i).size) = size := ⟨_, rfl⟩
  have hmin : size.toNat = min (s.inodeTable i).size.toNat maxSize.toNat := by
    rw [← hsz]
    split
    · next h => have := UInt32.lt_iff_toNat_lt.mp h; omega
    · next h => have := UInt32.le_iff_toNat_le.mp (UInt32.not_lt.mp h); omega
  have hle : size ≤ fsMaxFileSize := by
    rw [UInt32.le_iff_toNat_le] at hsize ⊢
    omega
  have hneed := toNat_blocksNeeded hle
  simp only [hsz]
  show (toInt (s.inodeTable i).size, (readFileBlocks i (blocksNeeded size).toNat 0 size buffer s).1) = _
  rw [readFileBlocks_eq i _ 0 size buffer s hs]
  unfold FsState.fileContent
  congr 1
  funext a
  by_cases ha : a < min (min (s.inodeTable i).size.toNat maxSize.toNat) (12 * 512)
  · rw [if_pos ha, if_pos (by omega)]
  · rw [if_neg ha, if_neg (by omega)]

section Readers

variable {s : FsState} (hI : Inv s)
include hI

/-- **`fs_read_file` on a file.** -/
theorem fsReadFile_file {path : List UInt8} {i : UInt32} (h : s.resolve (comps path) = some i)
    (hf : s.IsFile i) (buffer : Memory) (maxSize : UInt32) :
    (fsReadFile path buffer maxSize s).1 = s.fileContent (s.inodeTable i) buffer maxSize :=
  fsReadFile_perfect hI.perfect h hf (hI.files i hf).1 buffer maxSize

theorem fsReadFile_fails {path : List UInt8} (h : ∀ i, s.resolve (comps path) = some i → ¬ s.IsFile i)
    (buffer : Memory) (maxSize : UInt32) : (fsReadFile path buffer maxSize s).1 = (-1, buffer) := by
  have hs := hI.perfect
  unfold fsReadFile
  rw [FsM.bind_eq (findInodeByPath_eq hs path)]
  cases hr : s.resolve (comps path) with
  | none => rw [Option.getD_none, if_pos (.inl rfl)]; rfl
  | some i =>
    have hl := hI.resolve_live hr
    rw [Option.getD_some, if_neg (not_or.mpr ⟨hI.resolve_ne_noNumber hr, UInt32.not_le.mpr hl.1⟩),
      FsM.bind_gets, if_pos fun e => h i hr ⟨hl.1, e⟩]
    rfl

/-! ## Directories -/

def FsState.listing (s : FsState) (d : DirBlock) (buffer : Memory) (maxSize : Int) : Int × Memory :=
  let r := listEntries s d maxSize (List.finRange 15) (buffer.store 0 [0]) 0
  (r.2, r.1.store r.2 [0])

/-- **`fs_list_dir` on a directory.** -/
theorem fsListDir_dir {path : List UInt8} {d : UInt32} (h : s.resolve (comps path) = some d)
    (hd : s.UsableDir d) (buffer : Memory) (maxSize : Int) :
    (fsListDir path buffer maxSize s).1 = s.listing (s.dirBlock d) buffer maxSize := by
  have hs := hI.perfect
  unfold fsListDir
  rw [FsM.bind_eq (findInodeByPath_eq hs path), h, Option.getD_some]
  simp only
  rw [if_neg (not_or.mpr ⟨hI.resolve_ne_noNumber h, UInt32.not_le.mpr hd.1⟩), FsM.bind_gets,
    if_neg (not_not.mpr hd.2.1), if_neg (validBlock_iff_not.mp hd.2.2),
    FsM.bind_eq (readDirBlock_eq hs d)]
  rfl

theorem fsListDir_fails {path : List UInt8}
    (h : ∀ d, s.resolve (comps path) = some d → ¬ s.UsableDir d) (buffer : Memory) (maxSize : Int) :
    (fsListDir path buffer maxSize s).1 = (-1, buffer.store 0 [0]) := by
  have hs := hI.perfect
  unfold fsListDir
  rw [FsM.bind_eq (findInodeByPath_eq hs path)]
  simp only
  cases hr : s.resolve (comps path) with
  | none => rw [Option.getD_none, if_pos (.inl rfl)]; rfl
  | some d =>
    have hl := hI.resolve_live hr
    rw [Option.getD_some, if_neg (not_or.mpr ⟨hI.resolve_ne_noNumber hr, UInt32.not_le.mpr hl.1⟩),
      FsM.bind_gets]
    by_cases hdir : (s.inodeTable d).type = inodeTypeDir
    · rw [if_neg (not_not.mpr hdir)]
      have hbad : (s.inodeTable d).blocks 0 = 0 ∨ (s.inodeTable d).blocks 0 ≥ fsMaxBlocks := by
        by_contra hb
        exact h d hr ⟨hl.1, hdir, validBlock_iff_not.mpr hb⟩
      rw [if_pos hbad]
      rfl
    · rw [if_pos hdir]
      rfl

end Readers

/-! ## Agreeing states -/

namespace Agree

variable {s s' : FsState} (h : Agree s s')
include h

theorem listEntries_eq (d : DirBlock) (maxSize : Int) (is : List (Fin 15)) (buffer : Memory)
    (written : Nat) :
    listEntries s' d maxSize is buffer written = listEntries s d maxSize is buffer written := by
  have hdir : ∀ e, (e < fsMaxInodes ∧ (s'.inodeTable e).type = inodeTypeDir) ↔
      (e < fsMaxInodes ∧ (s.inodeTable e).type = inodeTypeDir) := fun e =>
    and_congr_right fun he => by rw [h.type he]
  induction is generalizing buffer written with
  | nil => rfl
  | cons i is ih => simp only [listEntries, ih, hdir]

variable (hI : Inv s)
include hI

theorem findInodeByPath_eq (path : List UInt8) :
    (findInodeByPath path s').1 = (findInodeByPath path s).1 := by
  rw [EphemeralOS.findInodeByPath_eq hI.perfect, EphemeralOS.findInodeByPath_eq (h.inv hI).perfect,
    h.resolve hI]

theorem fileByte_eq {i : UInt32} (hi : s.Live i) (a : Nat) :
    s'.fileByte (s.inodeTable i) a = s.fileByte (s.inodeTable i) a := by
  have hblock : ∀ b, (∃ k, (s.inodeTable i).blocks k = b) ∨ b = 0 →
      (if ValidBlock b then s'.data b else Sector.zero) =
        (if ValidBlock b then s.data b else Sector.zero) := by
    intro b hb
    split
    · next hv =>
      obtain ⟨k, rfl⟩ := hb.resolve_right hv.1
      exact h.data _ (hI.blockUsed hi hv.1)
    · rfl
  unfold FsState.fileByte
  simp only
  rw [hblock]
  split
  · exact .inl ⟨_, rfl⟩
  · exact .inr rfl

theorem fsReadFile_eq (path : List UInt8) (buffer : Memory) (maxSize : UInt32) :
    (fsReadFile path buffer maxSize s').1 = (fsReadFile path buffer maxSize s).1 := by
  by_cases hf : ∃ i, s.resolve (comps path) = some i ∧ s.IsFile i
  · obtain ⟨i, hr, hf⟩ := hf
    rw [fsReadFile_file hI hr hf, fsReadFile_file (h.inv hI) ((h.resolve hI _).trans hr)
      (h.isFile_iff.mpr hf), h.inode hf.live]
    unfold FsState.fileContent
    simp only [h.fileByte_eq hI hf.live]
  · rw [fsReadFile_fails hI fun i hr hi => hf ⟨i, hr, hi⟩, fsReadFile_fails (h.inv hI) fun i hr hi =>
      hf ⟨i, (h.resolve hI _).symm.trans hr, h.isFile_iff.mp hi⟩]

theorem dirBlock_eq {d : UInt32} (hd : s.UsableDir d) : s'.dirBlock d = s.dirBlock d := by
  unfold FsState.dirBlock
  simp only [h.inode hd.isDir.live, h.data _ (hI.blockUsed hd.isDir.live hd.2.2.1)]

theorem fsListDir_eq (path : List UInt8) (buffer : Memory) (maxSize : Int) :
    (fsListDir path buffer maxSize s').1 = (fsListDir path buffer maxSize s).1 := by
  by_cases hd : ∃ d, s.resolve (comps path) = some d ∧ s.UsableDir d
  · obtain ⟨d, hr, hd⟩ := hd
    rw [fsListDir_dir hI hr hd, fsListDir_dir (h.inv hI) ((h.resolve hI _).trans hr)
      (h.usable_iff.mpr hd), h.dirBlock_eq hI hd]
    unfold FsState.listing
    simp only [h.listEntries_eq]
  · rw [fsListDir_fails hI fun d hr hu => hd ⟨d, hr, hu⟩, fsListDir_fails (h.inv hI) fun d hr hu =>
      hd ⟨d, (h.resolve hI _).symm.trans hr, h.usable_iff.mp hu⟩]

end Agree

end EphemeralOS
