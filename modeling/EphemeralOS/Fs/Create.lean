import EphemeralOS.Fs.Holding

/-!
# What a creation does

`makeDir` and `makeFile`, the parts of `fs_create_dir` and `fs_create_file`
behind the lookups, have two outcomes each: they return -1 and leave the state
as it was (`Same`), for want of an inode or of blocks, or they return 0 with one
new inode (`MadeDir`, `MadeFile`). The directory-full exit is never taken.
-/

namespace EphemeralOS

open Directory

/-- What the creations rely on in the state they start from. -/
structure Ready (s : FsState) (p : UInt32) : Prop where
  perfect : s.disk.Perfect
  clean : CleanFree s
  block0 : s.bit 0 = true
  parent : ValidBlock ((s.inodeTable p).blocks 0) → s.bit ((s.inodeTable p).blocks 0) = true

def dirInode (p b : UInt32) : Inode :=
  ⟨inodeTypeDir, 0, fun j => if (j : Nat) = 0 then b else 0, p⟩

def fileInode (p size : UInt32) (bs : List UInt32) : Inode :=
  ⟨inodeTypeFile, size, fun j => bs.getD j 0, p⟩

structure MadeDir (s s' : FsState) (n p : UInt32) (name : List UInt8) (b : UInt32) (i : Fin 15) :
    Prop extends Created s s' n p name (dirInode p b) [b] i where
  content : s'.data b = sectorOfDir (newDirBlock n p)
  storedSuperblock : s'.storedSuperblock = s.storedSuperblock

/-- Block `k` of a file's data, as it is stored. -/
def fileSector (data : Memory) (size : UInt32) (k : Nat) : Sector :=
  Sector.ofBytes (data.bytes (k * 512) (min 512 (size.toNat - k * 512))) 0

structure MadeFile (s s' : FsState) (n p : UInt32) (name : List UInt8) (data : Memory)
    (size : UInt32) (bs : List UInt32) (i : Fin 15) :
    Prop extends Created s s' n p name (fileInode p size bs) bs i where
  count : bs.length = (blocksNeeded size).toNat
  content : ∀ k (hk : k < bs.length), s'.data bs[k] = fileSector data size k
  storedSuperblock : s'.storedSuperblock = s'.superblock

/-! ## Directories -/

/-- `fs_create_dir` below the lookups, up to the entry in the parent: it gives up and leaves the
state as it was, or it holds an inode and the block of a new directory. -/
theorem makeDir_holding {s : FsState} (hclean : CleanFree s) (h0 : s.bit 0 = true) (p : UInt32)
    (name : List UInt8) :
    (∃ s', makeDir p name s = (-1, s') ∧ Same s s' ∧
      ((s.inodeTable p).type ≠ inodeTypeDir ∨ s.freeNumbers = ∅ ∨ s.clearBlocks.card < 1)) ∨
    ((s.inodeTable p).type = inodeTypeDir ∧ ∃ h n b, Holding s h n (dirInode p b) [b] ∧
      h.data b = sectorOfDir (newDirBlock n p) ∧ ∀ t, linkEntry p name n h = (true, t) →
        makeDir p name s = (0, syncBlockBitmap (syncInodeTable t))) := by
  unfold makeDir
  rw [FsM.bind_gets]
  by_cases hp : (s.inodeTable p).type = inodeTypeDir
  case neg => exact .inl ⟨s, by rw [if_pos hp]; rfl, Same.refl s, .inl hp⟩
  rw [if_neg (not_not.mpr hp)]
  rcases allocateInode_cases s hclean with ⟨ha, hfull⟩ | ⟨n, h, ha, H⟩
  · rw [FsM.bind_eq ha, if_pos rfl]
    exact .inl ⟨s, rfl, Same.refl s, .inr (.inl hfull)⟩
  rw [FsM.bind_eq ha, if_neg (ne_noNumber_of_lt H.num), FsM.bind_modify, H.inode]
  have H := H.setInode (w := ⟨inodeTypeDir, 0, fun _ => 0, p⟩) rfl
  rcases H.allocateBlock_cases h0 (by simp) with ⟨hb, hfull⟩ | ⟨b, h', hb, hlt, H'⟩
  · rw [FsM.bind_eq hb, if_pos rfl]
    refine .inl ⟨_, rfl, H.abort, .inr (.inr ?_)⟩
    simpa using hfull
  rw [FsM.bind_eq hb, if_neg (ne_noNumber_of_lt_blocks hlt), FsM.bind_modify, FsM.bind_modify]
  have H' : Holding s (h'.setInodeBlock n 0 b) n (dirInode p b) [b] := H'
  refine .inr ⟨hp, _, n, b, H'.write (b := b) (by simp) (sectorOfDir (newDirBlock n p)), ?_,
    fun t ht => ?_⟩
  · rw [writeInodeBlock_data, if_pos ⟨(H'.fresh b (by simp)).1, rfl⟩]
  · rw [FsM.bind_eq ht]
    rfl

/-- **`fs_create_dir` below the lookups.** -/
theorem makeDir_cases {s : FsState} {p : UInt32} (hr : Ready s p) (name : List UInt8) :
    (∃ s', makeDir p name s = (-1, s') ∧ Same s s' ∧
      ((s.inodeTable p).type ≠ inodeTypeDir ∨ s.freeNumbers = ∅ ∨ s.clearBlocks.card < 1)) ∨
    ((s.inodeTable p).type = inodeTypeDir ∧
      ∃ s' n b i, makeDir p name s = (0, s') ∧ MadeDir s s' n p name b i) := by
  rcases makeDir_holding hr.clean hr.block0 p name with hfail | ⟨hp, h, n, b, H, hnew, hrun⟩
  · exact .inl hfail
  have hpn : p ≠ n := fun e => by
    rw [e, H.free] at hp
    exact absurd hp (by decide)
  obtain ⟨t, i, hl, C, hcontent, hstored⟩ := H.link hr.perfect hpn hr.parent name
  refine .inr ⟨hp, _, n, b, i, hrun t hl, { C with content := ?_, storedSuperblock := hstored }⟩
  rw [hcontent b (by simp), hnew]

/-! ## Files -/

theorem toNat_copySize (r : UInt32) : (copySize r).toNat = min 512 r.toNat := by
  unfold copySize
  have : (fsBlockSize : UInt32).toNat = 512 := rfl
  split
  · next h =>
    have := UInt32.lt_iff_toNat_lt.mp h
    omega
  · next h =>
    have := UInt32.le_iff_toNat_le.mp (UInt32.not_lt.mp h)
    omega

theorem toNat_sub_copySize (r : UInt32) : (r - copySize r).toNat = r.toNat - 512 := by
  have h : copySize r ≤ r := UInt32.le_iff_toNat_le.mpr (by rw [toNat_copySize]; omega)
  rw [UInt32.toNat_sub_of_le _ _ h, toNat_copySize]
  omega

theorem toNat_blocksNeeded {size : UInt32} (h : size ≤ fsMaxFileSize) :
    (blocksNeeded size).toNat = min 12 ((size.toNat + 511) / 512) := by
  have hsize : size.toNat ≤ 16384 := UInt32.le_iff_toNat_le.mp h
  have hneed : ((size + fsBlockSize - 1) / fsBlockSize).toNat = (size.toNat + 511) / 512 := by
    have hadd : size + fsBlockSize - 1 = size + 511 := by
      rw [show fsBlockSize = 511 + 1 from rfl]; grind
    rw [hadd, UInt32.toNat_div, UInt32.toNat_add, show (511 : UInt32).toNat = 511 from rfl,
      show fsBlockSize.toNat = 512 from rfl, Nat.mod_eq_of_lt (by omega)]
  unfold blocksNeeded
  simp only
  split
  · next hgt =>
    have := UInt32.lt_iff_toNat_lt.mp hgt
    rw [hneed] at this
    have h12 : fsInodeDirectBlocks.toNat = 12 := rfl
    omega
  · next hle =>
    have := UInt32.le_iff_toNat_le.mp (UInt32.not_lt.mp hle)
    rw [hneed] at this ⊢
    have h12 : fsInodeDirectBlocks.toNat = 12 := rfl
    omega

theorem fileInode_append (p size : UInt32) (bs : List UInt32) (b : UInt32) :
    { fileInode p size bs with blocks := fun j : Fin 12 =>
      if (j : Nat) = bs.length then b else (fileInode p size bs).blocks j } =
      fileInode p size (bs ++ [b]) := by
  simp only [fileInode, Inode.mk.injEq, true_and, and_true]
  funext j
  rcases Nat.lt_trichotomy j bs.length with hj | hj | hj
  · rw [if_neg (by omega), List.getD_append _ _ _ _ (by omega)]
  · simp [hj]
  · rw [if_neg (by omega), List.getD_eq_default _ _ (by omega),
      List.getD_eq_default _ _ (by simp; omega)]

theorem allocateBlock_disk {h h' : FsState} {b : UInt32} (hb : allocateBlock h = (b, h')) :
    h'.disk = h.disk := by
  unfold allocateBlock at hb
  split at hb
  · cases hb
    unfold FsState.markBlockUsed
    split <;> rfl
  · cases hb
    rfl

/-- The loop over the data, from block `i` on: it runs out of blocks and gives up, or it takes one
block a round and stores the data in them. -/
theorem writeFileBlocks_cases {s : FsState} {n p size : UInt32} (data : Memory)
    (h0 : s.bit 0 = true) :
    ∀ (rounds i : Nat) (remaining : UInt32) (h : FsState) (bs : List UInt32),
      Holding s h n (fileInode p size bs) bs → bs.length = i → i + rounds ≤ 12 →
      remaining.toNat = size.toNat - i * 512 →
      (∀ k (hk : k < bs.length), h.data bs[k] = fileSector data size k) →
      (∃ s', writeFileBlocks n data rounds i remaining h = (false, s') ∧ Same s s' ∧
        s.clearBlocks.card < i + rounds) ∨
      ∃ h' bs', writeFileBlocks n data rounds i remaining h = (true, h') ∧
        Holding s h' n (fileInode p size bs') bs' ∧ bs'.length = i + rounds ∧
        ∀ k (hk : k < bs'.length), h'.data bs'[k] = fileSector data size k
  | 0, i, remaining, h, bs, H, hi, _, _, hc => .inr ⟨h, bs, rfl, H, by omega, hc⟩
  | rounds + 1, i, remaining, h, bs, H, hi, hle, hr, hc => by
    unfold writeFileBlocks
    rcases H.allocateBlock_cases h0 (by omega) with ⟨hb, hfull⟩ | ⟨b, h', hb, hlt, H'⟩
    · rw [FsM.bind_eq hb, if_pos rfl]
      exact .inl ⟨_, rfl, H.abort, by omega⟩
    rw [FsM.bind_eq hb, if_neg (ne_noNumber_of_lt_blocks hlt)]
    simp only [FsM.bind_modify]
    rw [hi] at H'
    let sec := Sector.ofBytes (data.bytes (i * 512) (copySize remaining).toNat) 0
    have H'' := (H'.setBuffer sec).write (b := b) (by simp) sec
    rw [← hi, fileInode_append, hi] at H''
    have hsec : sec = fileSector data size i := by
      simp only [sec, fileSector, toNat_copySize, hr]
    have hvalid : ValidBlock b := (H''.fresh b (by simp)).1
    have hbs : b ∉ bs := by
      have := H''.nodup
      rw [List.nodup_append] at this
      exact fun hm => this.2.2 b hm b (by simp) rfl
    -- the block just taken holds this round's bytes, the earlier ones keep theirs
    have hc' : ∀ k (hk : k < (bs ++ [b]).length),
        (writeInodeBlock b sec { h'.setInodeBlock n i b with sectorBuffer := sec }).data
          (bs ++ [b])[k] = fileSector data size k := by
      intro k hk
      rw [writeInodeBlock_data]
      rw [List.length_append, List.length_singleton] at hk
      rcases Nat.lt_or_ge k bs.length with hlt | hge
      · rw [List.getElem_append_left hlt]
        have hne : bs[k] ≠ b := fun e => hbs (e ▸ List.getElem_mem hlt)
        have hdata : h'.data bs[k] = h.data bs[k] := data_congr (allocateBlock_disk hb) _
        rw [if_neg fun e => hne e.2]
        exact hdata.trans (hc k hlt)
      · have hk' : k = bs.length := by omega
        subst hk'
        rw [List.getElem_append_right (Nat.le_refl _)]
        simp only [Nat.sub_self, List.getElem_singleton]
        rw [if_pos ⟨hvalid, trivial⟩, hsec, hi]
    have ih := writeFileBlocks_cases data h0 rounds (i + 1) (remaining - copySize remaining) _
      (bs ++ [b]) H'' (by simp [hi]) (by omega) (by rw [toNat_sub_copySize, hr]; omega) hc'
    rw [Nat.add_right_comm] at ih
    exact ih

/-- `fs_create_file` below the lookups, up to the entry in the parent: it gives up and leaves the
state as it was, or it holds an inode and the blocks with the data. -/
theorem makeFile_holding {s : FsState} (hclean : CleanFree s) (h0 : s.bit 0 = true) (p : UInt32)
    (name : List UInt8) (data : Memory) {size : UInt32} (hsize : size ≤ fsMaxFileSize) :
    (∃ s', makeFile p name data size s = (-1, s') ∧ Same s s' ∧
      (s.freeNumbers = ∅ ∨ s.clearBlocks.card < (blocksNeeded size).toNat)) ∨
    ∃ h n bs, Holding s h n (fileInode p size bs) bs ∧ bs.length = (blocksNeeded size).toNat ∧
      (∀ k (hk : k < bs.length), h.data bs[k] = fileSector data size k) ∧
      ∀ t, linkEntry p name n h = (true, t) →
        makeFile p name data size s = (0, syncSuperblock (syncBlockBitmap (syncInodeTable t))) := by
  unfold makeFile
  rcases allocateInode_cases s hclean with ⟨ha, hfull⟩ | ⟨n, h, ha, H⟩
  · rw [FsM.bind_eq ha, if_pos rfl]
    exact .inl ⟨s, rfl, Same.refl s, .inl hfull⟩
  rw [FsM.bind_eq ha, if_neg (ne_noNumber_of_lt H.num), FsM.bind_modify, H.inode]
  have H := H.setInode (w := fileInode p size []) rfl
  have hneed := toNat_blocksNeeded hsize
  rcases writeFileBlocks_cases data h0 (blocksNeeded size).toNat 0 size _ [] H rfl
    (by omega) (by omega) (fun k hk => absurd hk (Nat.not_lt_zero k)) with
    ⟨s', hw, hsame, hfull⟩ | ⟨h', bs, hw, H', hlen, hc⟩
  · exact .inl ⟨s', FsM.bind_eq hw _, hsame, .inr (by omega)⟩
  · exact .inr ⟨h', n, bs, H', by omega, hc, fun t ht =>
      (FsM.bind_eq hw _).trans (FsM.bind_eq ht _)⟩

/-- **`fs_create_file` below the lookups.** -/
theorem makeFile_cases {s : FsState} {p : UInt32} (hr : Ready s p)
    (hp : (s.inodeTable p).type = inodeTypeDir) (name : List UInt8) (data : Memory)
    {size : UInt32} (hsize : size ≤ fsMaxFileSize) :
    (∃ s', makeFile p name data size s = (-1, s') ∧ Same s s' ∧
      (s.freeNumbers = ∅ ∨ s.clearBlocks.card < (blocksNeeded size).toNat)) ∨
    ∃ s' n bs i, makeFile p name data size s = (0, s') ∧ MadeFile s s' n p name data size bs i := by
  rcases makeFile_holding hr.clean hr.block0 p name data hsize with
    hfail | ⟨h, n, bs, H, hlen, hc, hrun⟩
  · exact .inl hfail
  have hpn : p ≠ n := fun e => by
    rw [e, H.free] at hp
    exact absurd hp (by decide)
  obtain ⟨t, i, hl, C, hcontent, _⟩ := H.link hr.perfect hpn hr.parent name
  refine .inr ⟨_, n, bs, i, hrun t hl,
    { C.syncSuperblock with
      count := hlen
      content := fun k hk => ?_
      storedSuperblock := syncSuperblock_storedSuperblock _ }⟩
  rw [syncSuperblock_data, hcontent _ (List.getElem_mem hk), hc k hk]

end EphemeralOS
