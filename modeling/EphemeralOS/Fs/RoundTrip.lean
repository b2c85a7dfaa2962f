import EphemeralOS.Fs.Run
import EphemeralOS.Fs.Stable

/-!
# Reading back what was written

What `fs_create_file` wrote `fs_read_file` gives back, just when there was a slot
for the entry (`round_trip_iff`). A directory block holds fourteen entries: the
last slot of `fs_dir_block_t` lies beyond the sector, so the entry put there is
lost (`eighth_root_file_lost`).
-/

namespace EphemeralOS

open Path Directory Run

theorem getD_ofBytes {l : List UInt8} (hl : l.length ≤ 512) {j : Nat} (hj : j < l.length) :
    (Sector.ofBytes l 0).val.getD j 0 = l.getD j 0 := by
  obtain ⟨t, ht⟩ := prefix_ofBytes l hl
  rw [← ht, List.getD_append _ _ _ _ hj]

theorem getD_bytes (m : Memory) (off n : Nat) {j : Nat} (hj : j < n) :
    (m.bytes off n).getD j 0 = m (off + j) := by
  unfold Memory.bytes
  rw [List.getD_eq_getElem _ _ (by simpa using hj)]
  simp

/-- Byte `a` of a file just made, if the blocks of a file reach that far. -/
theorem MadeFile.fileByte_lt {s s' : FsState} {n p : UInt32} {name : List UInt8} {data : Memory}
    {size : UInt32} {bs : List UInt32} {i : Fin 15} (M : MadeFile s s' n p name data size bs i)
    (hmax : size ≤ fsMaxFileSize) {a : Nat} (ha : a < size.toNat) (ha12 : a < 12 * 512) :
    s'.fileByte (fileInode p size bs) a = data a := by
  have hlen : bs.length = min 12 ((size.toNat + 511) / 512) :=
    M.count.trans (toNat_blocksNeeded hmax)
  have hk : a / 512 < bs.length := by omega
  have hk12 : a / 512 < 12 := by omega
  have hblock : (fileInode p size bs).blocks ⟨a / 512, hk12⟩ = bs[a / 512] :=
    List.getD_eq_getElem _ _ hk
  have hbytes : (data.bytes (a / 512 * 512) (min 512 (size.toNat - a / 512 * 512))).length =
      min 512 (size.toNat - a / 512 * 512) := by
    simp [Memory.bytes]
  unfold FsState.fileByte
  simp only [dif_pos hk12, hblock]
  rw [if_pos (M.fresh _ (List.getElem_mem hk)).1, M.content _ hk, fileSector,
    getD_ofBytes (by omega) (by omega), getD_bytes _ _ _ (by omega)]
  congr 1
  omega

/-- Byte `a` of a file just made that fits in its blocks. -/
theorem MadeFile.fileByte_eq {s s' : FsState} {n p : UInt32} {name : List UInt8} {data : Memory}
    {size : UInt32} {bs : List UInt32} {i : Fin 15} (M : MadeFile s s' n p name data size bs i)
    (hsize : size.toNat ≤ 12 * 512) {a : Nat} (ha : a < size.toNat) :
    s'.fileByte (fileInode p size bs) a = data a := by
  have hmax : size ≤ fsMaxFileSize := by
    rw [UInt32.le_iff_toNat_le]
    exact hsize.trans (by decide)
  exact M.fileByte_lt hmax ha (by omega)

/-- `fs_read_file` gives `data` back, into whatever buffer. -/
def ReadsBack (s : FsState) (path : List UInt8) (data : Memory) (size : UInt32) : Prop :=
  ∀ buffer maxSize, size ≤ maxSize → (fsReadFile path buffer maxSize s).1.1 = size.toNat ∧
    ∀ a, a < size.toNat → (fsReadFile path buffer maxSize s).1.2 a = data a

theorem toInt_eq {w : UInt32} (h : w.toNat < 2 ^ 31) : toInt w = w.toNat := by
  unfold toInt
  rw [BitVec.toInt_eq_toNat_of_lt]
  · rfl
  · show 2 * w.toNat < 2 ^ 32
    omega

theorem MadeFile.readsBack {s s' : FsState} (hI : Inv s) {n p : UInt32} {name : List UInt8}
    {data : Memory} {size : UInt32} {bs : List UInt32} {i : Fin 15}
    (M : MadeFile s s' n p name data size bs i)
    (L : Linked s s' n p name (fileInode p size bs) bs i) {path : List UInt8}
    (hres : s'.resolve (comps path) = some n) (hsize : size.toNat ≤ 12 * 512) :
    ReadsBack s' path data size := by
  intro buffer maxSize hmax
  have hfile : s'.IsFile n := L.isFile_iff.mpr (.inl ⟨rfl, rfl⟩)
  have hle := UInt32.le_iff_toNat_le.mp hmax
  rw [fsReadFile_file (L.inv hI) hres hfile, L.inode]
  refine ⟨toInt_eq (show size.toNat < 2 ^ 31 by omega), fun a ha => ?_⟩
  have hin : a < min (min (fileInode p size bs).size.toNat maxSize.toNat) (12 * 512) := by
    show a < min (min size.toNat maxSize.toNat) (12 * 512)
    omega
  show (if a < min (min (fileInode p size bs).size.toNat maxSize.toNat) (12 * 512)
    then s'.fileByte (fileInode p size bs) a else buffer a) = data a
  rw [if_pos hin, M.fileByte_eq hsize ha]

/-! ## The round trip -/

/-- The round trip in directory `p`, where `c` is no directory's name: the data is read back, if it
was written at all, just when there was a slot for it before the last one. -/
theorem Inv.readsBack_iff {s : FsState} (hI : Inv s) {path : List UInt8}
    (h0 : ∀ c ∈ comps path, 0 ∉ c) {ds : List (List UInt8)} {c : List UInt8} {p : UInt32}
    (hpath : comps path = ds ++ [c]) (hc : c.length < fsMaxFilename) (hp : s.resolve ds = some p)
    (hu : s.UsableDir p) (hnot : ∀ e, s.lookup p c = some e → ¬ s.IsDir e) (data : Memory)
    {size : UInt32} (hsize : size.toNat ≤ 12 * 512) :
    ((fsCreateFile path data size s).1 = 0 →
        ReadsBack (fsCreateFile path data size s).2 path data size) ↔
      (∃ f, s.lookup p c = some f) ∨ (∃ j, j ≠ 14 ∧ s.slots p j = none) ∨
        NoRoom s (blocksNeeded size).toNat := by
  have hmax : size ≤ fsMaxFileSize := by
    rw [UInt32.le_iff_toNat_le]
    exact hsize.trans (by decide)
  obtain ⟨s1, r, s', C, M, hrun⟩ := fsCreateFile_at hI h0 hpath hc hp hu.isDir data hmax
  rw [hrun]
  cases C with
  | deleted hf R =>
    refine iff_of_true (fun hr => ?_) (.inl ⟨_, hf⟩)
    cases M with
    | failed => cases hr
    | made M L =>
      exact M.readsBack (R.inv hI) L (hpath ▸ R.resolve_overwrite hI L hf hp) hsize
  | kept h =>
    have hnone : s.lookup p c = none := by
      cases hl : s.lookup p c with
      | none => rfl
      | some e => exact absurd (h e hl) (hnot e hl)
    rcases M.result_iff with ⟨rfl, hroom⟩ | ⟨rfl, hroom⟩
    · cases M with
      | @made _ n bs i M L =>
        by_cases hi : i = 14
        · -- every slot but the last is in use, so the entry is lost
          refine iff_of_false (fun hread => ?_) ?_
          · have hlost := L.resolve_lost hI hp (fun _ => hi) hnone
            have := (hread rfl (fun _ => 0) size (UInt32.le_refl _)).1
            rw [fsReadFile_fails (L.inv hI) fun e he => by
              rw [hpath, hlost] at he; cases he] at this
            simp only at this
            omega
          · rintro (⟨f, hf⟩ | ⟨j, hj, hjn⟩ | hn)
            · rw [hnone] at hf; cases hf
            · have := M.slot_le hjn
              omega
            · exact hroom hn
        · exact iff_of_true (fun _ => M.readsBack hI L (hpath ▸ L.resolve_new hI hp hu hi hnone) hsize)
            (.inr (.inl ⟨i, hi, M.empty⟩))
    · exact iff_of_true (fun hr => by cases hr) (.inr (.inr hroom))

/-- When a file just written can be read: it replaces a file, or its directory has a free slot
before the last one; or there is no room and nothing is written. -/
def HasSlot (s : FsState) (path : List UInt8) (size : UInt32) : Prop :=
  s.IsFile (findInodeByPath path s).1 ∨
    (∃ j, j ≠ 14 ∧ s.slots (findInodeByPath (splitPath path).1 s).1 j = none) ∨
    NoRoom s (blocksNeeded size).toNat

/-- **What was written reads back just when there was a slot for it.** -/
theorem round_trip_iff {s : FsState} (h : Reachable s) (path : CStr) (data : Memory) (size : UInt32)
    (hsize : size ≤ 6144)
    (hname : 1 ≤ (splitPath path).2.length ∧ (splitPath path).2.length ≤ 27)
    (hparent : s.UsableDir (findInodeByPath (splitPath path).1 s).1)
    (hdir : ¬ s.IsDir (findInodeByPath path s).1) :
    ((fsCreateFile path data size s).1 = 0 →
        ReadsBack (fsCreateFile path data size s).2 path data size) ↔
      HasSlot s path size := by
  have hI := (Reachable.sound h).inv
  obtain ⟨ds, c, hpath, hc, hp⟩ := hI.parent_of_usable hname.1 hparent
  rw [hc] at hname
  have hlookup := hI.findInodeByPath_concat hpath hp
  have hfile : s.IsFile (findInodeByPath path s).1 ↔
      ∃ f, s.lookup (findInodeByPath (splitPath path).1 s).1 c = some f := by
    rw [hlookup] at hdir ⊢
    cases hl : s.lookup (findInodeByPath (splitPath path).1 s).1 c with
    | none => exact iff_of_false (fun h => noNumber_not_lt h.1) (by simp)
    | some f =>
      rw [hl] at hdir
      exact iff_of_true ((hI.shape.types f (hI.lookup_live hl)).resolve_right hdir) ⟨f, rfl⟩
  unfold HasSlot
  rw [hfile]
  refine hI.readsBack_iff path.comps_noNul hpath (Nat.lt_succ_of_le hname.2) hp hparent
    (fun e he => ?_) data (UInt32.le_iff_toNat_le.mp hsize)
  rwa [hlookup, he, Option.getD_some] at hdir

theorem splitPath_samplePath : splitPath samplePath = (ascii "/", ascii "a") := by decide +kernel

/-- A file of two blocks written at the root reads back. -/
theorem sampleFile_round_trip :
    (fsCreateFile samplePath sampleData 700 sampleInstall).1 = 0 ∧
      ReadsBack (fsCreateFile samplePath sampleData 700 sampleInstall).2 samplePath sampleData 700 := by
  have hI := sampleInstall_inv
  have hroot : (findInodeByPath (splitPath samplePath).1 sampleInstall).1 = 0 := by
    rw [splitPath_samplePath]
    exact findInodeByPath_of_resolve hI (congrArg some hI.shape.root)
  have hdone : (fsCreateFile samplePath sampleData 700 sampleInstall).1 = 0 := by
    obtain ⟨s', _, _, _, hrun, _⟩ := sampleInstall_createFile sampleData 700 (by decide)
    rw [hrun]
  refine ⟨hdone, (round_trip_iff sampleInstall_reachable samplePath sampleData 700 (by decide)
    (by rw [splitPath_samplePath]; decide +kernel) (hroot ▸ hI.usable_root) ?_).mpr
    (.inr (.inl ⟨7, by decide, ?_⟩)) hdone⟩
  · rw [hI.findInodeByPath_concat comps_samplePath (congrArg some hI.shape.root),
      sampleInstall_lookup_a]
    exact fun h => noNumber_not_lt h.1
  · rw [hroot, sampleInstall_slots]
    rfl

/-! ### A full directory -/

/-- The first `k` slots of the root are in use; there is room for more inodes and blocks, and the
letters of `xs` are not names there. -/
structure RootFilled (s : FsState) (k : Nat) (xs : List UInt8) : Prop where
  reachable : Reachable s
  used : ∀ j : Fin 15, s.slots 0 j = none ↔ k ≤ j
  unused : ∀ x ∈ xs, s.lookup 0 [x] = none
  inodes : s.freeNumbers.card + k = 198
  blocks : s.clearBlocks.card = 503

def letterPath (x : UInt8) (hx : x ≠ 0) : CStr := ⟨[slash, x], by simp [slash, hx.symm]⟩

theorem comps_letterPath {x : UInt8} (hx : x ≠ 0) (hs : x ≠ slash) :
    comps (letterPath x hx) = [] ++ [[x]] :=
  components_snoc (l := []) ⟨by simp, by simpa using hs.symm⟩

theorem letter_short (x : UInt8) : [x].length < fsMaxFilename := show 1 < fsMaxFilename by decide

theorem RootFilled.room {s : FsState} {k m : Nat} {xs : List UInt8} (h : RootFilled s k xs)
    (hk : k < 198) (hm : m ≤ 503) : ¬ NoRoom s m := by
  have hi := h.inodes
  have hb := h.blocks
  rintro (hn | hn)
  · rw [hn, Finset.card_empty] at hi
    omega
  · omega

theorem RootFilled.next {s : FsState} {k : Nat} {x : UInt8} {xs : List UInt8}
    (h : RootFilled s k (x :: xs)) (hk : k < 14) (hx : x ≠ 0) (hs : x ≠ slash) (hxs : x ∉ xs) :
    ∃ s', RootFilled s' (k + 1) xs := by
  have hI := (Reachable.sound h.reachable).inv
  have hroom : ¬ NoRoom s (blocksNeeded 0).toNat := h.room (by omega) (Nat.zero_le _)
  obtain ⟨s', n, bs, i, hrun, M, L⟩ := fsCreateFile_fresh hI (letterPath x hx).comps_noNul
    (comps_letterPath hx hs) (letter_short x) (congrArg some hI.shape.root) hI.shape.rootDir.1
    (h.unused x List.mem_cons_self) sampleData (UInt32.zero_le) hroom
  have hu := hI.usable_root
  have hi : (i : Nat) = k := by
    have hge : k ≤ i := (h.used i).mp M.empty
    have hle := M.slot_le ((h.used ⟨k, by omega⟩).mpr (Nat.le_refl k))
    exact le_antisymm hle hge
  refine ⟨s', ?_, fun j => ?_, fun y hy => ?_, ?_, ?_⟩
  · have := h.reachable.next (e := .createFile (letterPath x hx) sampleData 0) trivial
    rwa [FsOp.step_createFile, hrun] at this
  · rw [L.slots_parent hu]
    by_cases h14 : j = 14
    · simp only [h14, Function.update_self, true_iff]
      exact hk
    by_cases hj : j = i
    · rw [Function.update_of_ne h14, hj, Function.update_self]
      exact iff_of_false (by simp) (by omega)
    · rw [Function.update_of_ne h14, Function.update_of_ne hj, h.used]
      omega
  · rw [L.lookup_ne hI hu (letter_short y) fun _ e => hxs ((List.cons.inj e).1 ▸ hy)]
    exact h.unused y (List.mem_cons_of_mem _ hy)
  · have := L.card_freeNumbers
    have := h.inodes
    omega
  · have hcount : bs.length = 0 := M.count
    have := L.card_clearBlocks
    have := h.blocks
    omega

theorem RootFilled.run : ∀ {s : FsState} {k : Nat} (xs : List UInt8) {ys : List UInt8},
    RootFilled s k (xs ++ ys) → k + xs.length ≤ 14 → (∀ x ∈ xs, x ≠ 0 ∧ x ≠ slash) →
      (xs ++ ys).Nodup → ∃ s', RootFilled s' (k + xs.length) ys
  | s, _, [], _, h, _, _, _ => ⟨s, h⟩
  | _, k, x :: xs, ys, h, hk, hx, hnd => by
    rw [List.length_cons] at hk ⊢
    obtain ⟨hx0, hxs⟩ := hx x List.mem_cons_self
    obtain ⟨s', h'⟩ := h.next (by omega) hx0 hxs (List.nodup_cons.mp hnd).1
    rw [Nat.add_comm xs.length 1, ← Nat.add_assoc] at hk ⊢
    exact h'.run xs hk (fun y hy => hx y (List.mem_cons_of_mem _ hy)) (List.nodup_cons.mp hnd).2

theorem sampleInstall_filled : RootFilled sampleInstall 7 (ascii "bcdefgh" ++ ascii "a") where
  reachable := sampleInstall_reachable
  used j := by
    rw [sampleInstall_slots]
    revert j
    decide +kernel
  unused x hx := by
    rw [sampleInstall_lookup (letter_short x)]
    revert x
    decide +kernel
  inodes := by rw [sampleInstall_freeNumbers]
  blocks := sampleInstall_clearBlocks

/-- The eighth file at the root is lost, though the call that wrote it returns 0. -/
theorem eighth_root_file_lost : ¬ ∀ (s : FsState) (path : CStr) (data : Memory) (size : UInt32),
    Reachable s → size ≤ 6144 →
    1 ≤ (splitPath path).2.length ∧ (splitPath path).2.length ≤ 27 →
    s.UsableDir (findInodeByPath (splitPath path).1 s).1 →
    ¬ s.IsDir (findInodeByPath path s).1 →
    (fsCreateFile path data size s).1 = 0 →
      ReadsBack (fsCreateFile path data size s).2 path data size := by
  intro hall
  obtain ⟨s, h⟩ :=
    sampleInstall_filled.run (ascii "bcdefgh") (by decide +kernel) (by decide +kernel)
    (by decide +kernel)
  have hI := (Reachable.sound h.reachable).inv
  have hp : s.resolve [] = some 0 := congrArg some hI.shape.root
  have hfree : s.lookup 0 (ascii "a") = none := h.unused 97 List.mem_cons_self
  have hroot : (findInodeByPath (splitPath samplePath).1 s).1 = 0 := by
    rw [splitPath_samplePath]
    exact findInodeByPath_of_resolve hI hp
  have hreads := hall s samplePath sampleData 1 h.reachable (by decide)
    (by rw [splitPath_samplePath]; decide +kernel) (hroot ▸ hI.usable_root) (by
      rw [hI.findInodeByPath_concat comps_samplePath hp, hfree]
      exact fun h => noNumber_not_lt h.1)
  rw [hI.readsBack_iff samplePath.comps_noNul comps_samplePath (by decide +kernel) hp hI.usable_root
    (fun e he => by rw [hfree] at he; cases he) sampleData (by decide)] at hreads
  rcases hreads with ⟨f, hf⟩ | ⟨j, hj, hjn⟩ | hroom
  · rw [hfree] at hf
    cases hf
  · have := (h.used j).mp hjn
    simp only [show (ascii "bcdefgh").length = 7 by decide +kernel] at this
    omega
  · exact h.room (by decide +kernel) (by decide) hroom

end EphemeralOS
