import EphemeralOS.Fs.Run
import EphemeralOS.Fs.Stable

/-!
# Sizes and overwriting

When every byte of a file is stored (`files_stored_whole`), and when a failed
overwrite keeps the old file (`failed_overwrite_iff`).
-/

namespace EphemeralOS

open Path Directory Run

def StoredWhole (v : Inode) : Prop :=
  v.size.toNat ≤ 512 * 12 ∧
    ∀ k, k < (v.size.toNat + 511) / 512 → ∃ h : k < 12, v.blocks ⟨k, h⟩ ≠ 0

theorem storedWhole_iff {v : Inode} (h : FileBlocks v) : StoredWhole v ↔ v.size.toNat ≤ 12 * 512 := by
  refine ⟨fun hv => by have := hv.1; omega, fun hle => ⟨by omega, fun k hk => ?_⟩⟩
  have hk12 : k < 12 := by omega
  exact ⟨hk12, (h.2 ⟨k, hk12⟩).mpr hk⟩

/-- The calls that write only what an inode's blocks can hold: `fs_create_file` up to 6144 bytes, or
so many that it refuses. -/
def FsOp.storable : FsOp → FsState → Prop
  | .createFile _ _ size, _ => size ≤ 6144 ∨ fsMaxFileSize < size
  | _, _ => True

def SmallFiles (s : FsState) : Prop := ∀ i, s.IsFile i → (s.inodeTable i).size.toNat ≤ 12 * 512

theorem SmallFiles.change {made gone : UInt32 → Prop} {s s' : FsState} (hI : Inv s)
    (hS : SmallFiles s) (hmade : ∀ n, made n → n ≤ fsMaxFileSize → n.toNat ≤ 12 * 512)
    (h : Change made gone s s') : SmallFiles s' := by
  intro i hi
  cases h with
  | same h =>
    have hit := h.agree.isFile_iff.mp hi
    rw [h.agree.inode hit.live]
    exact hS i hit
  | linked hv L =>
    rcases L.isFile_iff.mp hi with ⟨rfl, hv'⟩ | hit
    · have hle := ((L.inv hI).files i hi).1
      rw [L.inode] at hle ⊢
      exact hmade _ (hv hv') hle
    · rw [L.inode_live hit.live]
      exact hS i hit
  | removed _ R =>
    obtain ⟨hit, hne⟩ := R.isFile_iff.mp hi
    rw [R.inode_ne hne]
    exact hS i hit

theorem FsOp.small_of_storable {s : FsState} (op : FsOp) (h : op.storable s) (n : UInt32)
    (hn : op.makes n) (hle : n ≤ fsMaxFileSize) : n.toNat ≤ 12 * 512 := by
  cases op with
  | createDir | deleteFile => exact hn.elim
  | createFile path data size =>
    obtain rfl : n = size := hn
    rcases h with h | h
    · exact UInt32.le_iff_toNat_le.mp h
    · exact absurd hle (UInt32.not_le.mpr h)

/-- **Every file is stored whole**, as long as no call writes more than 6144 bytes. -/
theorem files_stored_whole {s : FsState} (h : ReachableBy FsOp.storable s) {i : UInt32}
    (hi : s.IsFile i) : StoredWhole (s.inodeTable i) := by
  have hsmall : Inv s ∧ SmallFiles s := h.invariant (P := fun t => Inv t ∧ SmallFiles t)
    (fun t ht => ⟨ht.sound.1.inv, fun i hi => absurd hi (ht.not_isFile i)⟩)
    fun t op hP hop => (op.changes hP.1).preserves (P := SmallFiles)
      (fun _ _ hI hP ht => hP.change hI (op.small_of_storable hop) ht) hP.1 hP.2
  exact (storedWhole_iff (hsmall.1.files i hi)).mpr (hsmall.2 i hi)

/-- After the sample installation a file is stored whole. -/
theorem sampleFile_stored_whole : ∃ i,
    ((FsOp.createFile samplePath sampleData 700).step sampleInstall).IsFile i ∧
      StoredWhole (((FsOp.createFile samplePath sampleData 700).step sampleInstall).inodeTable i) := by
  obtain ⟨s', n, bs, i, hrun, M, L⟩ := sampleInstall_createFile sampleData 700 (by decide)
  have hfile : s'.IsFile n := L.isFile_iff.mpr (.inl ⟨rfl, rfl⟩)
  have hsmall : (FsOp.createFile samplePath sampleData 700).storable sampleInstall :=
    Or.inl (show (700 : UInt32) ≤ 6144 by decide)
  have hreach : ReachableBy FsOp.storable _ := sampleInstall_reachable.next hsmall
  rw [FsOp.step_createFile, hrun] at hreach ⊢
  exact ⟨n, hfile, files_stored_whole hreach hfile⟩

/-- Of 6145 bytes the last has no block. -/
theorem oversized_file_cut : ¬ ∀ s, Reachable s → ∀ i, s.IsFile i → StoredWhole (s.inodeTable i) := by
  intro hall
  obtain ⟨s', n, bs, i, hrun, M, L⟩ := sampleInstall_createFile sampleData 6145 (by decide)
  have hreach : Reachable _ :=
    sampleInstall_reachable.next (e := .createFile samplePath sampleData 6145) trivial
  rw [FsOp.step_createFile, hrun] at hreach
  have hle := (hall s' hreach n (L.isFile_iff.mpr (.inl ⟨rfl, rfl⟩))).1
  rw [L.inode] at hle
  exact absurd hle (show ¬ 6145 ≤ 512 * 12 by decide)

/-! ## A failed overwrite -/

/-- The path leads to a file in `s'`, which reads as in `s`. -/
def KeepsFile (s s' : FsState) (path : List UInt8) : Prop :=
  s'.IsFile (findInodeByPath path s').1 ∧
    ∀ buffer maxSize, (fsReadFile path buffer maxSize s').1 = (fsReadFile path buffer maxSize s).1

theorem fsCreateFile_refused {s : FsState} (path : List UInt8) (data : Memory) {size : UInt32}
    (h : fsMaxFileSize < size) : fsCreateFile path data size s = (-1, s) := by
  unfold fsCreateFile
  rw [if_pos h]
  rfl

/-- Overwriting a file keeps it in case of failure just when it fails before the deletion. -/
theorem Inv.keepsFile_iff {s : FsState} (hI : Inv s) {path : List UInt8}
    (h0 : ∀ c ∈ comps path, 0 ∉ c) {ds : List (List UInt8)} {c : List UInt8} {p f : UInt32}
    (hpath : comps path = ds ++ [c]) (hp : s.resolve ds = some p) (hl : s.lookup p c = some f)
    (hf : s.IsFile f) (data : Memory) (size : UInt32) :
    ((fsCreateFile path data size s).1 = -1 → KeepsFile s (fsCreateFile path data size s).2 path) ↔
      (fsMaxFileSize < size ∨
        (blocksNeeded size).toNat ≤ s.clearBlocks.card + (s.inodeTable f).pointers.length) := by
  obtain ⟨hc, hu, -⟩ := lookup_some hl
  by_cases hsize : fsMaxFileSize < size
  · rw [fsCreateFile_refused path data hsize]
    refine iff_of_true (fun _ => ⟨?_, fun _ _ => rfl⟩) (.inl hsize)
    rwa [findInodeByPath_eq hI.perfect, hpath, resolve_concat, hp, Option.bind_some, hl]
  obtain ⟨s1, r, s', C, M, hrun⟩ := fsCreateFile_at hI h0 hpath hc hp hu.isDir data
    (UInt32.not_lt.mp hsize)
  rw [hrun]
  cases C with
  | kept hdir => exact absurd (hdir f hl) hf.not_isDir
  | deleted hf' R =>
    obtain rfl := Option.some_inj.mp (hl.symm.trans hf')
    have hcard := R.card_clearBlocks hI
    have hinode : f ∈ s1.freeNumbers := mem_freeNumbers.mpr ⟨hf.1, by rw [R.freed.inode]⟩
    rcases M.result_iff with ⟨rfl, hroom⟩ | ⟨rfl, hroom⟩
    · refine iff_of_true (fun hr => by cases hr) (.inr ?_)
      unfold NoRoom at hroom
      omega
    refine iff_of_false (fun hkept => ?_) ?_
    · cases M with
      | failed hsame _ =>
        -- the name is free now, or a directory's
        have hI1 := R.inv hI
        have hfile := (hkept rfl).1
        rw [findInodeByPath_eq (hsame.agree.inv hI1).perfect, hsame.agree.resolve hI1, hpath,
          resolve_concat, R.resolve_dir hI hp hu.isDir] at hfile
        simp only [Option.bind_some] at hfile
        cases hl' : s1.lookup p c with
        | none =>
          rw [hl'] at hfile
          exact noNumber_not_lt hfile.1
        | some e =>
          rw [hl'] at hfile
          exact (hsame.agree.isFile_iff.mp hfile).not_isDir (R.lookup_isDir hI hl hl')
    · rintro (h | h)
      · exact hsize h
      · rcases hroom with hroom | hroom
        · rw [hroom] at hinode
          exact Finset.notMem_empty _ hinode
        · omega

/-- **A failed overwrite keeps the old file just when it fails before the old file is deleted**: the
size is refused, or there are blocks enough for the new file once the old one is gone. -/
theorem failed_overwrite_iff {s : FsState} (h : Reachable s) (path : CStr)
    (hf : s.IsFile (findInodeByPath path s).1) (data : Memory) (size : UInt32) :
    ((fsCreateFile path data size s).1 = -1 → KeepsFile s (fsCreateFile path data size s).2 path) ↔
      (fsMaxFileSize < size ∨ (blocksNeeded size).toNat ≤
        s.clearBlocks.card + (s.inodeTable (findInodeByPath path s).1).pointers.length) := by
  have hI := (Reachable.sound h).inv
  rw [findInodeByPath_eq hI.perfect] at hf ⊢
  cases hres : s.resolve (comps path) with
  | none =>
    rw [hres] at hf
    exact absurd hf.1 noNumber_not_lt
  | some f =>
    rw [hres, Option.getD_some] at hf
    rcases comps_cases path with hroot | ⟨ds, c, hpath⟩
    · rw [hroot, resolve_nil, hI.shape.root] at hres
      cases hres
      exact absurd hI.shape.rootDir.1 hf.not_isDir
    · rw [hpath, resolve_concat] at hres
      obtain ⟨p, hp, hl⟩ := Option.bind_eq_some_iff.mp hres
      exact hI.keepsFile_iff path.comps_noNul hpath hp hl hf data size

/-- A size that is refused leaves the file as it was. -/
theorem sampleFile_kept_when_refused :
    (fsCreateFile samplePath sampleData 20000
        ((FsOp.createFile samplePath sampleData 700).step sampleInstall)).1 = -1 ∧
      KeepsFile ((FsOp.createFile samplePath sampleData 700).step sampleInstall)
        (fsCreateFile samplePath sampleData 20000
          ((FsOp.createFile samplePath sampleData 700).step sampleInstall)).2 samplePath := by
  obtain ⟨s', n, bs, i, hrun, M, L⟩ := sampleInstall_createFile sampleData 700 (by decide)
  have hreach : Reachable _ :=
    sampleInstall_reachable.next (e := .createFile samplePath sampleData 700) trivial
  rw [FsOp.step_createFile, hrun] at hreach ⊢
  have hI' := (Reachable.sound hreach).inv
  have hfind : (findInodeByPath samplePath s').1 = n :=
    findInodeByPath_of_resolve hI' (sampleFile_resolve L)
  have hfile : s'.IsFile n := L.isFile_iff.mpr (.inl ⟨rfl, rfl⟩)
  have hrefused : (fsCreateFile samplePath sampleData 20000 s').1 = -1 := by
    rw [fsCreateFile_refused samplePath sampleData (by decide)]
  exact ⟨hrefused, (failed_overwrite_iff hreach samplePath (hfind ▸ hfile) sampleData 20000).mpr
    (.inl (by decide)) hrefused⟩

/-! ### Blocks lost in `/bin` -/

/-- `/a` is an empty file; `k` files of twelve blocks were written to `/bin`, which keeps none. -/
structure BinLeak (s : FsState) (k : Nat) : Prop where
  reachable : Reachable s
  bin : s.lookup 0 (ascii "bin") = some 1
  file : ∃ f, s.lookup 0 (ascii "a") = some f ∧ s.IsFile f ∧ (s.inodeTable f).pointers = []
  inodes : s.freeNumbers.card + k = 190
  blocks : s.clearBlocks.card + 12 * k = 503

def binPath : CStr := ⟨ascii "/bin/x", by decide +kernel⟩

theorem BinLeak.next {s : FsState} {k : Nat} (h : BinLeak s k) (hk : k < 41) :
    ∃ s', BinLeak s' (k + 1) := by
  have hI := (Reachable.sound h.reachable).inv
  have hi := h.inodes
  have hb := h.blocks
  have hcount : (blocksNeeded 6144).toNat = 12 := by decide +kernel
  have hroom : ¬ NoRoom s (blocksNeeded 6144).toNat := by
    rintro (hn | hn)
    · rw [hn, Finset.card_empty] at hi
      omega
    · omega
  have hp : s.resolve ([] ++ [ascii "bin"]) = some 1 := by
    rw [resolve_concat, resolve_nil, hI.shape.root, Option.bind_some, h.bin]
  have hnone : s.lookup 1 (ascii "x") = none := by
    unfold FsState.lookup
    rw [if_neg fun hx => hI.not_usable_bin hx.2]
  obtain ⟨s', n, bs, i, hrun, M, L⟩ := fsCreateFile_fresh hI binPath.comps_noNul
    (show comps binPath = ([] ++ [ascii "bin"]) ++ [ascii "x"] by decide +kernel) (by decide +kernel)
    hp hI.shape.bin.1 hnone sampleData (by decide) hroom
  have hroot : ∀ {c : List UInt8} {e : UInt32}, s.lookup 0 c = some e → s'.lookup 0 c = some e :=
    fun hc => by
      rw [L.lookup_ne hI hI.usable_root (Inv.lookup_some hc).1 fun e => absurd e (by decide), hc]
  refine ⟨s', ?_, hroot h.bin, ?_, ?_, ?_⟩
  · have := h.reachable.next (e := .createFile binPath sampleData 6144) trivial
    rwa [FsOp.step_createFile, hrun] at this
  · obtain ⟨f, hf, hfile, hptr⟩ := h.file
    exact ⟨f, hroot hf, L.isFile_iff.mpr (.inr hfile), by rw [L.inode_live hfile.live, hptr]⟩
  · have := L.card_freeNumbers
    omega
  · have := L.card_clearBlocks
    have hlen : bs.length = 12 := M.count.trans hcount
    omega

theorem binLeak : ∀ k, k ≤ 41 → ∃ s, BinLeak s k
  | 0, _ => by
    obtain ⟨s', n, bs, i, hrun, M, L⟩ := sampleInstall_createFile sampleData 0 (by decide)
    have hI := sampleInstall_inv
    have hfile : s'.IsFile n := L.isFile_iff.mpr (.inl ⟨rfl, rfl⟩)
    have hlen : bs.length = 0 := M.count
    have hi := L.card_freeNumbers
    have hb := L.card_clearBlocks
    rw [sampleInstall_freeNumbers] at hi
    rw [sampleInstall_clearBlocks] at hb
    refine ⟨s', ?_, ?_, ⟨n, ?_, hfile, ?_⟩, by omega, by omega⟩
    · have : Reachable _ :=
        sampleInstall_reachable.next (e := .createFile samplePath sampleData 0) trivial
      rwa [FsOp.step_createFile, hrun] at this
    · rw [L.lookup_ne hI hI.usable_root (by decide +kernel) fun _ => by decide +kernel,
        sampleInstall_lookup (by decide +kernel)]
      decide +kernel
    · exact sampleFile_lookup L
    · rw [L.inode, L.pointers_eq]
      exact List.length_eq_zero_iff.mp hlen
  | k + 1, hk => by
    obtain ⟨s, h⟩ := binLeak k (by omega)
    exact h.next (by omega)

/-- With eleven blocks left, overwriting an empty file by one of twelve blocks loses it. -/
theorem failed_overwrite_loses : ¬ ∀ (s : FsState) (path : CStr) (data : Memory) (size : UInt32),
    Reachable s → s.IsFile (findInodeByPath path s).1 → (fsCreateFile path data size s).1 = -1 →
      KeepsFile s (fsCreateFile path data size s).2 path := by
  intro hall
  obtain ⟨s, h⟩ := binLeak 41 (Nat.le_refl _)
  have hI := (Reachable.sound h.reachable).inv
  obtain ⟨f, hf, hfile, hptr⟩ := h.file
  have hp : s.resolve [] = some 0 := congrArg some hI.shape.root
  have hfind : (findInodeByPath samplePath s).1 = f := findInodeByPath_of_resolve hI (by
    rw [comps_samplePath, resolve_concat, hp, Option.bind_some, hf])
  have hkept := hall s samplePath sampleData 6144 h.reachable (hfind ▸ hfile)
  rw [hI.keepsFile_iff samplePath.comps_noNul comps_samplePath hp hf hfile, hptr] at hkept
  have hb := h.blocks
  rcases hkept with hlarge | hroom
  · exact absurd hlarge (by decide)
  · rw [show (blocksNeeded 6144).toNat = 12 by decide +kernel, List.length_nil] at hroom
    omega

end EphemeralOS
