import EphemeralOS.Fs.Run
import EphemeralOS.Fs.Stable

/-!
# What holds in every reachable state

The accounts of blocks and inodes (`blocks_and_inodes_accounted`), the shape of
the directories (`directories_but_bin_wellFormed`) and of the tree
(`entries_form_tree`), and the frame of every call: the files it does not name
stay as they are (`other_files_kept`).
-/

namespace EphemeralOS

open Path Directory Ownership Run

/-- The bitmap, the two counters and the free inodes are right. -/
structure Accounted (s : FsState) : Prop where
  owner : ∀ b, ValidBlock b → (s.bit b = true ↔
    ∃! x : UInt32 × Fin 12, s.Live x.1 ∧ (s.inodeTable x.1).blocks x.2 = b)
  freeBlocks : s.superblock.freeBlocks.toNat = s.clearBlocks.card
  freeInodes : s.superblock.freeInodes.toNat = s.freeNumbers.card
  free : ∀ i, i < fsMaxInodes → (s.inodeTable i).type = inodeTypeFree →
    (s.inodeTable i).size = 0 ∧ ∀ k, (s.inodeTable i).blocks k = 0

theorem Sound.accounted {s : FsState} (h : Sound s) : Accounted s where
  owner b hv := by
    have href : ∀ x : UInt32 × Fin 12, s.blockRef x = some b ↔
        s.Live x.1 ∧ (s.inodeTable x.1).blocks x.2 = b := fun x => by
      rw [FsState.blockRef_eq_some]
      simp [hv.1]
    have hused : s.BlockUsed b ↔ s.bit b = true := and_iff_right hv
    rw [← hused, h.inv.blocks.owned.existsUnique b]
    simp only [href]
  freeBlocks := h.counters.blocks
  freeInodes := h.counters.inodes
  free := h.inv.blocks.clean

/-- **No block is shared, leaked or freed twice.** -/
theorem blocks_and_inodes_accounted {s : FsState} (h : Reachable s) : Accounted s :=
  (Reachable.sound h).accounted

theorem sampleInstall_accounted : Accounted sampleInstall :=
  blocks_and_inodes_accounted sampleInstall_reachable

/-! ## Directories -/

/-- A directory that can be used: it has a block, which starts with `.` and `..`. -/
structure DirWellFormed (s : FsState) (d : UInt32) : Prop where
  block : ValidBlock ((s.inodeTable d).blocks 0)
  dot : s.slots d 0 = some (ascii ".", d)
  dotdot : s.slots d 1 = some (ascii "..", (s.inodeTable d).parentInode)

theorem Inv.dirWellFormed_iff {s : FsState} (hI : Inv s) {d : UInt32} (hd : s.IsDir d) :
    DirWellFormed s d ↔ d ≠ 1 := by
  constructor
  · rintro h rfl
    exact h.block.1 hI.shape.bin.2
  · intro h1
    have hE := hI.entries d (hI.usable hd h1)
    exact ⟨hI.shape.dirs d hd h1, hE.dot, hE.dotdot⟩

/-- **Every directory but one is well formed, and `/bin` never is**: it was given block 0. -/
theorem directories_but_bin_wellFormed {s : FsState} (h : Reachable s) :
    (¬ ∀ d, s.IsDir d → DirWellFormed s d) ∧ ∀ d, s.IsDir d → (DirWellFormed s d ↔ d ≠ 1) := by
  have hI := (Reachable.sound h).inv
  refine ⟨fun hall => ?_, fun d hd => hI.dirWellFormed_iff hd⟩
  exact (hI.dirWellFormed_iff hI.shape.bin.1).mp (hall 1 hI.shape.bin.1) rfl

theorem sampleInstall_directories :
    (¬ ∀ d, sampleInstall.IsDir d → DirWellFormed sampleInstall d) ∧
      ∀ d, sampleInstall.IsDir d → (DirWellFormed sampleInstall d ↔ d ≠ 1) :=
  directories_but_bin_wellFormed sampleInstall_reachable

/-- After the sample installation inode 1 is a directory without a block. -/
theorem sampleInstall_bin_malformed :
    ¬ ∀ s, Reachable s → ∀ d, s.IsDir d → DirWellFormed s d := fun h =>
  have hI := sampleInstall_installed.sound.1.inv
  (hI.dirWellFormed_iff hI.shape.bin.1).mp (h _ sampleInstall_reachable 1 hI.shape.bin.1) rfl

/-- Entries other than `.` and `..` lead to live inodes of their own, and every inode is below the
root. -/
structure TreeShaped (s : FsState) : Prop where
  entry : ∀ d, s.UsableDir d → ∀ j c e, 2 ≤ j → s.slots d j = some (c, e) →
    s.Live e ∧ e ≠ 0 ∧ (s.inodeTable e).parentInode = d
  distinct : ∀ d d' j k c c' e, s.UsableDir d → s.UsableDir d' → 2 ≤ j → 2 ≤ k →
    s.slots d j = some (c, e) → s.slots d' k = some (c', e) → d = d' ∧ j = k
  rooted : ∀ i, s.Live i → s.Rooted i

theorem Inv.treeShaped {s : FsState} (hI : Inv s) : TreeShaped s where
  entry d hd j c e hj h := ((hI.entries d hd).entry j c e hj h).2
  distinct d d' j k c c' e hd hd' hj hk h h' := by
    obtain rfl : d = d' := ((hI.entries d hd).entry j c e hj h).2.2.2.symm.trans
      ((hI.entries d' hd').entry k c' e hk h').2.2.2
    exact ⟨rfl, (hI.entries d hd).distinct j k c c' e hj hk h h'⟩
  rooted := hI.shape.rooted

/-- **No dangling entries, and a tree.** -/
theorem entries_form_tree {s : FsState} (h : Reachable s) : TreeShaped s :=
  (Reachable.sound h).inv.treeShaped

theorem sampleInstall_treeShaped : TreeShaped sampleInstall :=
  entries_form_tree sampleInstall_reachable

/-! ## The frame of a call -/

/-- Inode `i` and the data of its blocks are in `s'` as they were in `s`. -/
structure Kept (s s' : FsState) (i : UInt32) : Prop where
  inode : s'.inodeTable i = s.inodeTable i
  data : ∀ k, ValidBlock ((s.inodeTable i).blocks k) →
    s'.data ((s.inodeTable i).blocks k) = s.data ((s.inodeTable i).blocks k)

theorem Kept.trans {s t u : FsState} {i : UInt32} (h : Kept s t i) (h' : Kept t u i) :
    Kept s u i where
  inode := h'.inode.trans h.inode
  data k hk := by
    have := h'.data k
    rw [h.inode] at this
    exact (this hk).trans (h.data k hk)

theorem Change.kept {made gone : UInt32 → Prop} {s s' : FsState} (hI : Inv s) {i : UInt32}
    (hi : s.IsFile i) (hgone : ¬ gone i) (h : Change made gone s s') : Kept s s' i := by
  have hused : ∀ k, ValidBlock ((s.inodeTable i).blocks k) →
      s.bit ((s.inodeTable i).blocks k) = true := fun k hk => (hI.blockUsed hi.live hk.1).2
  -- a file shares no block with a directory
  have hne : ∀ p, s.IsDir p → ∀ k, ValidBlock ((s.inodeTable i).blocks k) →
      (s.inodeTable i).blocks k ≠ (s.inodeTable p).blocks 0 := fun p hp k hk e =>
    hi.not_isDir ((hI.block_inj hi.live hp.live hk.1 e).1 ▸ hp)
  cases h with
  | same h => exact ⟨h.agree.inode hi.live, fun k hk => h.data _ (hused k hk)⟩
  | linked _ L =>
    exact ⟨L.inode_live hi.live, fun k hk =>
      L.kept _ (L.not_mem (hused k hk)) (hne _ L.parentDir k hk)⟩
  | removed hf R =>
    have hif : i ≠ _ := fun e => hgone (e ▸ hf)
    exact ⟨R.inode_ne hif, fun k hk => R.kept _ (hne _ R.parentDir.isDir k hk)⟩

theorem Changes.kept {made gone : UInt32 → Prop} {s s' : FsState} (hI : Inv s) {i : UInt32}
    (hi : s.IsFile i) (hgone : ¬ gone i) (h : Changes made gone s s') : Kept s s' i := by
  refine (h.preserves (P := fun t => Kept s t i) (fun t t' hIt hk ht => ?_) hI
    ⟨rfl, fun _ _ => rfl⟩).2
  have hit : t.IsFile i := ⟨hi.1, by rw [hk.inode]; exact hi.2⟩
  exact hk.trans (ht.kept hIt hit hgone)

/-- **A call leaves every file alone that its path does not lead to.** -/
theorem other_files_kept {s : FsState} (h : Reachable s) (op : FsOp) {i : UInt32} (hi : s.IsFile i)
    (hop : ¬ op.leadsTo s i) : Kept s (op.step s) i :=
  (op.changes (Reachable.sound h).inv).kept (Reachable.sound h).inv hi hop

/-- Writing `/b` after `/a` leaves `/a` alone. -/
theorem sampleFile_kept : ∃ i,
    ((FsOp.createFile samplePath sampleData 700).step sampleInstall).IsFile i ∧
      Kept ((FsOp.createFile samplePath sampleData 700).step sampleInstall)
        ((FsOp.createFile ⟨ascii "/b", by decide +kernel⟩ sampleData 6144).step
          ((FsOp.createFile samplePath sampleData 700).step sampleInstall)) i := by
  obtain ⟨s', n, bs, i, hrun, M, L⟩ := sampleInstall_createFile sampleData 700 (by decide)
  have hstep : (FsOp.createFile samplePath sampleData 700).step sampleInstall = s' :=
    (FsOp.step_createFile _ _ _ _).trans (congrArg Prod.snd hrun)
  have hreach : Reachable s' := hstep ▸ sampleInstall_reachable.next trivial
  have hI' := (Reachable.sound hreach).inv
  have hfile : s'.IsFile n := L.isFile_iff.mpr (.inl ⟨rfl, rfl⟩)
  rw [hstep]
  refine ⟨n, hfile, other_files_kept hreach _ hfile ?_⟩
  -- `/b` leads nowhere, and its parent is the root
  have hlookup : s'.lookup 0 (ascii "b") = none := by
    rw [L.lookup_ne sampleInstall_inv sampleInstall_inv.usable_root (by decide +kernel)
      (fun _ => by decide +kernel), sampleInstall_lookup (by decide +kernel)]
    decide +kernel
  have hnone : s'.resolve ([] ++ [ascii "b"]) = none := by
    rw [resolve_concat, resolve_nil, hI'.shape.root]
    exact hlookup
  have hfind : (findInodeByPath (ascii "/b") s').1 = noNumber := by
    rw [findInodeByPath_eq hI'.perfect,
      show comps (ascii "/b") = [] ++ [ascii "b"] by decide +kernel, hnone]
    rfl
  have hparent : (fsCreateDir (splitPath (ascii "/b")).1 s').2 = s' :=
    fsCreateDir_found hI' (p := 0) (by decide +kernel)
      (by rw [show comps (splitPath (ascii "/b")).1 = [] by decide +kernel]
          exact congrArg some hI'.shape.root)
  have hn : noNumber ≠ n := (ne_noNumber_of_lt hfile.1).symm
  rintro (h | h)
  · exact hn (hfind.symm.trans h)
  · have h' : (findInodeByPath (ascii "/b") (fsCreateDir (splitPath (ascii "/b")).1 s').2).1 = n := h
    rw [hparent] at h'
    exact hn (hfind.symm.trans h')

end EphemeralOS
