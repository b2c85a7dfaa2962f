import EphemeralOS.Fs.Faults

/-!
# What read failures do not break

The tables are in memory, and a read that fails can only empty a directory that
is then written back. So in any run, whatever reads fail, the blocks have one
owner each, entries lead to inodes in use, and a file has one entry at most
(`Robust`).
-/

namespace EphemeralOS

open Directory

structure Robust (s : FsState) : Prop where
  blocks : Blocks s
  types : ∀ i, s.Live i → s.IsFile i ∨ s.IsDir i
  root : s.IsDir s.superblock.rootInode
  live : ∀ d j c e, s.UsableDir d → s.slots d j = some (c, e) → s.Live e
  unique : ∀ d d' j k c c' f, s.UsableDir d → s.UsableDir d' → s.IsFile f →
    s.slots d j = some (c, f) → s.slots d' k = some (c', f) → d = d' ∧ j = k

theorem Inv.robust {s : FsState} (hI : Inv s) : Robust s where
  blocks := hI.blocks
  types := hI.shape.types
  root := by rw [hI.shape.root]; exact hI.shape.rootDir.1
  live _ _ _ _ hd h := hI.slot_live hd h
  unique _ _ _ _ _ _ _ hd hd' hf h h' := hI.slot_file_unique hd hd' hf h h'

theorem Holding.dirBlock_old {s h : FsState} {n : UInt32} {v : Inode} {bs : List UInt32}
    (H : Holding s h n v bs) (hB : Blocks s) {d : UInt32} (hd : s.UsableDir d) :
    h.dirBlock d = s.dirBlock d := by
  have hb := (hB.blockUsed hd.isDir.live hd.2.2.1).2
  unfold FsState.dirBlock
  simp only [H.inode_live hd.isDir.live, H.data (H.not_mem hb)]

theorem Freed.dirBlock {s s1 : FsState} {f : UInt32} (F : Freed s s1 f) (hdata : s1.data = s.data)
    {d : UInt32} (hd : s.UsableDir d) : s1.dirBlock d = s.dirBlock d := by
  unfold FsState.dirBlock
  simp only [F.inode_ne (F.ne_of_isDir hd.isDir), hdata]

namespace Robust

variable {s s' h : FsState}

theorem withFaults (hR : Robust s) (fs : List Bool) : Robust (s.withFaults fs) where
  blocks := ⟨hR.blocks.clean, hR.blocks.block0, hR.blocks.owned⟩
  types := hR.types
  root := hR.root
  live := hR.live
  unique := hR.unique

theorem resolve_live (hR : Robust s) {cs : List (List UInt8)} {e : UInt32}
    (h : s.resolve cs = some e) : s.Live e := by
  refine walk_invariant (P := s.Live) (fun x c y _ hy => ?_) hR.root.live h
  obtain ⟨-, hu, hf⟩ := Inv.lookup_some hy
  obtain ⟨j, hj⟩ := exists_slot_of_find hf
  exact hR.live x j c y hu hj

theorem same (hR : Robust s) (h : Same s s') : Robust s' where
  blocks := h.agree.blocks hR.blocks
  types i hi := by
    rw [h.agree.isFile_iff, h.agree.isDir_iff]
    exact hR.types i (h.agree.live_iff.mp hi)
  root := by
    rw [h.superblock, h.agree.isDir_iff]
    exact hR.root
  live d j c e hd he := by
    have hd := h.agree.usable_iff.mp hd
    rw [FsState.slots, h.agree.dirBlock hR.blocks hd] at he
    exact h.agree.live_iff.mpr (hR.live d j c e hd he)
  unique d d' j k c c' f hd hd' hf hj hk := by
    have hd := h.agree.usable_iff.mp hd
    have hd' := h.agree.usable_iff.mp hd'
    rw [FsState.slots, h.agree.dirBlock hR.blocks hd] at hj
    rw [FsState.slots, h.agree.dirBlock hR.blocks hd'] at hk
    exact hR.unique d d' j k c c' f hd hd' (h.agree.isFile_iff.mp hf) hj hk

/-! ## A creation -/

section Taken

variable {n : UInt32} {v : Inode} {bs : List UInt32}

/-- An inode and blocks are taken. A new directory holds itself and other directories. -/
theorem taken (hR : Robust s) (H : Holding s h n v bs)
    (hv : v.type = inodeTypeFile ∨ v.type = inodeTypeDir ∧
      ∀ j c e, slotsOf (dirOfSector (h.data (v.blocks 0))) j = some (c, e) → e = n ∨ s.IsDir e) :
    Robust h := by
  have hused : v.type ≠ inodeTypeFree := by
    rcases hv with hv | hv
    · rw [hv]; decide
    · rw [hv.1]; decide
  have hnew : h.UsableDir n → h.IsDir n ∧ ∀ j c e, h.slots n j = some (c, e) → h.IsDir e := by
    intro hu
    have hdir : v.type = inodeTypeDir := H.inode ▸ hu.2.1
    refine ⟨hu.isDir, fun j c e he => ?_⟩
    rw [hu.slots_eq, H.inode] at he
    rcases hv with hv | ⟨-, hv⟩
    · rw [hv] at hdir
      exact absurd hdir (by decide)
    · exact H.isDir_iff.mpr ((hv j c e he).imp_left (⟨·, hdir⟩))
  have hcases : ∀ d, h.UsableDir d → d = n ∨ s.UsableDir d ∧ h.slots d = s.slots d := fun d hd =>
    (H.usable_iff.mp hd).imp (·.1) fun hd => ⟨hd, congrArg slotsOf (H.dirBlock_old hR.blocks hd)⟩
  refine ⟨H.blocks hR.blocks hused, fun i hi => ?_, ?_, fun d j c e hd he => ?_,
    fun d d' j k c c' f hd hd' hf hj hk => ?_⟩
  · rw [H.isFile_iff, H.isDir_iff]
    rcases (H.live_iff hused).mp hi with rfl | hi
    · exact hv.imp (fun hv => .inl ⟨rfl, hv⟩) fun hv => .inl ⟨rfl, hv.1⟩
    · exact (hR.types i hi).imp .inr .inr
  · rw [H.superblock]
    exact H.isDir_iff.mpr (.inr hR.root)
  · rcases hcases d hd with rfl | ⟨hds, hslots⟩
    · exact ((hnew hd).2 j c e he).live
    · rw [hslots] at he
      exact (H.live_iff hused).mpr (.inr (hR.live d j c e hds he))
  · -- a file's entry is in a directory that was there
    have hold : ∀ d j c, h.UsableDir d → h.slots d j = some (c, f) →
        s.UsableDir d ∧ s.slots d j = some (c, f) := fun d j c hd hj => by
      rcases hcases d hd with rfl | ⟨hds, hslots⟩
      · exact absurd ((hnew hd).2 j c f hj) hf.not_isDir
      · exact ⟨hds, hslots ▸ hj⟩
    obtain ⟨hds, hj⟩ := hold d j c hd hj
    obtain ⟨hds', hk⟩ := hold d' k c' hd' hk
    have hfn : f ≠ n := H.ne_of_live (hR.live d j c f hds hj)
    have hfs := (H.isFile_iff.mp hf).resolve_left fun h => hfn h.1
    exact hR.unique d d' j k c c' f hds hds' hfs hj hk

end Taken

section Rewritten

variable {b : UInt32} {i : Fin 15} {x : DirEntry}

/-- An inode in use is entered; a file had no entry. -/
theorem entered (hR : Robust s) (W : Rewritten s s' b i x) (hx : s.Live x.inode)
    (hfile : s.IsFile x.inode → ∀ d j c, s.UsableDir d → s.slots d j ≠ some (c, x.inode)) :
    Robust s' := by
  have hlive : ∀ j, s'.Live j ↔ s.Live j := fun j => by unfold FsState.Live; rw [W.table]
  have hisFile : ∀ j, s'.IsFile j ↔ s.IsFile j := fun j => by unfold FsState.IsFile; rw [W.table]
  have hisDir : ∀ j, s'.IsDir j ↔ s.IsDir j := fun j => by unfold FsState.IsDir; rw [W.table]
  refine ⟨hR.blocks.congr W.table W.bitmap, fun j hj => ?_, ?_, fun d j c e hd he => ?_,
    fun d d' j k c c' f hd hd' hf hj hk => ?_⟩
  · rw [hisFile, hisDir]
    exact hR.types j ((hlive j).mp hj)
  · rw [W.root, hisDir]
    exact hR.root
  · rw [hlive]
    rcases W.slot_cases (W.usable_iff.mp hd) he with ⟨-, -, -, rfl⟩ | ⟨he, -⟩
    · exact hx
    · exact hR.live d j c e (W.usable_iff.mp hd) he
  · have hd := W.usable_iff.mp hd
    have hd' := W.usable_iff.mp hd'
    have hf := (hisFile f).mp hf
    rcases W.slot_cases hd hj with ⟨hb, rfl, -, rfl⟩ | ⟨hj, -⟩ <;>
      rcases W.slot_cases hd' hk with ⟨hb', rfl, -, he⟩ | ⟨hk, -⟩
    · exact ⟨(hR.blocks.block_inj hd.isDir.live hd'.isDir.live hd.2.2.1 (hb.trans hb'.symm)).1, rfl⟩
    · exact absurd hk (hfile hf d' k c' hd')
    · exact absurd hj (he ▸ hfile (he ▸ hf) d j c hd)
    · exact hR.unique d d' j k c c' f hd hd' hf hj hk

/-- A file is freed and, unless the read fails, its entry dropped. -/
theorem removed {s1 : FsState} {f p : UInt32} {c : List UInt8} {j : Fin 15} (hR : Robust s)
    (F : Freed s s1 f) (hroot : s1.superblock.rootInode = s.superblock.rootInode)
    (hdata : s1.data = s.data) (W : Rewritten s1 s' b i x) (hx : x.inUse ≠ 1) (hp : s.UsableDir p)
    (hb : (s.inodeTable p).blocks 0 = b) (hj : s.slots p j = some (c, f))
    (hi : ¬ s1.ReadFails → i = j) : Robust s' := by
  have hlive : ∀ j, s'.Live j ↔ s.Live j ∧ j ≠ f := fun j => by
    rw [← F.live_iff]; unfold FsState.Live; rw [W.table]
  have hisFile : ∀ j, s'.IsFile j ↔ s.IsFile j ∧ j ≠ f := fun j => by
    rw [← F.isFile_iff]; unfold FsState.IsFile; rw [W.table]
  have hisDir : ∀ j, s'.IsDir j ↔ s.IsDir j := fun j => by
    rw [← F.isDir_iff]; unfold FsState.IsDir; rw [W.table]
  have husable : ∀ d, s'.UsableDir d ↔ s.UsableDir d := fun d =>
    W.usable_iff.trans F.usable_iff
  -- what is left was there, and is not the file's
  have hslot : ∀ d k c' e, s.UsableDir d → s'.slots d k = some (c', e) →
      s.slots d k = some (c', e) ∧ e ≠ f := by
    intro d k c' e hd he
    rcases W.slot_cases (F.usable_iff.mpr hd) he with ⟨-, -, hu, -⟩ | ⟨he, hread⟩
    · exact absurd hu hx
    rw [FsState.slots, F.dirBlock hdata hd] at he
    refine ⟨he, ?_⟩
    rintro rfl
    obtain ⟨rfl, rfl⟩ := hR.unique d p k j c' c e hd hp F.file he hj
    rw [F.inode_ne (F.ne_of_isDir hd.isDir)] at hread
    exact (hread hb).2 (hi (hread hb).1).symm
  refine ⟨(F.blocks hR.blocks).congr W.table W.bitmap, fun k hk => ?_, ?_, fun d k c' e hd he => ?_,
    fun d d' k l c c' e hd hd' he hk hl => ?_⟩
  · obtain ⟨hk, hkf⟩ := (hlive k).mp hk
    rw [hisFile, hisDir]
    exact (hR.types k hk).imp_left (⟨·, hkf⟩)
  · rw [W.root, hroot, hisDir]
    exact hR.root
  · obtain ⟨he, hef⟩ := hslot d k c' e ((husable d).mp hd) he
    exact (hlive e).mpr ⟨hR.live d k c' e ((husable d).mp hd) he, hef⟩
  · have hd := (husable d).mp hd
    have hd' := (husable d').mp hd'
    exact hR.unique d d' k l c c' e hd hd' ((hisFile e).mp he).1 (hslot d k c e hd hk).1
      (hslot d' l c' e hd' hl).1

end Rewritten

end Robust

end EphemeralOS
