import EphemeralOS.Fs.Robust
import EphemeralOS.Fs.Run

/-!
# What a failed read destroys

`fs_create_dir`, `fs_create_file` and `fs_delete_file` change a directory by
reading its block, changing one entry and writing the block back. A lookup that
loses a read does no harm; when the read before the write is lost, the block
written back holds no entry but the new one. `FsOp.failedUpdates` are the
blocks to which that happens during a call, and a call keeps all entries but
its own just when none of these blocks held any
(`entries_kept_iff`).
-/

namespace EphemeralOS

open Path Directory Run

namespace FsState

/-- A read of `block` would fail now. -/
def FailsToRead (s : FsState) (block : UInt32) : Prop := ValidBlock block ∧ s.ReadFails

instance (s : FsState) (block : UInt32) : Decidable (s.FailsToRead block) :=
  inferInstanceAs (Decidable (_ ∧ _))

end FsState

instance (s : FsState) (k : Nat) : Decidable (NoRoom s k) := inferInstanceAs (Decidable (_ ∨ _))

/-- The block, if it cannot be read in order to be changed. -/
def failedUpdate (s : FsState) (block : UInt32) : List UInt32 :=
  if s.FailsToRead block then [block] else []

theorem failedUpdate_congr {s s' : FsState} (h : s'.disk.faults = s.disk.faults) (block : UInt32) :
    failedUpdate s' block = failedUpdate s block := by
  have hiff : s'.FailsToRead block ↔ s.FailsToRead block := by
    unfold FsState.FailsToRead FsState.ReadFails
    rw [h]
  unfold failedUpdate
  simp only [hiff]

/-- The failed update of `makeDir`, if it gets there. -/
def makeDirFailed (parentInode : UInt32) (s : FsState) : List UInt32 :=
  let block := (s.inodeTable parentInode).blocks 0
  if (s.inodeTable parentInode).type = inodeTypeDir ∧ s.FailsToRead block ∧ ¬ NoRoom s 1
  then [block] else []

/-- The failed updates of `createDirDepth`. -/
def createDirFailed : Nat → List UInt8 → FsState → List UInt32
  | 0, _, _ => []
  | depth + 1, path, s =>
    let (parentPath, dirName) := splitPath path
    if dirName.length = 0 ∨ dirName.length ≥ fsMaxFilename then [] else
    (findInodeByPath path).after (fun existing s =>
      if existing ≠ noNumber then [] else
      (findInodeByPath parentPath).after (fun parentInode s =>
        if parentInode = noNumber then
          if parentPath ≠ [slash] then
            createDirFailed depth parentPath s ++
            (createDirDepth depth parentPath).after (fun result s =>
              if result ≠ 0 then [] else
              (findInodeByPath parentPath).after (fun parentInode s =>
                if parentInode = noNumber then [] else makeDirFailed parentInode s) s) s
          else []
        else makeDirFailed parentInode s) s) s

/-- The failed update of `fsDeleteFile`. -/
def deleteFailed (path : List UInt8) (s : FsState) : List UInt32 :=
  (findInodeByPath (splitPath path).1).after (fun parentInode s =>
    if parentInode = noNumber then [] else
    (findInodeByPath path).after (fun fileInode s =>
      if fileInode = noNumber then [] else
      if (s.inodeTable fileInode).type ≠ inodeTypeFile then [] else
      failedUpdate s ((s.inodeTable parentInode).blocks 0)) s) s

/-- The failed update of `makeFile`, if it gets there. -/
def makeFileFailed (parentInode size : UInt32) (s : FsState) : List UInt32 :=
  let block := (s.inodeTable parentInode).blocks 0
  if s.FailsToRead block ∧ ¬ NoRoom s (blocksNeeded size).toNat then [block] else []

/-- The failed updates of `replaceFile`. -/
def replaceFailed (path : List UInt8) (parentInode size : UInt32) (s : FsState) : List UInt32 :=
  if (s.inodeTable parentInode).type ≠ inodeTypeDir then [] else
  (findInodeByPath path).after (fun existing s =>
    if existing ≠ noNumber then
      deleteFailed path s ++ (fsDeleteFile path).after (fun _ s => makeFileFailed parentInode size s) s
    else makeFileFailed parentInode size s) s

/-- The failed updates of `fsCreateFile`. -/
def createFileFailed (path : List UInt8) (size : UInt32) (s : FsState) : List UInt32 :=
  if size > fsMaxFileSize then [] else
  let (parentPath, fileName) := splitPath path
  if fileName.length = 0 ∨ fileName.length ≥ fsMaxFilename then [] else
  (findInodeByPath parentPath).after (fun parentInode s =>
    if parentInode = noNumber then
      createDirFailed (parentPath.length + 1) parentPath s ++
      (fsCreateDir parentPath).after (fun result s =>
        if result ≠ 0 then [] else
        (findInodeByPath parentPath).after (fun parentInode s =>
          if parentInode = noNumber then [] else replaceFailed path parentInode size s) s) s
    else replaceFailed path parentInode size s) s

namespace FsOp

/-- The directory blocks that the call, made in the state `s`, writes back without having been
able to read them. -/
def failedUpdates : FsOp → FsState → List UInt32
  | createDir path, s => createDirFailed (path.val.length + 1) path s
  | createFile path _ size, s => createFileFailed path size s
  | deleteFile path, s => deleteFailed path s

def path : FsOp → CStr
  | createDir path | createFile path _ _ | deleteFile path => path

/-- The state in which the call looks for what its path leads to: `fs_create_file` makes missing
parents first. -/
def lookupState : FsOp → FsState → FsState
  | createFile path _ _, s =>
    (findInodeByPath (splitPath path).1).after (fun parentInode s =>
      if parentInode = noNumber then (fsCreateDir (splitPath path).1 s).2 else s) s
  | _, s => s

/-- The file that the call's path leads to. Its entry is the call's own. -/
def own (op : FsOp) (s : FsState) (e : UInt32) : Prop :=
  s.IsFile e ∧ (op.lookupState s).resolve (comps op.path) = some e

/-- Every entry in use on the disk, but the call's own, is still there after the call: its
directory has not moved, and the slot holds what it held. -/
def KeepsEntries (op : FsOp) (s : FsState) : Prop :=
  ∀ d j, s.IsDir d → (s.dirBlock d j).inUse = 1 → ¬ op.own s (s.dirBlock d j).inode →
    (op.step s).inodeTable d = s.inodeTable d ∧ (op.step s).dirBlock d j = s.dirBlock d j

end FsOp

/-- A deletion whose lookups may fail changes nothing, or frees the file that its path leads to and
writes the parent's block back. -/
theorem fsDeleteFile_lossy (path : List UInt8) (s : FsState) :
    (∃ r fs, fsDeleteFile path s = (r, s.withFaults fs) ∧ deleteFailed path s = []) ∨
    ∃ p f fs fs', s.resolve (comps (splitPath path).1) = some p ∧
      s.resolve (comps path) = some f ∧ (s.inodeTable f).type = inodeTypeFile ∧
      deleteFailed path s = failedUpdate (s.withFaults fs) ((s.inodeTable p).blocks 0) ∧
      ∀ s1 b, s1 = freeInode f (s.withFaults fs) → b = (s1.inodeTable p).blocks 0 →
        fsDeleteFile path s = (0, syncBlockBitmap (syncInodeTable
          (s1.rewrite fs' b (removeEntry (s1.dirRead b) f)))) := by
  obtain ⟨p, fs1, h1, hp⟩ := findInodeByPath_lossy (splitPath path).1 s
  obtain ⟨f, fs2, h2, hf⟩ := findInodeByPath_lossy path (s.withFaults fs1)
  by_cases hpn : p = noNumber
  · refine .inl ⟨-1, fs1, ?_, ?_⟩
    · refine (FsM.bind_eq h1 _).trans ?_
      rw [if_pos hpn]
      rfl
    · unfold deleteFailed
      rw [FsM.after_eq h1, if_pos hpn]
  by_cases hfn : f = noNumber
  · refine .inl ⟨-1, fs2, ?_, ?_⟩
    · refine (FsM.bind_eq h1 _).trans ?_
      rw [if_neg hpn, FsM.bind_eq h2, if_pos hfn]
      rfl
    · unfold deleteFailed
      rw [FsM.after_eq h1, if_neg hpn, FsM.after_eq h2, if_pos hfn]
  by_cases hfile : (s.inodeTable f).type = inodeTypeFile
  case neg =>
    refine .inl ⟨-1, fs2, ?_, ?_⟩
    · refine (FsM.bind_eq h1 _).trans ?_
      rw [if_neg hpn, FsM.bind_eq h2, if_neg hfn, FsM.bind_gets]
      exact congrFun (if_pos hfile) _
    · unfold deleteFailed
      rw [FsM.after_eq h1, if_neg hpn, FsM.after_eq h2, if_neg hfn]
      exact if_pos hfile
  obtain ⟨fs3, h3⟩ := readDirBlock_faults
    (((freeInode f (s.withFaults fs2)).inodeTable p).blocks 0) (freeInode f (s.withFaults fs2))
  refine .inr ⟨p, f, fs2, fs3, hp.resolve_left hpn, hf.resolve_left hfn, hfile, ?_, ?_⟩
  · unfold deleteFailed
    rw [FsM.after_eq h1, if_neg hpn, FsM.after_eq h2, if_neg hfn]
    exact if_neg (not_not.mpr hfile)
  · rintro s1 b rfl rfl
    refine (FsM.bind_eq h1 _).trans ?_
    rw [if_neg hpn, FsM.bind_eq h2, if_neg hfn, FsM.bind_gets]
    refine (congrFun (if_neg (not_not.mpr hfile)) _).trans ?_
    rw [FsM.bind_modify, FsM.bind_gets]
    exact (FsM.bind_eq h3 _).trans rfl

/-- The parent of a path that leads to a file holds the file's entry. -/
theorem parent_slot {s : FsState} (hroot : s.IsDir s.superblock.rootInode) {path : List UInt8}
    {p f : UInt32} (hfile : s.IsFile f) (hp : s.resolve (comps (splitPath path).1) = some p)
    (hf : s.resolve (comps path) = some f) :
    ∃ c j, s.UsableDir p ∧ s.slots p j = some (c, f) := by
  rcases comps_cases path with hnil | ⟨ds, c, hcs⟩
  · rw [hnil, resolve_nil] at hf
    cases hf
    exact absurd hroot hfile.not_isDir
  · rw [splitPath_concat hcs, comps_parent hcs] at hp
    rw [hcs, resolve_concat, hp] at hf
    obtain ⟨-, hu, hfind⟩ := Inv.lookup_some hf
    obtain ⟨j, hj⟩ := exists_slot_of_find hfind
    exact ⟨c, j, hu, hj⟩

theorem isDir_fsDeleteFile {s : FsState} (hR : Robust s) (path : List UInt8) {p : UInt32}
    (hp : s.IsDir p) : (fsDeleteFile path s).2.IsDir p := by
  rcases fsDeleteFile_lossy path s with
    ⟨r, fs, hrun, -⟩ | ⟨q, f, fs, fs', -, hf, htype, -, hrun⟩
  · rw [hrun]
    exact hp
  have hfile : (s.withFaults fs).IsFile f := ⟨(hR.resolve_live hf).1, htype⟩
  have F := freeInode_freed (hR.withFaults fs).blocks hfile
  rw [hrun _ _ rfl rfl]
  unfold FsState.IsDir
  rw [syncBlockBitmap_inodeTable, syncInodeTable_inodeTable, FsState.rewrite,
    writeInodeBlock_inodeTable]
  exact F.isDir_iff.mpr hp

/-! ## Entries within a call -/

section Call

variable (σ : FsState) (own : UInt32 → Prop)

/-- An entry of `σ` that leads to `e` and is not the call's own. -/
def OtherEntry (d : UInt32) (j : Fin 15) (e : UInt32) : Prop :=
  σ.UsableDir d ∧ ¬ own e ∧ ∃ c, σ.slots d j = some (c, e)

def HoldsOther (block : UInt32) : Prop :=
  ∃ d j e, OtherEntry σ own d j e ∧ (σ.inodeTable d).blocks 0 = block

/-- Within a call that started in `σ`, the inodes of all entries but its own stay. -/
structure During (s : FsState) : Prop where
  robust : Robust s
  table : ∀ i, σ.Live i → ¬ own i → s.inodeTable i = σ.inodeTable i

def Intact (s : FsState) : Prop :=
  ∀ d j e, OtherEntry σ own d j e → s.dirBlock d j = σ.dirBlock d j

def Lost (s : FsState) : Prop :=
  ∃ d j e, OtherEntry σ own d j e ∧ ∀ c, s.slots d j ≠ some (c, e)

/-- What a part of the call does that fails to read the blocks `failed` before it writes them. -/
structure Outcome (failed : List UInt32) (s s' : FsState) : Prop where
  during : During σ own s'
  intact : (∀ b ∈ failed, ¬ HoldsOther σ own b) → Intact σ own s → Intact σ own s'
  lost : (∃ b ∈ failed, HoldsOther σ own b) ∨ Lost σ own s → Lost σ own s'

end Call

section Steps

variable {σ : FsState} {own : UInt32 → Prop} {s s' : FsState}

theorem Intact.not_lost (h : Intact σ own s) : ¬ Lost σ own s := by
  rintro ⟨d, j, e, hE, hnot⟩
  obtain ⟨c, hc⟩ := hE.2.2
  exact hnot c ((slotsOf_congr (h d j e hE)).trans hc)

theorem Outcome.trans {failed failed' : List UInt32} {s1 : FsState}
    (h : Outcome σ own failed s s1) (h' : Outcome σ own failed' s1 s') :
    Outcome σ own (failed ++ failed') s s' where
  during := h'.during
  intact hnot hs := h'.intact (fun b hb => hnot b (List.mem_append_right _ hb))
    (h.intact (fun b hb => hnot b (List.mem_append_left _ hb)) hs)
  lost := by
    rintro (⟨b, hb, hholds⟩ | hs)
    · rcases List.mem_append.mp hb with hb | hb
      · exact h'.lost (.inr (h.lost (.inl ⟨b, hb, hholds⟩)))
      · exact h'.lost (.inl ⟨b, hb, hholds⟩)
    · exact h'.lost (.inr (h.lost (.inr hs)))

theorem Outcome.andThen {α : Type} {failed : List UInt32} {x : FsM α}
    {failed' : α → FsState → List UInt32} {rest : α → FsM Int} (O : Outcome σ own failed s (x s).2)
    (h : ∀ r s1, x s = (r, s1) → During σ own s1 →
      Outcome σ own (failed' r s1) s1 (rest r s1).2) :
    Outcome σ own (failed ++ x.after failed' s) s ((x >>= rest) s).2 :=
  O.trans (h _ _ rfl O.during)

theorem Intact.congr (hs : Intact σ own s) (h : ∀ d, σ.UsableDir d → s'.dirBlock d = s.dirBlock d) :
    Intact σ own s' := fun d j e hE => by
  rw [h d hE.1]
  exact hs d j e hE

theorem Lost.congr (hs : Lost σ own s) (h : ∀ d, σ.UsableDir d → s'.dirBlock d = s.dirBlock d) :
    Lost σ own s' := by
  obtain ⟨d, j, e, hE, hnot⟩ := hs
  exact ⟨d, j, e, hE, fun c hc => hnot c (by rwa [FsState.slots, h d hE.1] at hc)⟩

/-- Where the directories of `σ` keep their blocks, no entry is touched. -/
theorem Outcome.of_dirBlock (D : During σ own s')
    (h : ∀ d, σ.UsableDir d → s'.dirBlock d = s.dirBlock d) : Outcome σ own [] s s' where
  during := D
  intact _ hs := hs.congr h
  lost := by
    rintro (⟨b, hb, -⟩ | hs)
    · cases hb
    · exact hs.congr h

section Dirs

variable (hown : ∀ e, own e → σ.IsFile e)
include hown

theorem dir_kept (htable : ∀ i, σ.Live i → ¬ own i → s.inodeTable i = σ.inodeTable i) {d : UInt32}
    (hd : σ.IsDir d) : s.inodeTable d = σ.inodeTable d :=
  htable d hd.live fun h => (hown d h).not_isDir hd

theorem usable_kept (htable : ∀ i, σ.Live i → ¬ own i → s.inodeTable i = σ.inodeTable i)
    {d : UInt32} (hd : σ.UsableDir d) : s.UsableDir d := by
  unfold FsState.UsableDir
  rw [dir_kept hown htable hd.isDir]
  exact hd

/-- **A directory is read and written back.** -/
theorem Outcome.rewritten {b : UInt32} {i : Fin 15} {x : DirEntry}
    (htable : ∀ i, σ.Live i → ¬ own i → s.inodeTable i = σ.inodeTable i) (D : During σ own s')
    (W : Rewritten s s' b i x)
    (hx : x.inUse = 1 → ∀ d j, ¬ OtherEntry σ own d j x.inode)
    (hi : ¬ s.ReadFails → ∀ d e, OtherEntry σ own d i e → (σ.inodeTable d).blocks 0 = b →
      s.dirBlock d i ≠ σ.dirBlock d i) :
    Outcome σ own (failedUpdate s b) s s' where
  during := D
  intact hnot hs d j e hE := by
    obtain ⟨hd, hne, c, hc⟩ := hE
    have hd' := usable_kept hown htable hd
    have hinode := dir_kept hown htable hd.isDir
    have hj := hs d j e ⟨hd, hne, c, hc⟩
    refine (W.dirBlock_kept hd' (hj ▸ (slotsOf_eq_some.mp hc).1) fun hb => ?_).trans hj
    rw [hinode] at hb
    have hread : ¬ s.ReadFails := fun hf => by
      refine hnot b ?_ ⟨d, j, e, ⟨hd, hne, c, hc⟩, hb⟩
      rw [failedUpdate, if_pos ⟨hb ▸ hd.2.2, hf⟩]
      exact List.mem_singleton_self b
    refine ⟨hread, ?_⟩
    rintro rfl
    exact hi hread d e ⟨hd, hne, c, hc⟩ hb hj
  lost := by
    have hslot : ∀ d j e, OtherEntry σ own d j e → ∀ c, s'.slots d j = some (c, e) →
        s.slots d j = some (c, e) ∧ ((σ.inodeTable d).blocks 0 = b → ¬ s.ReadFails) := by
      intro d j e hE c hc
      rcases W.slot_cases (usable_kept hown htable hE.1) hc with ⟨-, -, hu, rfl⟩ | ⟨hold, hread⟩
      · exact absurd hE (hx hu d j)
      · rw [dir_kept hown htable hE.1.isDir] at hread
        exact ⟨hold, fun hb => (hread hb).1⟩
    rintro (⟨b', hb', d, j, e, hE, hb⟩ | ⟨d, j, e, hE, hnot⟩)
    · unfold failedUpdate at hb'
      split at hb'
      · next hfails =>
        rw [List.mem_singleton.mp hb'] at hb
        exact ⟨d, j, e, hE, fun c hc => (hslot d j e hE c hc).2 hb hfails.2⟩
      · cases hb'
    · exact ⟨d, j, e, hE, fun c hc => hnot c (hslot d j e hE c hc).1⟩

end Dirs

/-! ## The parts of a call -/

namespace During

variable (D : During σ own s)

include D in
theorem reads (fs : List Bool) : Outcome σ own [] s (s.withFaults fs) :=
  .of_dirBlock ⟨D.robust.withFaults fs, D.table⟩ fun _ _ => rfl

variable (hσ : Robust σ) (hown : ∀ e, own e → σ.IsFile e)
include D

theorem live {i : UInt32} (hi : σ.Live i) (hne : ¬ own i) : s.Live i := by
  unfold FsState.Live
  rw [D.table i hi hne]
  exact hi

include hown in
theorem usable {d : UInt32} (hd : σ.UsableDir d) : s.UsableDir d := usable_kept hown D.table hd

include hown in
theorem same (h : Same s s') : Outcome σ own [] s s' :=
  .of_dirBlock ⟨D.robust.same h, fun i hi hne =>
    (h.agree.inode (D.live hi hne)).trans (D.table i hi hne)⟩ fun _ hd =>
    h.agree.dirBlock D.robust.blocks (D.usable hown hd)

section Creation

variable {h : FsState} {n p : UInt32} {v : Inode} {bs : List UInt32} (H : Holding s h n v bs)
  (hR : Robust h)
include H hR

include hown in
theorem taken : Outcome σ own [] s h := by
  refine .of_dirBlock ⟨hR, fun i hi hne => ?_⟩ fun d hd =>
    H.dirBlock_old D.robust.blocks (D.usable hown hd)
  exact (H.inode_live (D.live hi hne)).trans (D.table i hi hne)

include hσ hown in
theorem entered {i : Fin 15} {x : DirEntry} (hv : v.type ≠ inodeTypeFree)
    (W : Rewritten h s' ((s.inodeTable p).blocks 0) i x) (hx : x.inode = n)
    (hfree : (h.dirRead ((s.inodeTable p).blocks 0) i).inUse ≠ 1) :
    Outcome σ own (failedUpdate s ((s.inodeTable p).blocks 0)) s s' := by
  have O := D.taken hown H hR
  subst hx
  have hlive : h.Live x.inode := (H.live_iff hv).mpr (.inl rfl)
  have hR' : Robust s' := hR.entered W hlive fun hf d j c hd hj => by
    rcases H.usable_iff.mp hd with ⟨rfl, -⟩ | hds
    · exact hf.not_isDir hd.isDir
    · rw [FsState.slots, H.dirBlock_old D.robust.blocks hds] at hj
      exact H.not_live (D.robust.live d j c _ hds hj)
  rw [← failedUpdate_congr H.faults]
  refine O.trans (.rewritten hown O.during.table ⟨hR', fun i hi hne => ?_⟩ W (fun _ d j hE => ?_)
    fun hread d e hE hb hkept => hfree ?_)
  · rw [W.table]
    exact O.during.table i hi hne
  · obtain ⟨hd, hne, c, hc⟩ := hE
    exact H.not_live (D.live (hσ.live d j c _ hd hc) hne)
  · obtain ⟨hd, -, c, hc⟩ := hE
    have hinode := dir_kept hown O.during.table hd.isDir
    rw [h.dirRead_eq (O.during.usable hown hd) (hinode ▸ hb) hread, hkept]
    exact (slotsOf_eq_some.mp hc).1

end Creation

include hσ hown

theorem makeDir {p : UInt32} (hp : s.Live p) (name : List UInt8) :
    Outcome σ own (makeDirFailed p s) s (makeDir p name s).2 := by
  rcases makeDir_holding D.robust.blocks.clean D.robust.blocks.block0 p name with
    ⟨s', hrun, hsame, hwhy⟩ | ⟨hdir, h, n, b, H, hnew, hrun⟩
  · have hfailed : makeDirFailed p s = [] := if_neg fun hc =>
      hwhy.elim (fun hw => hw hc.1) fun hw => hc.2.2 hw
    rw [hrun, hfailed]
    exact D.same hown hsame
  have hroom : ¬ NoRoom s 1 := H.room (le_refl _)
  have hfailed : makeDirFailed p s = failedUpdate s ((s.inodeTable p).blocks 0) := by
    unfold makeDirFailed failedUpdate
    simp only [hdir, hroom, true_and, not_false_eq_true, and_true]
  obtain ⟨t, i, x, hl, W, -, hx, hfree⟩ := linkEntry_rewrites h p name n
  rw [hrun t hl, hfailed]
  rw [H.inode_live hp] at W hfree
  refine D.entered hσ hown H (D.robust.taken H (.inr ⟨rfl, fun j c e he => ?_⟩))
    (show inodeTypeDir ≠ inodeTypeFree by decide) W.sync hx hfree
  rw [show (dirInode p b).blocks 0 = b from rfl, hnew, slots_newDirBlock] at he
  refine (dotSlots_leads he).imp_right fun hep => ?_
  rw [hep]
  exact ⟨hp.1, hdir⟩

theorem makeFile {p : UInt32} (hp : s.Live p) (name : List UInt8) (data : Memory) {size : UInt32}
    (hsize : size ≤ fsMaxFileSize) :
    Outcome σ own (makeFileFailed p size s) s (makeFile p name data size s).2 := by
  rcases makeFile_holding D.robust.blocks.clean D.robust.blocks.block0 p name data hsize with
    ⟨s', hrun, hsame, hwhy⟩ | ⟨h, n, bs, H, hlen, -, hrun⟩
  · have hfailed : makeFileFailed p size s = [] := if_neg fun hc => hc.2 hwhy
    rw [hrun, hfailed]
    exact D.same hown hsame
  have hroom : ¬ NoRoom s (blocksNeeded size).toNat := H.room hlen.ge
  have hfailed : makeFileFailed p size s = failedUpdate s ((s.inodeTable p).blocks 0) := by
    unfold makeFileFailed failedUpdate
    simp only [hroom, not_false_eq_true, and_true]
  obtain ⟨t, i, x, hl, W, -, hx, hfree⟩ := linkEntry_rewrites h p name n
  rw [hrun t hl, hfailed]
  rw [H.inode_live hp] at W hfree
  exact D.entered hσ hown H (D.robust.taken H (.inl rfl))
    (show inodeTypeFile ≠ inodeTypeFree by decide) W.sync.syncSuperblock hx hfree

theorem delete {path : List UInt8}
    (hpath : ∀ f, s.resolve (comps path) = some f → σ.IsFile f → own f) :
    Outcome σ own (deleteFailed path s) s (fsDeleteFile path s).2 := by
  rcases fsDeleteFile_lossy path s with
    ⟨r, fs, hrun, hfailed⟩ | ⟨p, f, fs, fs', hp, hf, htype, hfailed, hrun⟩
  · rw [hrun, hfailed]
    exact D.reads fs
  have hfile : s.IsFile f := ⟨(D.robust.resolve_live hf).1, htype⟩
  obtain ⟨c, j, hu, hj⟩ := parent_slot D.robust.root hfile hp hf
  have hB := (D.robust.withFaults fs).blocks
  obtain ⟨-, htable, hbits⟩ := freeInode_freed hB (show (s.withFaults fs).IsFile f from hfile)
  obtain ⟨hdisk, hroot⟩ := freeInode_rest hB (show (s.withFaults fs).IsFile f from hfile)
  generalize freeInode f (s.withFaults fs) = s1 at htable hbits hdisk hroot hrun
  have F : Freed s s1 f := ⟨hfile, htable, hbits⟩
  have hdata : s1.data = s.data := by
    unfold FsState.data
    rw [hdisk]
    rfl
  have hpf : s1.inodeTable p = s.inodeTable p := F.inode_ne (F.ne_of_isDir hu.isDir)
  generalize hb : (s.inodeTable p).blocks 0 = b at hfailed
  replace hrun := hrun s1 b rfl (by rw [hpf, hb])
  obtain ⟨i, x, hremove, hx, hfirst⟩ := removeEntry_cases (s1.dirRead b) f (dirRead_last s1 b)
  have W := (s1.rewritten fs' b i x).sync
  rw [← hremove] at W
  rw [hrun, hfailed]
  -- the slot emptied is the file's
  have hij : ¬ s1.ReadFails → i = j := fun hread => by
    rw [s1.dirRead_eq (F.usable_iff.mpr hu) (by rw [hpf, hb]) hread, F.dirBlock hdata hu] at hfirst
    obtain ⟨hju, -, hji⟩ := slotsOf_eq_some.mp hj
    rcases hfirst with ⟨hi, hif⟩ | hnone
    · exact (D.robust.unique p p i j _ c f hu hu hfile (slotsOf_eq_some.mpr ⟨hi, rfl, hif⟩) hj).2
    · exact absurd hji (hnone j hju)
  have hother : ∀ k, σ.Live k → ¬ own k → k ≠ f := by
    rintro k hk hne rfl
    exact hne (hpath k hf ⟨hk.1, D.table k hk hne ▸ htype⟩)
  have hkept : ∀ k, σ.Live k → ¬ own k → s1.inodeTable k = σ.inodeTable k := fun k hk hne =>
    (F.inode_ne (hother k hk hne)).trans (D.table k hk hne)
  have hsame : ∀ d, σ.UsableDir d → s1.dirBlock d = s.dirBlock d := fun d hd =>
    F.dirBlock hdata (D.usable hown hd)
  have hR := D.robust.removed F hroot hdata W hx hu hb hj hij
  have O : Outcome σ own (failedUpdate s1 b) s1 _ := .rewritten hown hkept
    ⟨hR, fun k hk hne => (congrFun W.table k).trans (hkept k hk hne)⟩ W (fun h => absurd h hx)
    fun hread d e hE hdb hdi => ?_
  · have hfaults : s1.disk.faults = (s.withFaults fs).disk.faults := by rw [hdisk]
    rw [failedUpdate_congr hfaults] at O
    exact ⟨O.during, fun hnot hs => O.intact hnot (hs.congr hsame),
      fun h => O.lost (h.imp_right (·.congr hsame))⟩
  · obtain ⟨hd, hne, c', hc'⟩ := hE
    have hef := hother e (hσ.live d i c' e hd hc') hne
    have hds := D.usable hown hd
    have hdb' : (s.inodeTable d).blocks 0 = b := by
      rw [dir_kept hown D.table hd.isDir]
      exact hdb
    obtain ⟨rfl, -⟩ := D.robust.blocks.block_inj hds.isDir.live hu.isDir.live hds.2.2.1
      (hdb'.trans hb.symm)
    rw [hsame d hd, hij hread] at hdi
    rw [hij hread, FsState.slots, ← slotsOf_congr hdi] at hc'
    exact hef (congrArg Prod.snd (Option.some.inj (hc'.symm.trans hj)))

omit hσ hown in
theorem done : Outcome σ own [] s s := D.reads s.disk.faults

omit hσ hown in
/-- A lookup, and the rest of the call on what it found. -/
theorem lookup {path : List UInt8} {failed : UInt32 → FsState → List UInt32}
    {rest : UInt32 → FsM Int}
    (h : ∀ r s1, findInodeByPath path s = (r, s1) → During σ own s1 →
      (r = noNumber ∨ s1.resolve (comps path) = some r) → s1.resolve = s.resolve →
      Outcome σ own (failed r s1) s1 (rest r s1).2) :
    Outcome σ own ((findInodeByPath path).after failed s) s ((findInodeByPath path >>= rest) s).2 := by
  obtain ⟨r, fs, hrun, hr⟩ := findInodeByPath_lossy path s
  rw [FsM.bind_eq hrun, FsM.after_eq hrun]
  exact (D.reads fs).trans (h r _ hrun (D.reads fs).during hr rfl)

omit D in
/-- `fs_create_dir`, by induction on the depth of its recursion. -/
theorem createDirDepth : ∀ (depth : Nat) (path : List UInt8) {s : FsState}, During σ own s →
    Outcome σ own (createDirFailed depth path s) s (createDirDepth depth path s).2
  | 0, _, s, D => D.done
  | depth + 1, path, s, D => by
    show Outcome σ own _ s (createDirStep (EphemeralOS.createDirDepth depth) path s).2
    rw [createDirFailed]
    unfold createDirStep
    generalize splitPath path = parent
    obtain ⟨parentPath, dirName⟩ := parent
    simp only
    by_cases hname : dirName.length = 0 ∨ dirName.length ≥ fsMaxFilename
    · rw [if_pos hname, if_pos hname]
      exact D.done
    rw [if_neg hname, if_neg hname]
    refine D.lookup fun e s1 _ D _ _ => ?_
    by_cases he : e ≠ noNumber
    · rw [if_pos he, if_pos he]
      exact D.done
    rw [if_neg he, if_neg he]
    refine D.lookup fun p s2 _ D hp _ => ?_
    by_cases hpn : p = noNumber
    case neg =>
      rw [if_neg hpn, if_neg hpn]
      exact D.makeDir hσ hown (D.robust.resolve_live (hp.resolve_left hpn)) dirName
    rw [if_pos hpn, if_pos hpn]
    by_cases hroot : parentPath ≠ [slash]
    case neg =>
      rw [if_neg hroot, if_neg hroot]
      exact D.done
    rw [if_pos hroot, if_pos hroot]
    refine (createDirDepth depth parentPath D).andThen fun r s3 _ D => ?_
    by_cases hr : r ≠ 0
    · rw [if_pos hr, if_pos hr]
      exact D.done
    rw [if_neg hr, if_neg hr]
    refine D.lookup fun q s4 _ D hq _ => ?_
    by_cases hqn : q = noNumber
    · rw [if_pos hqn, if_pos hqn]
      exact D.done
    · rw [if_neg hqn, if_neg hqn]
      exact D.makeDir hσ hown (D.robust.resolve_live (hq.resolve_left hqn)) dirName

omit D in
theorem replaceFile (D : During σ own s) {path : List UInt8} {p : UInt32} (hp : s.Live p)
    (name : List UInt8) (data : Memory) {size : UInt32} (hsize : size ≤ fsMaxFileSize)
    (hpath : ∀ f, s.resolve (comps path) = some f → σ.IsFile f → own f) :
    Outcome σ own (replaceFailed path p size s) s (replaceFile path p name data size s).2 := by
  unfold replaceFailed EphemeralOS.replaceFile
  rw [FsM.bind_gets]
  by_cases hdir : (s.inodeTable p).type = inodeTypeDir
  case neg =>
    rw [if_pos hdir, if_pos hdir]
    exact D.done
  rw [if_neg (not_not.mpr hdir), if_neg (not_not.mpr hdir)]
  refine D.lookup fun e s1 hrun D _ hres => ?_
  have hp1 : s1.IsDir p := by
    obtain ⟨r, fs, hrun', -⟩ := findInodeByPath_lossy path s
    cases hrun.symm.trans hrun'
    exact ⟨hp.1, hdir⟩
  by_cases he : e ≠ noNumber
  · rw [if_pos he, if_pos he]
    refine (D.delete hσ hown fun f hf => hpath f (hres ▸ hf)).andThen fun r s2 hrun D2 => ?_
    have hp2 := isDir_fsDeleteFile D.robust path hp1
    rw [hrun] at hp2
    exact D2.makeFile hσ hown hp2.live name data hsize
  · rw [if_neg he, if_neg he]
    exact D.makeFile hσ hown hp1.live name data hsize

omit D in
/-- `fs_create_file`: missing parents first, then what its path leads to now is its own. -/
theorem createFile (D : During σ own s) (path : List UInt8) (data : Memory) (size : UInt32)
    (hpath : ∀ f, ((findInodeByPath (splitPath path).1).after (fun parentInode s =>
      if parentInode = noNumber then (fsCreateDir (splitPath path).1 s).2 else s) s).resolve
        (comps path) = some f → σ.IsFile f → own f) :
    Outcome σ own (createFileFailed path size s) s (fsCreateFile path data size s).2 := by
  unfold createFileFailed fsCreateFile
  by_cases hsize : size > fsMaxFileSize
  · rw [if_pos hsize, if_pos hsize]
    exact D.done
  rw [if_neg hsize, if_neg hsize]
  replace hsize := UInt32.not_lt.mp hsize
  generalize splitPath path = parent at hpath ⊢
  obtain ⟨parentPath, fileName⟩ := parent
  simp only at hpath ⊢
  by_cases hname : fileName.length = 0 ∨ fileName.length ≥ fsMaxFilename
  · rw [if_pos hname, if_pos hname]
    exact D.done
  rw [if_neg hname, if_neg hname]
  refine D.lookup fun p s1 hrun D hp _ => ?_
  rw [FsM.after_eq hrun] at hpath
  by_cases hpn : p = noNumber
  case neg =>
    rw [if_neg hpn] at hpath
    rw [if_neg hpn, if_neg hpn]
    exact D.replaceFile hσ hown (D.robust.resolve_live (hp.resolve_left hpn)) fileName data hsize
      hpath
  rw [if_pos hpn] at hpath
  rw [if_pos hpn, if_pos hpn]
  refine (createDirDepth hσ hown (parentPath.length + 1) parentPath D).andThen fun r s2 hrun D => ?_
  have hmade : (fsCreateDir parentPath s1).2 = s2 := congrArg Prod.snd hrun
  rw [hmade] at hpath
  by_cases hr : r ≠ 0
  · rw [if_pos hr, if_pos hr]
    exact D.done
  rw [if_neg hr, if_neg hr]
  refine D.lookup fun q s3 _ D hq hres => ?_
  by_cases hqn : q = noNumber
  · rw [if_pos hqn, if_pos hqn]
    exact D.done
  · rw [if_neg hqn, if_neg hqn]
    exact D.replaceFile hσ hown (D.robust.resolve_live (hq.resolve_left hqn)) fileName data hsize
      fun f hf => hpath f (hres ▸ hf)

end During

end Steps

/-! ## Calls and runs -/

/-- **A call on a robust state.** -/
theorem FsOp.outcome {s : FsState} (hR : Robust s) (op : FsOp) :
    Outcome s (op.own s) (op.failedUpdates s) s (op.step s) := by
  have D : During s (op.own s) s := ⟨hR, fun _ _ _ => rfl⟩
  have hown : ∀ e, op.own s e → s.IsFile e := fun e he => he.1
  cases op with
  | createDir path => exact During.createDirDepth hR hown _ _ D
  | createFile path data size => exact D.createFile hR hown _ _ _ fun f hf hfile => ⟨hfile, hf⟩
  | deleteFile path => exact D.delete hR hown fun f hf hfile => ⟨hfile, hf⟩

/-- The states reached from an installation by calls during which any reads may fail. -/
abbrev FaultyReachable : FsState → Prop :=
  Reached Installed (fun (call : FsOp × List Bool) s => call.1.step (s.withFaults call.2))
    fun _ _ => True

/-- **Read failures do not break the tables.** -/
theorem FaultyReachable.robust {s : FsState} (h : FaultyReachable s) : Robust s :=
  h.invariant (fun _ h => h.sound.1.inv.robust) fun _ call h _ =>
    (call.1.outcome (h.withFaults call.2)).during.robust

theorem Reachable.faulty {s : FsState} (h : Reachable s) : FaultyReachable s := by
  induction h with
  | start h => exact .start h
  | @next s op h _ ih =>
    have hstep : FaultyReachable (op.step (s.withFaults [])) := .next (e := (op, [])) ih trivial
    rwa [s.withFaults_self (Reachable.sound h).inv.perfect] at hstep

/-- **A call keeps all entries but its own just when every directory block that it writes back
unread held no other.** -/
theorem entries_kept_iff {s : FsState} (h : FaultyReachable s) (op : FsOp) (fs : List Bool) :
    op.KeepsEntries (s.withFaults fs) ↔
      ∀ b ∈ op.failedUpdates (s.withFaults fs),
        ¬ HoldsOther (s.withFaults fs) (op.own (s.withFaults fs)) b := by
  have hR := h.robust.withFaults fs
  generalize s.withFaults fs = s at hR
  have O := op.outcome hR
  constructor
  · intro hkeep b hb hholds
    refine Intact.not_lost (fun d j e hE => ?_) (O.lost (.inl ⟨b, hb, hholds⟩))
    obtain ⟨hd, hne, c, hc⟩ := hE
    obtain ⟨hu, -, rfl⟩ := slotsOf_eq_some.mp hc
    exact (hkeep d j hd.isDir hu hne).2
  · intro hnot d j hd hu hne
    have hslot : s.slots d j = some ((s.dirBlock d j).name.cstr, (s.dirBlock d j).inode) :=
      slotsOf_eq_some.mpr ⟨hu, rfl, rfl⟩
    have hv : ValidBlock ((s.inodeTable d).blocks 0) := by
      by_contra hv
      rw [FsState.slots, FsState.dirBlock] at hslot
      simp only [hv, if_false, slots_zero] at hslot
      cases hslot
    exact ⟨dir_kept (fun e he => he.1) O.during.table hd,
      O.intact hnot (fun _ _ _ _ => rfl) d j _ ⟨⟨hd.1, hd.2, hv⟩, hne, _, hslot⟩⟩

/-- `fs_create_dir("/a")`, whose lookup loses its read and whose update does not. -/
theorem failed_lookup_harmless :
    (FsOp.createDir samplePath).KeepsEntries (sampleInstall.withFaults [true]) := by
  have hnone :
      (FsOp.createDir samplePath).failedUpdates (sampleInstall.withFaults [true]) = [] := by
    decide +kernel
  refine (entries_kept_iff (.start sampleInstall_installed) _ _).mpr fun b hb => ?_
  rw [hnone] at hb
  cases hb

theorem FsOp.not_keepsEntries {op : FsOp} {s : FsState} {fs : List Bool} {d e : UInt32} {j : Fin 15}
    {c : List UInt8} (hd : s.IsDir d) (he : s.IsDir e) (hslot : s.slots d j = some (c, e))
    (hgone : ((op.step (s.withFaults fs)).dirBlock d j).inUse ≠ 1) :
    ¬ op.KeepsEntries (s.withFaults fs) := by
  intro hkeep
  obtain ⟨hu, -, rfl⟩ := slotsOf_eq_some.mp hslot
  have hkept := (hkeep d j hd hu fun hown => hown.1.not_isDir he).2
  rw [hkept] at hgone
  exact hgone hu

/-- The lookup succeeds and the update loses its read: the entry `..` of the root is gone. -/
theorem failed_update_empties_root : Reachable sampleInstall ∧
    ¬ (FsOp.createDir samplePath).KeepsEntries (sampleInstall.withFaults [false, true]) := by
  have hroot : sampleInstall.IsDir 0 := sampleInstall_inv.shape.rootDir.1
  have hslot : sampleInstall.slots 0 1 = some (ascii "..", 0) := sampleInstall_slots 1
  exact ⟨sampleInstall_reachable, FsOp.not_keepsEntries hroot hroot hslot (by decide +kernel)⟩

end EphemeralOS
