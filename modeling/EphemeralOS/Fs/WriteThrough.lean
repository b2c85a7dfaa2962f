import EphemeralOS.Fs.Names
import EphemeralOS.Fs.Reboot

/-!
# The superblock on the disk

Only `fs_create_file` writes the superblock back, and only when it succeeds, so
a directory made or a file deleted leaves stale counters on the disk. The calls
that do neither, or go on to write a file (`FsOp.settled`), keep the stored
superblock up to date (`superblock_written_through`).
-/

namespace EphemeralOS

open Directory Run

/-- `ds` leads to `p`, where `m` is missing. -/
structure Missing (s : FsState) (ds : List (List UInt8)) (m : List UInt8) (ms : List (List UInt8))
    (p : UInt32) : Prop where
  there : s.resolve ds = some p
  missing : s.resolve (ds ++ [m]) = none
  short : ∀ c ∈ m :: ms, c.length < fsMaxFilename

theorem Missing.resolve {s : FsState} {ds : List (List UInt8)} {m : List UInt8}
    {ms : List (List UInt8)} {p : UInt32} (h : Missing s ds m ms p) :
    s.resolve (ds ++ m :: ms) = none := by
  rw [List.append_cons, resolve_append, h.missing]
  rfl

/-- `fs_create_dir` makes at least one directory on the way to `cs`. -/
def Creates (s : FsState) (cs : List (List UInt8)) : Prop :=
  ∃ ds m ms p, cs = ds ++ m :: ms ∧ Missing s ds m ms p ∧ s.IsDir p ∧ ¬ NoRoom s 1

theorem Creates.concat {s : FsState} {ds : List (List UInt8)} {c : List UInt8}
    (hc : c.length < fsMaxFilename) (h : Creates s ds) : Creates s (ds ++ [c]) := by
  obtain ⟨as, m, ms, p, rfl, hm, hp⟩ := h
  refine ⟨as, m, ms ++ [c], p, by simp, ⟨hm.there, hm.missing, fun d hd => ?_⟩, hp⟩
  rw [← List.cons_append, List.mem_append, List.mem_singleton] at hd
  rcases hd with hd | rfl
  · exact hm.short d hd
  · exact hc

theorem Same.trans {s t u : FsState} (h : Same s t) (h' : Same t u) : Same s u where
  superblock := h'.superblock.trans h.superblock
  table i := (h'.table i).trans (h.table i)
  bits b := (h'.bits b).trans (h.bits b)
  data b hb := (h'.data b ((h.bits b).trans hb)).trans (h.data b hb)
  low x hx := (h'.low x hx).trans (h.low x hx)
  faults := h'.faults.trans h.faults

/-- **Where no directory can be made nothing changes.** -/
theorem Mkdirs.same {s s' : FsState} {cs : List (List UInt8)} {q : Option UInt32} (hI : Inv s)
    (M : Mkdirs s cs q s') (hno : ¬ Creates s cs) : Same s s' := by
  induction M with
  | found | rejected => exact Same.refl s
  | orphaned _ _ hname _ ih => exact ih fun h => hno (h.concat hname.short)
  | refused _ hname _ hsame _ ih => exact (ih fun h => hno (h.concat hname.short)).trans hsame
  | @made ds c p n b i s1 s2 hnone hname M hp hmade ih =>
    have hs1 := ih fun h => hno (h.concat hname.short)
    cases hds : s.resolve ds with
    | none =>
      have := M.resolve
      rw [hs1.agree.resolve hI, hds] at this
      cases this
    | some p' =>
      obtain ⟨hpp, rfl⟩ := M.of_resolve hds
      cases hpp
      exact absurd ⟨ds, c, [], p, rfl, ⟨hds, hnone, fun d hd => List.mem_singleton.mp hd ▸ hname.short⟩,
        hp, hmade.room⟩ hno

/-! ## Missing parents that are made -/

/-- What `fs_create_dir` makes of the missing components `m :: ms` below `as`. -/
structure AllMade (s s' : FsState) (k : Nat) (q : Option UInt32) : Prop where
  found : ∃ n parent, q = some n ∧ s'.UsableDir n ∧ s'.slots n = dotSlots n parent
  blocks : s'.clearBlocks.card + k = s.clearBlocks.card
  inodes : s'.freeNumbers.card + k = s.freeNumbers.card

theorem AllMade.exists_slot {s s' : FsState} {k : Nat} {q : Option UInt32} (A : AllMade s s' k q)
    {p : UInt32} (hq : q = some p) : s'.UsableDir p ∧ ∃ j, j ≠ 14 ∧ s'.slots p j = none := by
  obtain ⟨n, parent, hn, hu, hslots⟩ := A.found
  cases hn.symm.trans hq
  exact ⟨hu, 2, by decide, by rw [hslots]; rfl⟩

theorem AllMade.made {s s1 s2 : FsState} {k : Nat} {ds : List (List UInt8)} {c : List UInt8}
    {p n b : UInt32} {i : Fin 15} (hI1 : Inv s1) (hp : s1.resolve ds = some p)
    (hu : s1.UsableDir p) (hslot : ∃ j, j ≠ 14 ∧ s1.slots p j = none) (hname : NameOk c)
    (hfree : s1.lookup p c = none) (M : MadeDir s1 s2 n p c b i)
    (hblocks : s1.clearBlocks.card + k = s.clearBlocks.card)
    (hinodes : s1.freeNumbers.card + k = s.freeNumbers.card) :
    AllMade s s2 (k + 1) (s2.resolve (ds ++ [c])) := by
  have L := M.isLinked hu.isDir hname
  obtain ⟨j, hj, hjn⟩ := hslot
  have hle := M.slot_le hjn
  have hi : i ≠ 14 := fun e => hj (by omega)
  have hb := L.card_clearBlocks
  have hn := L.card_freeNumbers
  rw [List.length_singleton] at hb
  exact ⟨⟨n, p, L.resolve_new hI1 hp hu hi hfree, L.usable_iff.mpr (.inl ⟨rfl, rfl⟩),
    L.slots_new rfl⟩, by omega, by omega⟩

/-- The parent of the last component: the directory that was there, or one just made. -/
theorem Missing.parent {s s1 : FsState} {as ds : List (List UInt8)} {m c : List UInt8}
    {ms : List (List UInt8)} {p : UInt32} {q : Option UInt32} (hm : Missing s as m ms p)
    (hu : s.UsableDir p) (hslot : ∃ j, j ≠ 14 ∧ s.slots p j = none)
    (hcs : ds ++ [c] = as ++ m :: ms) (M : Mkdirs s ds q s1)
    (ih : ∀ ms', ds = as ++ m :: ms' → Missing s as m ms' p → ms.length = ms'.length + 1 →
      AllMade s s1 (m :: ms').length q) :
    ∃ p', q = some p' ∧ s1.UsableDir p' ∧ (∃ j, j ≠ 14 ∧ s1.slots p' j = none) ∧
      s1.clearBlocks.card + ms.length = s.clearBlocks.card ∧
      s1.freeNumbers.card + ms.length = s.freeNumbers.card := by
  rcases List.eq_nil_or_concat ms with rfl | ⟨ms', c', rfl⟩
  · obtain ⟨rfl, -⟩ := List.append_inj' hcs rfl
    obtain ⟨rfl, rfl⟩ := M.of_resolve hm.there
    exact ⟨p, rfl, hu, hslot, Nat.add_zero _, Nat.add_zero _⟩
  · rw [List.concat_eq_append, ← List.cons_append, ← List.append_assoc] at hcs
    obtain ⟨hds, -⟩ := List.append_inj' hcs rfl
    have hm' : Missing s as m ms' p := ⟨hm.there, hm.missing, fun d hd =>
      hm.short d (by rw [List.concat_eq_append, ← List.cons_append]; exact List.mem_append_left _ hd)⟩
    have A := ih ms' hds hm' (by simp)
    obtain ⟨n, parent, hq, hn⟩ := A.found
    have hlen : (ms'.concat c').length = (m :: ms').length := by simp
    rw [hlen]
    exact ⟨n, hq, (A.exists_slot hq).1, (A.exists_slot hq).2, A.blocks, A.inodes⟩

/-- **All missing parents are made** when there is room for them and none is `.` or `..`. -/
theorem Mkdirs.allMade {s s' : FsState} {cs : List (List UInt8)} {q : Option UInt32} (hI : Inv s)
    (M : Mkdirs s cs q s') (hP : Plain s cs) {as : List (List UInt8)} {m : List UInt8} {p : UInt32}
    (hu : s.UsableDir p) (hslot : ∃ j, j ≠ 14 ∧ s.slots p j = none) (ms : List (List UInt8))
    (hcs : cs = as ++ m :: ms) (hm : Missing s as m ms p)
    (hinodes : (m :: ms).length ≤ s.freeNumbers.card)
    (hblocks : (m :: ms).length ≤ s.clearBlocks.card) :
    AllMade s s' (m :: ms).length q := by
  induction M generalizing ms with
  | found h =>
    rw [hcs, hm.resolve] at h
    cases h
  | @rejected ds c _ hlong =>
    have hmem : c ∈ m :: ms := by
      have := congrArg List.getLast? hcs
      rw [List.getLast?_append_cons] at this
      simp only [List.getLast?_append, List.getLast?_singleton] at this
      exact List.mem_of_getLast? this.symm
    exact absurd (hm.short c hmem) (Nat.not_lt.mpr hlong)
  | orphaned _ _ _ M ih =>
    rw [List.length_cons] at hinodes hblocks
    obtain ⟨p', hq, -⟩ := hm.parent hu hslot hcs M fun ms' hds hm' hlen =>
      ih hP.left ms' hds hm' (by rw [List.length_cons]; omega) (by rw [List.length_cons]; omega)
    cases hq
  | refused _ _ M hsame hwhy ih =>
    rw [List.length_cons] at hinodes hblocks
    obtain ⟨p', hq, hu', -, hb, hn⟩ := hm.parent hu hslot hcs M fun ms' hds hm' hlen =>
      ih hP.left ms' hds hm' (by rw [List.length_cons]; omega) (by rw [List.length_cons]; omega)
    cases hq
    rcases hwhy with hdir | hroom | hroom
    · exact absurd hu'.isDir hdir
    · rw [hroom, Finset.card_empty] at hn
      omega
    · omega
  | made hnone hname M _ hmade ih =>
    rw [List.length_cons] at hinodes hblocks ⊢
    obtain ⟨p', hq, hu', hslot', hb, hn⟩ := hm.parent hu hslot hcs M fun ms' hds hm' hlen =>
      ih hP.left ms' hds hm' (by rw [List.length_cons]; omega) (by rw [List.length_cons]; omega)
    cases hq
    exact AllMade.made (M.inv hI) M.resolve hu' hslot' hname (M.name_free hI hP hnone) hmade hb hn

/-! ## Calls that keep the stored superblock up to date -/

/-- There is room for the missing parents `m :: ms` of a file and for the file itself, and an entry
for the first of them. -/
def Fits (s : FsState) (ds : List (List UInt8)) (c : List UInt8) (size : UInt32) : Prop :=
  ∃ as m ms p, ds = as ++ m :: ms ∧ Missing s as m ms p ∧ s.UsableDir p ∧
    (∃ j, j ≠ 14 ∧ s.slots p j = none) ∧ (m :: ms).length < s.freeNumbers.card ∧
    (m :: ms).length + (blocksNeeded size).toNat ≤ s.clearBlocks.card ∧ Plain s (ds ++ [c])

/-- Entering `c` in the directory `ds` changes nothing, or ends with a file written. -/
def FileSettled (s : FsState) (ds : List (List UInt8)) (c : List UInt8) (size : UInt32) : Prop :=
  (∃ p, s.resolve ds = some p ∧ ∀ f, s.lookup p c = some f → s.IsFile f →
    (blocksNeeded size).toNat ≤ s.clearBlocks.card + (s.inodeTable f).pointers.length) ∨
  (s.resolve ds = none ∧ (¬ Creates s ds ∨ Fits s ds c size))

def FsOp.settled : FsOp → FsState → Prop
  | .createDir path, s => ¬ Creates s (comps path)
  | .deleteFile path, s => ¬ s.IsFile (findInodeByPath path s).1
  | .createFile path _ size, s => ∀ ds c, comps path = ds ++ [c] → size ≤ fsMaxFileSize →
      c.length < fsMaxFilename → FileSettled s ds c size

def WrittenThrough (s : FsState) : Prop := s.storedSuperblock = s.superblock

theorem Same.writtenThrough {s s' : FsState} (h : Same s s') (hw : WrittenThrough s) :
    WrittenThrough s' := by
  unfold WrittenThrough at hw ⊢
  rw [(stored_congr h.low).1, h.superblock, hw]

theorem Making.writtenThrough {s s' : FsState} {p : UInt32} {c : List UInt8} {data : Memory}
    {size : UInt32} {r : Int} (M : Making s p c data size r s')
    (hw : NoRoom s (blocksNeeded size).toNat → WrittenThrough s) : WrittenThrough s' := by
  cases M with
  | failed hsame hroom => exact hsame.writtenThrough (hw hroom)
  | made M _ => exact M.storedSuperblock

/-- A file that replaces another takes over its inode and its blocks. -/
theorem replaceFile_writtenThrough {s : FsState} (hI : Inv s) (hw : WrittenThrough s)
    {path : List UInt8} {ds : List (List UInt8)} {c : List UInt8} {p : UInt32}
    (hpath : comps path = ds ++ [c]) (hc : NameOk c) (hp : s.resolve ds = some p) (data : Memory)
    {size : UInt32} (hsize : size ≤ fsMaxFileSize)
    (hroom : ∀ f, s.lookup p c = some f → s.IsFile f →
      (blocksNeeded size).toNat ≤ s.clearBlocks.card + (s.inodeTable f).pointers.length) :
    WrittenThrough (replaceFile path p c data size s).2 := by
  rcases replaceFile_cases hI hpath hc hp data hsize with ⟨-, hrun⟩ | ⟨-, s2, r, s', C, hM, hrun⟩
  · rw [hrun]
    exact hw
  rw [hrun]
  refine hM.writtenThrough fun hfull => ?_
  cases C with
  | kept => exact hw
  | @deleted _ f j hf R =>
    have hcard := R.card_clearBlocks hI
    have hinode := mem_freeNumbers.mpr ⟨R.file.1, show _ = inodeTypeFree by rw [R.freed.inode]⟩
    rcases hfull with hfull | hfull
    · rw [hfull] at hinode
      exact absurd hinode (Finset.notMem_empty _)
    · have := hroom f hf R.file
      omega

/-- The parents that are made leave room for a file that fits. -/
theorem Fits.allMade {s s1 : FsState} {ds : List (List UInt8)} {c : List UInt8} {size : UInt32}
    {q : Option UInt32} (hI : Inv s) (F : Fits s ds c size) (M : Mkdirs s ds q s1) :
    ∃ k, AllMade s s1 k q ∧ k < s.freeNumbers.card ∧
      k + (blocksNeeded size).toNat ≤ s.clearBlocks.card := by
  obtain ⟨as, m, ms, p, hds, hm, hu, hslot, hinodes, hblocks, hP⟩ := F
  exact ⟨_, M.allMade hI hP.left hu hslot ms hds hm (by omega) (by omega), hinodes, hblocks⟩

/-- In a parent just made nothing is replaced, and a file that fits is written. -/
theorem Fits.replaceFile_writtenThrough {s s1 : FsState} {path : List UInt8}
    {ds : List (List UInt8)} {c : List UInt8} {size p : UInt32} (hI : Inv s)
    (F : Fits s ds c size) (hpath : comps path = ds ++ [c]) (hc : NameOk c)
    (hnone : s.resolve ds = none) (M : Mkdirs s ds (some p) s1) (data : Memory)
    (hsize : size ≤ fsMaxFileSize) : WrittenThrough (replaceFile path p c data size s1).2 := by
  obtain ⟨k, A, hinodes, hblocks⟩ := F.allMade hI M
  obtain ⟨-, -, -, -, -, -, -, -, -, -, hP⟩ := F
  rcases replaceFile_cases (M.inv hI) hpath hc M.resolve data hsize with
    ⟨hdir, -⟩ | ⟨-, s2, r, s', C, hM, hrun⟩
  · exact absurd (A.exists_slot rfl).1.isDir hdir
  rw [hrun]
  refine hM.writtenThrough fun hfull => ?_
  have hb := A.blocks
  have hn := A.inodes
  cases C with
  | deleted hf R =>
    have hmissing : s.resolve (ds ++ [c]) = none := by
      rw [resolve_append, hnone]
      rfl
    rw [M.name_free hI hP hmissing] at hf
    cases hf
  | kept =>
    rcases hfull with hfull | hfull
    · rw [hfull, Finset.card_empty] at hn
      omega
    · omega

theorem fsCreateFile_writtenThrough {s : FsState} (hI : Inv s) (hw : WrittenThrough s) (path : CStr)
    (data : Memory) (size : UInt32) (hop : (FsOp.createFile path data size).settled s) :
    WrittenThrough (fsCreateFile path data size s).2 := by
  rcases fsCreateFile_cases hI path.comps_noNul data size with
    ⟨hrun, -⟩ | ⟨ds, c, q, s1, hpath, hc, hsize, M, -, h⟩
  · rw [hrun]
    exact hw
  rcases hop ds c hpath hsize hc.short with ⟨p, hp, hroom⟩ | ⟨hnone, hno | F⟩
  · -- the parent is there
    obtain ⟨rfl, rfl⟩ := M.of_resolve hp
    rcases h with ⟨hq, -⟩ | ⟨p', hq, hrun⟩
    · cases hq
    cases hq
    rw [hrun]
    exact replaceFile_writtenThrough hI hw hpath hc hp data hsize hroom
  · -- no parent can be made
    have hsame := M.same hI hno
    rcases h with ⟨-, hrun⟩ | ⟨p, rfl, -⟩
    · rw [hrun]
      exact hsame.writtenThrough hw
    · have := M.resolve
      rw [hsame.agree.resolve hI, hnone] at this
      cases this
  · -- the parents are made and the file fits
    rcases h with ⟨rfl, -⟩ | ⟨p, rfl, hrun⟩
    · obtain ⟨k, A, -⟩ := F.allMade hI M
      obtain ⟨n, parent, hq, -⟩ := A.found
      cases hq
    rw [hrun]
    exact F.replaceFile_writtenThrough hI hpath hc hnone M data hsize

theorem FsOp.writtenThrough {s : FsState} (hI : Inv s) (hw : WrittenThrough s) (op : FsOp)
    (hop : op.settled s) : WrittenThrough (op.step s) := by
  cases op with
  | createDir path =>
    obtain ⟨r, q, s', hrun, M, -⟩ := fsCreateDir_mkdirs hI path.comps_noNul
    rw [FsOp.step_createDir, hrun]
    exact (M.same hI hop).writtenThrough hw
  | createFile path data size => exact fsCreateFile_writtenThrough hI hw path data size hop
  | deleteFile path =>
    show WrittenThrough (fsDeleteFile path s).2
    rcases fsDeleteFile_cases hI path with hrun | ⟨s', f, p, c, j, -, hf, R⟩
    · rw [hrun]
      exact hw
    · exact absurd (findInodeByPath_of_resolve hI hf ▸ R.file) hop

/-! ## The counters after a reboot -/

theorem Agree.clearBlocks {s s' : FsState} (h : Agree s s') : s'.clearBlocks = s.clearBlocks := by
  ext b
  rw [mem_clearBlocks, mem_clearBlocks]
  exact and_congr_right fun hb => by rw [h.bits b hb]

theorem Agree.freeNumbers {s s' : FsState} (h : Agree s s') : s'.freeNumbers = s.freeNumbers := by
  ext i
  rw [mem_freeNumbers, mem_freeNumbers]
  exact and_congr_right fun hi => by rw [h.type hi]

theorem WrittenThrough.counters_after_reboot {s : FsState} (hS : Sound s) (hw : WrittenThrough s)
    (m : FsState) : Counters (reboot m s) := by
  have hagree := hS.synced.reboot_agree m hS.inv
  have hsuper : (reboot m s).superblock = s.superblock := by
    rw [reboot_superblock m hS.inv.perfect]
    exact hw
  constructor
  · rw [hsuper, hagree.clearBlocks, hS.counters.blocks]
  · rw [hsuper, hagree.freeNumbers, hS.counters.inodes]

/-- **As long as every change of a counter is written back, the stored superblock is the one in
memory, and the counters are right after a reboot.** -/
theorem superblock_written_through {s : FsState} (h : ReachableBy FsOp.settled s) :
    s.storedSuperblock = s.superblock ∧ ∀ m, Counters (reboot m s) := by
  obtain ⟨hS, hw⟩ := h.invariant (P := fun t => Sound t ∧ WrittenThrough t)
    (fun t ht => ht.sound) fun t op ht hop => ⟨ht.1.step op, op.writtenThrough ht.1.inv ht.2 hop⟩
  exact ⟨hw, hw.counters_after_reboot hS⟩

theorem sampleFile_written_through :
    ((FsOp.createFile samplePath sampleData 700).step sampleInstall).storedSuperblock =
        ((FsOp.createFile samplePath sampleData 700).step sampleInstall).superblock ∧
      ∀ m, Counters (reboot m ((FsOp.createFile samplePath sampleData 700).step sampleInstall)) := by
  have hsettled : (FsOp.createFile samplePath sampleData 700).settled sampleInstall := by
    intro ds c hpath _ _
    obtain ⟨rfl, hc⟩ := List.append_inj' (comps_samplePath.symm.trans hpath) rfl
    cases hc
    refine .inl ⟨0, congrArg some sampleInstall_inv.shape.root, fun f hf => ?_⟩
    rw [sampleInstall_lookup_a] at hf
    cases hf
  exact superblock_written_through (sampleInstall_reachable.next hsettled)

theorem Mkdirs.storedSuperblock {s s' : FsState} {cs : List (List UInt8)} {q : Option UInt32}
    (M : Mkdirs s cs q s') : s'.storedSuperblock = s.storedSuperblock := by
  induction M with
  | found | rejected => rfl
  | orphaned _ _ _ _ ih => exact ih
  | refused _ _ _ hsame _ ih => exact (stored_congr hsame.low).1.trans ih
  | made _ _ _ _ hmade ih => exact hmade.storedSuperblock.trans ih

/-- A directory made leaves the stored counters behind. -/
theorem stored_superblock_stale : ¬ ∀ s, Reachable s → s.storedSuperblock = s.superblock := by
  intro hall
  have hI := sampleInstall_inv
  obtain ⟨r, q, s', hrun, M, -⟩ := fsCreateDir_mkdirs hI samplePath.comps_noNul
  have hreach : Reachable s' := by
    have : Reachable _ := sampleInstall_reachable.next (e := .createDir samplePath) trivial
    rwa [FsOp.step_createDir, hrun] at this
  have hroot : sampleInstall.resolve [] = some 0 := congrArg some hI.shape.root
  have hmissing : Missing sampleInstall [] (ascii "a") [] 0 :=
    ⟨hroot, by rw [resolve_concat, hroot, Option.bind_some, sampleInstall_lookup_a], by decide +kernel⟩
  have A := M.allMade hI (plain_of_no_dots (by decide +kernel)) hI.usable_root
    ⟨7, by decide, by rw [sampleInstall_slots]; rfl⟩ [] comps_samplePath hmissing
    (by rw [sampleInstall_freeNumbers]; decide) (by rw [sampleInstall_clearBlocks]; decide)
  have hblocks := A.blocks
  rw [← (Reachable.sound hreach).counters.blocks, ← hall s' hreach, M.storedSuperblock,
    sampleInstall_installed.sound.2, sampleInstall_root.1, sampleInstall_clearBlocks] at hblocks
  exact absurd hblocks (by decide)

end EphemeralOS
