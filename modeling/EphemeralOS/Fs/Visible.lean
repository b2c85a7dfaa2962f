import EphemeralOS.Fs.RoundTrip

/-!
# What a success shows

When `fs_create_dir` or `fs_create_file` returns 0, is there afterwards a
directory, or a file, at that path (`created_visible_iff`)? Not when the path led
to the other kind before, nor when the entry went to the last slot of its
directory.
-/

namespace EphemeralOS

open Path Directory Run

theorem inodeExists_iff {s : FsState} (hs : s.disk.Perfect) (type : UInt8) (path : List UInt8) :
    (inodeExists type path s).1 = true ↔ (findInodeByPath path s).1 < fsMaxInodes ∧
      (s.inodeTable (findInodeByPath path s).1).type = type := by
  unfold inodeExists
  rw [FsM.bind_eq (findInodeByPath_eq hs path), findInodeByPath_eq hs]
  generalize (s.resolve (comps path)).getD noNumber = i
  by_cases h1 : i = noNumber
  · rw [if_pos h1, h1]
    exact iff_of_false Bool.false_ne_true fun h => noNumber_not_lt h.1
  · rw [if_neg h1]
    by_cases h2 : i ≥ fsMaxInodes
    · rw [if_pos h2]
      exact iff_of_false Bool.false_ne_true fun h => absurd h.1 (UInt32.not_lt.mpr h2)
    · rw [if_neg h2]
      exact decide_eq_true_iff.trans (and_iff_right (UInt32.not_le.mp h2)).symm

theorem fsDirExists_iff {s : FsState} (hs : s.disk.Perfect) (path : List UInt8) :
    (fsDirExists path s).1 = true ↔ s.IsDir (findInodeByPath path s).1 :=
  inodeExists_iff hs inodeTypeDir path

theorem fsFileExists_iff {s : FsState} (hs : s.disk.Perfect) (path : List UInt8) :
    (fsFileExists path s).1 = true ↔ s.IsFile (findInodeByPath path s).1 :=
  inodeExists_iff hs inodeTypeFile path

/-! ## Directories -/

section At

variable {s : FsState} (hI : Inv s) {path : List UInt8} (h0 : ∀ a ∈ comps path, 0 ∉ a)
  {ds : List (List UInt8)} {c : List UInt8} {p : UInt32} (hpath : comps path = ds ++ [c])
  (hc : c.length < fsMaxFilename) (hp : s.resolve ds = some p) (hu : s.UsableDir p)
include hI h0 hpath hc hp hu

theorem Inv.dirShows_iff :
    ((fsCreateDir path s).1 = 0 → (fsDirExists path (fsCreateDir path s).2).1 = true) ↔
      (∃ e, s.lookup p c = some e ∧ s.IsDir e) ∨
        (s.lookup p c = none ∧ ((∃ j, j ≠ 14 ∧ s.slots p j = none) ∨ NoRoom s 1)) := by
  cases hl : s.lookup p c with
  | some e =>
    have hres : s.resolve (comps path) = some e := by rw [hpath, resolve_concat, hp]; exact hl
    rw [fsCreateDir_existing hI hpath hres, fsDirExists_iff hI.perfect,
      findInodeByPath_of_resolve hI hres]
    simp
  | none =>
    have hname : NameOk c := ⟨comps_mem_segment hpath, h0 c (by rw [hpath]; simp), hc⟩
    rw [fsCreateDir_at hI hpath hc hp hl]
    rcases makeDir_cases (hI.ready hu.isDir.live) c with
      ⟨s', hrun, -, hwhy⟩ | ⟨-, s', n, b, i, hrun, M⟩
    · rw [hrun]
      refine iff_of_true (fun h => by cases h) (.inr ⟨rfl, .inr ?_⟩)
      exact hwhy.resolve_left fun h => h hu.2.1
    · rw [hrun]
      have L := M.isLinked hu.isDir hname
      have hI' := L.inv hI
      rw [fsDirExists_iff hI'.perfect, findInodeByPath_eq hI'.perfect, hpath]
      by_cases hi : i = 14
      · rw [L.resolve_lost hI hp (fun _ => hi) hl]
        refine iff_of_false (fun h => noNumber_not_lt (h rfl).1) ?_
        rintro (⟨e, he, -⟩ | ⟨-, ⟨j, hj, hjn⟩ | hroom⟩)
        · cases he
        · have := M.slot_le hjn
          omega
        · exact M.room hroom
      · rw [L.resolve_new hI hp hu hi hl]
        exact iff_of_true (fun _ => L.isDir_iff.mpr (.inl ⟨rfl, rfl⟩))
          (.inr ⟨rfl, .inl ⟨i, hi, M.empty⟩⟩)

end At

/-! ## Files -/

theorem FsState.Rooted.eq_root {s : FsState} {i : UInt32} (h : s.Rooted i)
    (hself : (s.inodeTable i).parentInode = i) : i = 0 := by
  induction h with
  | root => rfl
  | child _ _ ih => rw [← hself]; exact ih (by rw [hself, hself])

namespace Linked

variable {s s' : FsState} {n p : UInt32} {c : List UInt8} {v : Inode} {bs : List UInt32}
  {i : Fin 15} (hI : Inv s) (L : Linked s s' n p c v bs i) (hv : v.type = inodeTypeFile)
include hI L hv

theorem lookup_file_ne (x : UInt32) (a : List UInt8) (h : x ≠ p ∨ a ≠ c) :
    s'.lookup x a = s.lookup x a := by
  have hu : s'.UsableDir x ↔ s.UsableDir x := by
    rw [L.usable_iff, hv]
    exact or_iff_right fun h => absurd h.2 (by decide)
  by_cases hx : a.length < fsMaxFilename ∧ s.UsableDir x
  · exact L.lookup_ne hI hx.2 hx.1 fun hxp => h.resolve_left (not_not.mpr hxp)
  · unfold FsState.lookup
    rw [if_neg fun h => hx ⟨h.1, hu.mp h.2⟩, if_neg hx]

omit hI in
theorem lookup_file_leaf (a : List UInt8) : s'.lookup n a = none := by
  unfold FsState.lookup
  refine if_neg fun h => ?_
  have hfile : s'.IsFile n := L.isFile_iff.mpr (.inl ⟨rfl, hv⟩)
  exact hfile.not_isDir h.2.isDir

variable {e : UInt32} {k : Fin 15} (hk : s.slots p k = some (c, e))
  (hfirst : ∀ l, l < k → ∀ x, s.slots p l ≠ some (c, x)) (hu : s.UsableDir p)
include hk hfirst hu

/-- A file entered after the directory of its name stays hidden. -/
theorem lookup_behind (hki : k < i) : s'.lookup = s.lookup := by
  funext x a
  by_cases h : x ≠ p ∨ a ≠ c
  · exact L.lookup_file_ne hI hv x a h
  rw [not_or, not_not, not_not] at h
  rw [h.1, h.2, hI.lookup_eq hu L.named.short,
    (L.inv hI).lookup_eq (L.usable_iff.mpr (.inr hu)) L.named.short]
  rw [find_eq_some_iff.mpr ⟨k, hk, hfirst⟩, find_eq_some_iff]
  refine ⟨k, L.slot_old hI hu hk, fun l hl x hlx => ?_⟩
  rcases L.slot_cases hI hu hlx with hold | ⟨-, rfl, -⟩
  · exact hfirst l hl x hold
  · omega

variable {ds : List (List UInt8)} (hik : i < k) (hp : s.resolve ds = some p)
include hik hp

/-- A file entered before the directory of its name is found, ... -/
theorem resolve_before (h : ¬ GoesBy s.lookup s.superblock.rootInode ds p c) :
    s'.resolve (ds ++ [c]) = some n := by
  have hroot : s'.superblock.rootInode = s.superblock.rootInode := by rw [L.superblock]
  have hds : s'.resolve ds = some p := by
    unfold FsState.resolve at hp ⊢
    rw [hroot, walk_eq_of_not_goesBy (L.lookup_file_ne hI hv) h, hp]
  have hi : i ≠ 14 := fun h => by
    have := last_ne hk
    omega
  rw [resolve_concat, hds]
  exact L.lookup_new hI hu hi fun j hj x => hfirst j (lt_trans hj hik) x

/-- ... unless the way there goes by that name: it leads into the file now. -/
theorem resolve_blocked (h : GoesBy s.lookup s.superblock.rootInode ds p c) :
    s'.resolve (ds ++ [c]) = none := by
  have hroot : s'.superblock.rootInode = s.superblock.rootInode := by rw [L.superblock]
  have hi : i ≠ 14 := fun h => by
    have := last_ne hk
    omega
  have hnew : s'.lookup p c = some n :=
    L.lookup_new hI hu hi fun j hj x => hfirst j (lt_trans hj hik) x
  obtain ⟨as, bs, rfl, has⟩ := h
  have hbs : bs ≠ [] := by
    rintro rfl
    -- then the entry leads back to its own directory
    rw [resolve_concat, show s.resolve as = some p from has, Option.bind_some,
      hI.lookup_eq hu L.named.short, find_eq_some_iff.mpr ⟨k, hk, hfirst⟩] at hp
    cases hp
    have h2 := L.two_le hI hu
    obtain ⟨-, hlive, h0, hself⟩ := (hI.entries p hu).entry k c p (by omega) hk
    exact h0 ((hI.shape.rooted p hlive).eq_root hself)
  have hds : s'.resolve (as ++ c :: bs) = none := by
    unfold FsState.resolve
    rw [hroot]
    exact walk_none_of_goesBy (L.lookup_file_ne hI hv) hnew (L.lookup_file_leaf hv) hbs has
  rw [resolve_concat, hds]
  rfl

end Linked

namespace Linked

variable {s s' : FsState} {n p : UInt32} {c : List UInt8} {v : Inode} {bs : List UInt32}
  {i : Fin 15} (hI : Inv s) (L : Linked s s' n p c v bs i) (hv : v.type = inodeTypeFile)
  {ds : List (List UInt8)} (hp : s.resolve ds = some p) (hu : s.UsableDir p)
include hI L hv hp hu

/-- What `path` leads to now is a file: where there was nothing. -/
theorem shown_iff_of_none (hl : s.lookup p c = none) :
    s'.IsFile ((s'.resolve (ds ++ [c])).getD noNumber) ↔ ∃ j, j ≠ 14 ∧ s.slots p j = none := by
  by_cases hi : i = 14
  · rw [L.resolve_lost hI hp (fun _ => hi) hl]
    refine iff_of_false (fun h => noNumber_not_lt h.1) ?_
    rintro ⟨j, hj, hjn⟩
    have := L.slot_le hjn
    omega
  · rw [L.resolve_new hI hp hu hi hl]
    exact iff_of_true (L.isFile_iff.mpr (.inl ⟨rfl, hv⟩)) ⟨i, hi, L.empty⟩

/-- Where there was a directory: the new entry comes before its entry, and the way there does not
go by the name. -/
theorem shown_iff_of_dir {e : UInt32} (hl : s.lookup p c = some e) (hde : s.IsDir e) :
    s'.IsFile ((s'.resolve (ds ++ [c])).getD noNumber) ↔
      (∃ j, s.slots p j = none ∧ ∀ l, l < j → ∀ x, s.slots p l ≠ some (c, x)) ∧
        ¬ GoesBy s.lookup s.superblock.rootInode ds p c := by
  obtain ⟨k, hk, hfirst⟩ := find_eq_some_iff.mp (Inv.lookup_some hl).2.2
  rcases lt_trichotomy i k with hik | rfl | hki
  · by_cases hgo : GoesBy s.lookup s.superblock.rootInode ds p c
    · rw [L.resolve_blocked hI hv hk hfirst hu hik hp hgo]
      exact iff_of_false (fun h => noNumber_not_lt h.1) fun h => h.2 hgo
    · rw [L.resolve_before hI hv hk hfirst hu hik hp hgo]
      exact iff_of_true (L.isFile_iff.mpr (.inl ⟨rfl, hv⟩))
        ⟨⟨i, L.empty, fun l hl x => hfirst l (lt_trans hl hik) x⟩, hgo⟩
  · rw [L.empty] at hk
    cases hk
  · have hsame : s'.resolve (ds ++ [c]) = some e := by
      have hroot : s'.superblock.rootInode = s.superblock.rootInode := by rw [L.superblock]
      unfold FsState.resolve at hp ⊢
      rw [walk_concat, L.lookup_behind hI hv hk hfirst hu hki, hroot, hp]
      exact hl
    rw [hsame]
    refine iff_of_false (fun h => h.not_isDir (L.isDir_iff.mpr (.inr hde))) ?_
    rintro ⟨⟨j, hj, hbefore⟩, -⟩
    exact hbefore k (lt_of_lt_of_le hki (L.slot_le hj)) e hk

end Linked

section At

variable {s : FsState} (hI : Inv s) {path : List UInt8} (h0 : ∀ a ∈ comps path, 0 ∉ a)
  {ds : List (List UInt8)} {c : List UInt8} {p : UInt32} (hpath : comps path = ds ++ [c])
  (hc : c.length < fsMaxFilename) (hp : s.resolve ds = some p) (hu : s.UsableDir p)
include hI h0 hpath hc hp hu

theorem Inv.fileShows_iff (data : Memory) (size : UInt32) :
    ((fsCreateFile path data size s).1 = 0 →
        (fsFileExists path (fsCreateFile path data size s).2).1 = true) ↔
      fsMaxFileSize < size ∨ (∃ f, s.lookup p c = some f ∧ s.IsFile f) ∨
      (s.lookup p c = none ∧
        ((∃ j, j ≠ 14 ∧ s.slots p j = none) ∨ NoRoom s (blocksNeeded size).toNat)) ∨
      (∃ e, s.lookup p c = some e ∧ s.IsDir e ∧
        (NoRoom s (blocksNeeded size).toNat ∨
          (∃ j, s.slots p j = none ∧ ∀ l, l < j → ∀ x, s.slots p l ≠ some (c, x)) ∧
            ¬ GoesBy s.lookup s.superblock.rootInode ds p c)) := by
  by_cases hsize : fsMaxFileSize < size
  · refine iff_of_true (fun h => ?_) (.inl hsize)
    unfold fsCreateFile at h
    rw [if_pos hsize] at h
    cases h
  have hle : size ≤ fsMaxFileSize := UInt32.not_lt.mp hsize
  obtain ⟨s1, r, s', C, M, hrun⟩ := fsCreateFile_at hI h0 hpath hc hp hu.isDir data hle
  rw [hrun]
  cases C with
  | @deleted _ f j hf R =>
    refine iff_of_true (fun hr => ?_) (.inr (.inl ⟨f, hf, R.file⟩))
    cases M with
    | failed => cases hr
    | made M L =>
      have hI' := L.inv (R.inv hI)
      rw [fsFileExists_iff hI'.perfect,
        findInodeByPath_of_resolve hI' (hpath ▸ R.resolve_overwrite hI L hf hp)]
      exact L.isFile_iff.mpr (.inl ⟨rfl, rfl⟩)
  | kept hdir =>
    rcases M.result_iff with ⟨rfl, hroom⟩ | ⟨rfl, hroom⟩
    case inr =>
      refine iff_of_true (fun hr => by cases hr) ?_
      cases hl : s.lookup p c with
      | none => exact .inr (.inr (.inl ⟨rfl, .inr hroom⟩))
      | some e => exact .inr (.inr (.inr ⟨e, rfl, hdir e hl, .inl hroom⟩))
    cases M with | @made _ n bs i M L =>
    have hI' := L.inv hI
    rw [fsFileExists_iff hI'.perfect, findInodeByPath_eq hI'.perfect, hpath]
    simp only [true_implies]
    cases hl : s.lookup p c with
    | none =>
      rw [L.shown_iff_of_none hI rfl hp hu hl]
      simp [hsize, hroom]
    | some e =>
      have hde := hdir e hl
      have hfile : ¬ s.IsFile e := fun h => h.not_isDir hde
      rw [L.shown_iff_of_dir hI rfl hp hu hl hde]
      simp [hsize, hroom, hde, hfile]

end At

/-! ## Successes -/

/-- There is a free slot for the entry of `path`, not the last. -/
def SlotFor (s : FsState) (path : List UInt8) : Prop :=
  ∃ j, j ≠ 14 ∧ s.slots (findInodeByPath (splitPath path).1 s).1 j = none

/-- When the directory that `fs_create_dir` reports is there: `path` led to one before, or to
nothing and there is a slot for the entry; or nothing is made. -/
def DirShows (s : FsState) (path : List UInt8) : Prop :=
  s.IsDir (findInodeByPath path s).1 ∨
    ((findInodeByPath path s).1 = noNumber ∧ (SlotFor s path ∨ NoRoom s 1))

/-- A free slot comes before the first entry of `path`'s name. -/
def FreeSlotBefore (s : FsState) (path : List UInt8) : Prop :=
  ∃ j, s.slots (findInodeByPath (splitPath path).1 s).1 j = none ∧ ∀ l, l < j → ∀ x,
    s.slots (findInodeByPath (splitPath path).1 s).1 l ≠ some ((splitPath path).2, x)

/-- The path to `path`'s parent goes by the entry of `path`. -/
def GoesByItself (s : FsState) (path : List UInt8) : Prop :=
  GoesBy s.lookup s.superblock.rootInode (comps (splitPath path).1)
    (findInodeByPath (splitPath path).1 s).1 (splitPath path).2

/-- When the file that `fs_create_file` reports is there: `path` led to one before, or to nothing
and there is a slot for the entry, or to a directory that the entry comes before and that is not
passed on the way; or nothing is made. -/
def FileShows (s : FsState) (path : List UInt8) (size : UInt32) : Prop :=
  fsMaxFileSize < size ∨ s.IsFile (findInodeByPath path s).1 ∨
    ((findInodeByPath path s).1 = noNumber ∧ SlotFor s path) ∨
    (s.IsDir (findInodeByPath path s).1 ∧ FreeSlotBefore s path ∧ ¬ GoesByItself s path) ∨
    (¬ s.IsFile (findInodeByPath path s).1 ∧ NoRoom s (blocksNeeded size).toNat)

/-- **When a success is visible, with the right kind.** -/
theorem created_visible_iff {s : FsState} (h : Reachable s) (path : CStr)
    (hname : 1 ≤ (splitPath path).2.length ∧ (splitPath path).2.length ≤ 27)
    (hparent : s.UsableDir (findInodeByPath (splitPath path).1 s).1) :
    (((fsCreateDir path s).1 = 0 → (fsDirExists path (fsCreateDir path s).2).1 = true) ↔
      DirShows s path) ∧
    ∀ data size, ((fsCreateFile path data size s).1 = 0 →
        (fsFileExists path (fsCreateFile path data size s).2).1 = true) ↔
      FileShows s path size := by
  have hI := (Reachable.sound h).inv
  obtain ⟨ds, c, hpath, hc, hp⟩ := hI.parent_of_usable hname.1 hparent
  have hds : comps (splitPath path).1 = ds := by rw [splitPath_concat hpath, comps_parent hpath]
  have hlookup := hI.findInodeByPath_concat hpath hp
  have hshort : c.length < fsMaxFilename := hc ▸ Nat.lt_succ_of_le hname.2
  refine ⟨?_, fun data size => ?_⟩
  · rw [hI.dirShows_iff path.comps_noNul hpath hshort hp hparent]
    unfold DirShows SlotFor
    rw [hlookup]
    cases hl : s.lookup (findInodeByPath (splitPath path).1 s).1 c with
    | none => simp [show ¬ s.IsDir noNumber from fun h => noNumber_not_lt h.1]
    | some e => simp [lookup_ne_noNumber hl]
  · rw [hI.fileShows_iff path.comps_noNul hpath hshort hp hparent data size]
    unfold FileShows FreeSlotBefore GoesByItself SlotFor
    rw [hlookup, hds, hc]
    cases hl : s.lookup (findInodeByPath (splitPath path).1 s).1 c with
    | none =>
      simp [show ¬ s.IsDir noNumber from fun h => noNumber_not_lt h.1,
        show ¬ s.IsFile noNumber from fun h => noNumber_not_lt h.1]
    | some e =>
      rcases hI.shape.types e (hI.lookup_live hl) with hfile | hdir
      · simp [lookup_ne_noNumber hl, hfile]
      · have hfile : ¬ s.IsFile e := fun h => h.not_isDir hdir
        simp [lookup_ne_noNumber hl, hfile, hdir, or_comm]

/-- Where nothing is in the way, both successes are visible. -/
theorem sample_visible :
    ((fsCreateDir samplePath sampleInstall).1 = 0 →
      (fsDirExists samplePath (fsCreateDir samplePath sampleInstall).2).1 = true) ∧
    ((fsCreateFile samplePath sampleData 700 sampleInstall).1 = 0 →
      (fsFileExists samplePath (fsCreateFile samplePath sampleData 700 sampleInstall).2).1 = true) := by
  have hI := sampleInstall_inv
  have hroot : (findInodeByPath (splitPath samplePath).1 sampleInstall).1 = 0 := by
    rw [splitPath_samplePath]
    exact findInodeByPath_of_resolve hI (congrArg some hI.shape.root)
  have hnone : (findInodeByPath samplePath sampleInstall).1 = noNumber := by
    rw [hI.findInodeByPath_concat comps_samplePath (congrArg some hI.shape.root),
      sampleInstall_lookup_a]
    rfl
  have hslot : SlotFor sampleInstall samplePath :=
    ⟨7, by decide, by rw [hroot, sampleInstall_slots]; rfl⟩
  have hvisible := created_visible_iff sampleInstall_reachable samplePath
    (by rw [splitPath_samplePath]; decide +kernel) (hroot ▸ hI.usable_root)
  exact ⟨hvisible.1.mpr (.inr ⟨hnone, .inl hslot⟩),
    (hvisible.2 sampleData 700).mpr (.inr (.inr (.inl ⟨hnone, hslot⟩)))⟩

/-- After `fs_create_file("/a", ..)`, `fs_create_dir("/a")` returns 0 and makes no directory. -/
theorem dir_over_file_invisible :
    ¬ ∀ (s : FsState) (path : CStr), Reachable s →
      (1 ≤ (splitPath path).2.length ∧ (splitPath path).2.length ≤ 27) →
      s.UsableDir (findInodeByPath (splitPath path).1 s).1 →
      (fsCreateDir path s).1 = 0 → (fsDirExists path (fsCreateDir path s).2).1 = true := by
  intro hall
  obtain ⟨s', n, bs, i, hrun, M, L⟩ := sampleInstall_createFile sampleData 700 (by decide)
  have hI' := L.inv sampleInstall_inv
  have hreach : Reachable s' := by
    have h : Reachable _ := sampleInstall_reachable.next
      (e := FsOp.createFile samplePath sampleData 700) trivial
    rwa [FsOp.step_createFile, hrun] at h
  have hres := sampleFile_resolve L
  have hroot : (findInodeByPath (splitPath samplePath).1 s').1 = 0 := by
    rw [splitPath_samplePath]
    exact findInodeByPath_of_resolve hI' (congrArg some hI'.shape.root)
  have hdir := hall s' samplePath hreach (by rw [splitPath_samplePath]; decide +kernel)
    (hroot ▸ hI'.usable_root)
  rw [fsCreateDir_existing hI' comps_samplePath hres, fsDirExists_iff hI'.perfect,
    findInodeByPath_of_resolve hI' hres] at hdir
  exact (L.isFile_iff.mpr (.inl ⟨rfl, rfl⟩)).not_isDir (hdir rfl)

end EphemeralOS
