import EphemeralOS.Shell.WorkingDir
import EphemeralOS.Fs.MakePath

/-!
# `cd ..`

Going down, `fs_change_dir` asks the file system for a directory, and stores the
path as it was spelled. Going up, it cuts the stored path at its last slash. The
two are inverse when a proper name stands there; a path that ends in a slash, in
`.` or in `..` is cut to a path of another directory than the parent
(`cd_up_iff`).
-/

namespace EphemeralOS

open Path Directory Run

def upPart (path : List UInt8) : List UInt8 := path.take (lastSlash path 0 0)

def lastPart (path : List UInt8) : List UInt8 := path.drop (lastSlash path 0 0 + 1)

/-- What leads on to another directory than one before it. -/
def ProperName (c : List UInt8) : Prop := c ≠ [] ∧ ¬ IsDots c

instance (c : List UInt8) : Decidable (ProperName c) := inferInstanceAs (Decidable (_ ∧ _))

theorem slash_mem_joinPath (currentDir path : List UInt8) : slash ∈ joinPath currentDir path := by
  unfold joinPath
  split
  · next h => exact List.mem_of_mem_head? h
  split <;> simp

theorem comps_cut {path : List UInt8} (h : slash ∈ path) :
    comps path = comps (upPart path) ++ (if lastPart path = [] then [] else [lastPart path]) := by
  obtain ⟨a, r, rfl, hr⟩ := exists_last_sep h
  have hup : upPart (a ++ slash :: r) = a := by
    rw [upPart, lastSlash_append hr, Nat.zero_add, List.take_left]
  have hlast : lastPart (a ++ slash :: r) = r := by
    rw [lastPart, lastSlash_append hr, Nat.zero_add, ← List.drop_drop, List.drop_left]
    rfl
  rw [hup, hlast]
  exact components_append_sep a hr

/-- **`cd ..` goes to what stands before the last slash.** -/
theorem fsChangeDir_up (path : List UInt8) (s : FsState) :
    (fsChangeDir (ascii "..") path s).1.1 = 0 ∧
      comps (fsChangeDir (ascii "..") path s).1.2 = comps (upPart path) := by
  unfold fsChangeDir
  rw [if_pos rfl]
  by_cases hroot : path = [slash]
  · rw [if_pos hroot, hroot]
    exact ⟨rfl, rfl⟩
  rw [if_neg hroot]
  by_cases hlast : lastSlash path 0 0 = 0
  · simp only [upPart, hlast, if_true]
    exact ⟨rfl, rfl⟩
  · simp only [if_neg hlast]
    exact ⟨rfl, rfl⟩

/-! ## The parent -/

namespace Inv

variable {s : FsState} (hI : Inv s)
include hI

/-- The parent of the parent is another inode, but for the root. -/
theorem eq_root_of_parent_parent {i : UInt32} (hi : s.Live i)
    (h : (s.inodeTable (s.inodeTable i).parentInode).parentInode = i) : i = 0 := by
  have hroot := hI.shape.rootDir.2
  -- what leads up to the root in two steps round and round is the root
  have hloop : ∀ j, s.Rooted j → j = i ∨ j = (s.inodeTable i).parentInode → i = 0 := by
    intro j hj
    induction hj with
    | root =>
      rintro (h0 | h0)
      · exact h0.symm
      · rw [← h0, hroot] at h
        exact h.symm
    | child _ _ ih =>
      rintro (rfl | rfl)
      · exact ih (.inr rfl)
      · exact ih (.inl h)
  exact hloop i (hI.shape.rooted i hi) (.inl rfl)

theorem eq_root_of_parent {i : UInt32} (hi : s.Live i) (h : (s.inodeTable i).parentInode = i) :
    i = 0 := (hI.shape.rooted i hi).eq_root h

end Inv

/-- After `cd ..` from `dir` the working directory is what `..` is in `d`, if that has a `..`. -/
def GoesUp (s : FsState) (d : UInt32) (dir : List UInt8) : Prop :=
  (fsChangeDir (ascii "..") dir s).1.1 = 0 ∧ ∀ e, s.lookup d (ascii "..") = some e →
    s.resolve (comps (fsChangeDir (ascii "..") dir s).1.2) = some e

/-- Where a proper name was entered: the stored path can be cut there. The root is its own parent,
and a directory without `..` has none to go to. -/
def CutsToParent (s : FsState) (d : UInt32) (path : List UInt8) : Prop :=
  ¬ s.UsableDir d ∨ ProperName (lastPart path) ∨ s.resolve (comps (upPart path)) = some 0

section Up

variable {s : FsState} (hI : Inv s) {d y : UInt32}
include hI

theorem goesUp_iff_of_usable (hd : s.UsableDir d) (path : List UInt8) :
    GoesUp s d path ↔ s.resolve (comps (upPart path)) = some (s.inodeTable d).parentInode := by
  obtain ⟨hzero, hcomps⟩ := fsChangeDir_up path s
  unfold GoesUp
  rw [hcomps, hI.lookup_dotdot hd]
  simp [hzero]

/-- The directory before the last part is the parent of `d`, the parent of a proper name's
directory being the one it was found in. -/
theorem up_is_parent_iff {c : List UInt8} (hy : s.Live y) (hd : s.UsableDir d)
    (hstep : (c = [] ∧ d = y) ∨ (c ≠ [] ∧ s.lookup y c = some d)) :
    y = (s.inodeTable d).parentInode ↔ ProperName c ∨ y = 0 := by
  have hroot := hI.shape.rootDir.2
  have hlive := hd.isDir.live
  by_cases hproper : ProperName c
  · obtain ⟨-, hlookup⟩ := hstep.resolve_left fun h => hproper.1 h.1
    exact iff_of_true (hI.parent_of_lookup hlookup hproper.2).symm (.inl hproper)
  rw [or_iff_right hproper]
  -- the three spellings that name no entry of their own
  have hcases : d = y ∨ d = (s.inodeTable y).parentInode := by
    rcases hstep with ⟨-, h⟩ | ⟨hne, hlookup⟩
    · exact .inl h
    · have huse := (Inv.lookup_some hlookup).2.1
      rcases not_not.mp (not_and.mp hproper hne) with rfl | rfl
      · rw [hI.lookup_dot huse] at hlookup
        exact .inl (Option.some.inj hlookup).symm
      · rw [hI.lookup_dotdot huse] at hlookup
        exact .inr (Option.some.inj hlookup).symm
  constructor
  · intro h
    rcases hcases with rfl | hparent
    · exact hI.eq_root_of_parent hy h.symm
    · exact hI.eq_root_of_parent_parent hy (by rw [← hparent]; exact h.symm)
  · rintro rfl
    rcases hcases with rfl | hparent
    · exact hroot.symm
    · rw [hparent, hroot, hroot]

theorem goesUp_iff {path : List UInt8} (hpath : slash ∈ path)
    (hd : s.resolve (comps path) = some d) : GoesUp s d path ↔ CutsToParent s d path := by
  by_cases huse : s.UsableDir d
  case neg =>
    refine iff_of_true ⟨(fsChangeDir_up path s).1, fun e he => ?_⟩ (.inl huse)
    exact absurd (Inv.lookup_some he).2.1 huse
  rw [goesUp_iff_of_usable hI huse path, CutsToParent, or_iff_right (not_not.mpr huse)]
  rw [comps_cut hpath, resolve_append] at hd
  obtain ⟨y, hy, hwalk⟩ := Option.bind_eq_some_iff.mp hd
  have hstep : (lastPart path = [] ∧ d = y) ∨
      (lastPart path ≠ [] ∧ s.lookup y (lastPart path) = some d) := by
    by_cases hnil : lastPart path = []
    · rw [if_pos hnil] at hwalk
      exact .inl ⟨hnil, (Option.some.inj hwalk).symm⟩
    · rw [if_neg hnil, walk_cons] at hwalk
      obtain ⟨x, hx, hlast⟩ := Option.bind_eq_some_iff.mp hwalk
      cases hlast
      exact .inr ⟨hnil, hx⟩
  have hiff := up_is_parent_iff hI (hI.resolve_live hy) huse hstep
  rw [hy, Option.some.injEq, Option.some.injEq, hiff]

end Up

/-- **`cd ..` goes to the parent exactly after a proper name**, whatever `currentDir` was. -/
theorem cd_up_iff {s : FsState} (h : Reachable s) (currentDir : List UInt8) {path : List UInt8}
    (hpath : path ≠ ascii "..") (hcd : (fsChangeDir path currentDir s).1.1 = 0) {d : UInt32}
    (hd : s.resolve (comps (fsChangeDir path currentDir s).1.2) = some d) :
    GoesUp s d (fsChangeDir path currentDir s).1.2 ↔
      CutsToParent s d (joinPath currentDir path) := by
  have hI := (Reachable.sound h).inv
  have hdir : (fsChangeDir path currentDir s).1.2 = joinPath currentDir path := by
    unfold fsChangeDir at hcd ⊢
    rw [if_neg hpath, FsM.bind_eq (fsDirExists_state hI.perfect _)] at hcd ⊢
    split
    · rfl
    · next hex =>
      rw [if_neg hex] at hcd
      exact absurd hcd (show (-1 : Int) ≠ 0 by decide)
  rw [hdir] at hd ⊢
  exact goesUp_iff hI (slash_mem_joinPath currentDir path) hd

theorem home_resolves {path : List UInt8} (h : comps path = [ascii "home"]) :
    sampleInstall.resolve (comps path) = some 2 ∧ sampleInstall.UsableDir 2 := by
  have hI := sampleInstall_inv
  have hlookup : sampleInstall.lookup 0 (ascii "home") = some 2 := by
    rw [sampleInstall_lookup (by decide +kernel)]
    decide +kernel
  refine ⟨?_, hI.usable (by decide +kernel) (by decide)⟩
  rw [h]
  show walk _ _ [ascii "home"] = _
  rw [walk_cons, hI.shape.root, hlookup]
  rfl

theorem sampleInstall_cd_home {path : List UInt8} (h : comps path = [ascii "home"])
    (hup : path ≠ ascii "..") (hhead : path.head? = some slash) (currentDir : List UInt8) :
    (fsChangeDir path currentDir sampleInstall).1 = (0, path) := by
  have hI := sampleInstall_inv
  have hexists : (fsDirExists path sampleInstall).1 = true := by
    rw [fsDirExists_iff hI.perfect, findInodeByPath_of_resolve hI (home_resolves h).1]
    exact (home_resolves h).2.isDir
  have hjoin : joinPath currentDir path = path := if_pos hhead
  unfold fsChangeDir
  rw [if_neg hup, hjoin, FsM.bind_eq (fsDirExists_state hI.perfect _), hexists]
  rfl

/-- After `cd /home`, `cd ..` goes to the parent. -/
theorem sample_cd_up :
    GoesUp sampleInstall 2 (fsChangeDir (ascii "/home") (ascii "/") sampleInstall).1.2 := by
  have hcomps : comps (ascii "/home") = [ascii "home"] := by decide +kernel
  have hcd := sampleInstall_cd_home hcomps (by decide +kernel) (by decide +kernel) (ascii "/")
  refine (cd_up_iff sampleInstall_reachable (ascii "/") (by decide +kernel) (by rw [hcd])
    (by rw [hcd]; exact (home_resolves hcomps).1)).mpr (.inr (.inl ?_))
  decide +kernel

/-! ## A trailing slash -/

/-- `/home`, spelled with a slash at its end. -/
def homePath : CStr := ⟨ascii "/home/", by decide +kernel⟩

/-- After `cd /home/`, `cd ..` stays in `/home`. -/
theorem trailing_slash_stays : ¬ ∀ (σ : ShellState) (path : CStr) (d : UInt32),
    Reached LoggedIn Command.step (fun _ _ => True) σ → path.val ≠ ascii ".." →
      (fsChangeDir path σ.currentDir σ.fs).1.1 = 0 →
      σ.fs.resolve (comps (fsChangeDir path σ.currentDir σ.fs).1.2) = some d →
      GoesUp σ.fs d (fsChangeDir path σ.currentDir σ.fs).1.2 := by
  intro hall
  have hfs : (shellInit sampleInstall).fs = sampleInstall := shellInit_fs sampleInstall_inv.perfect
  have hup := hall (shellInit sampleInstall) homePath 2 (.start sampleShell.1) (by decide +kernel)
  have hcomps : comps homePath = [ascii "home"] := by decide +kernel
  obtain ⟨hres, huse⟩ := home_resolves hcomps
  rw [hfs, sampleInstall_cd_home hcomps (by decide +kernel) (by decide +kernel)] at hup
  have hgoes := (goesUp_iff sampleInstall_inv (by decide +kernel) hres).mp (hup rfl hres)
  rcases hgoes with hnone | hproper | hroot
  · exact hnone huse
  · exact absurd hproper (by decide +kernel)
  · rw [show comps (upPart homePath) = comps homePath by decide +kernel, hres] at hroot
    exact absurd hroot (by decide)

end EphemeralOS
