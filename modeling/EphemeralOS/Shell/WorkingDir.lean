import EphemeralOS.Lib.Run
import EphemeralOS.Fs.Complete
import EphemeralOS.Shell.Commands

/-!
# The working directory

The shell checks that a directory exists when `cd` enters it, and never again.
The directory stays because directories are permanent, as long as no command
hides one (`Command.keepsDirs`), and `cd ..` goes up along the path
(`working_dir_exists`).
-/

namespace EphemeralOS

open Path Directory Run

/-- A creation at `path` that hides no directory. -/
def CreatesPlainly (s : FsState) (path : List UInt8) (size : UInt32) : Prop :=
  Plain s (comps path) ∧ ¬ Hides s path size

def Command.keepsDirs : Command → ShellState → Prop
  | mkdir argv, σ => ∀ path ∈ argv.head?, Plain σ.fs (comps (σ.fullPath path))
  | touch argv, σ => ∀ path ∈ argv.head?, CreatesPlainly σ.fs (σ.fullPath path) 0
  | echo argv _, σ => ∀ target ∈ echoRedirect argv,
      CreatesPlainly σ.fs (σ.fullPath target.1) (UInt32.ofNat target.2.length)
  | cd _, _ | rm _, _ => True

theorem joinPath_noNul {currentDir : List UInt8} (h : 0 ∉ currentDir) (path : CStr) :
    0 ∉ joinPath currentDir path := by
  have hslash : (0 : UInt8) ∉ [slash] := by decide
  unfold joinPath
  split
  · exact path.2
  split
  · exact List.not_mem_append hslash path.2
  · exact List.not_mem_append (List.not_mem_append h hslash) path.2

theorem comps_noNul {path : List UInt8} (h : 0 ∉ path) : ∀ c ∈ comps path, 0 ∉ c :=
  CStr.comps_noNul ⟨path, h⟩

/-- What comes before the last slash leads up along the path. -/
theorem comps_take_lastSlash (l : List UInt8) (h : lastSlash l 0 0 ≠ 0) :
    ∃ es, comps l = comps (l.take (lastSlash l 0 0)) ++ es := by
  by_cases hmem : slash ∈ l
  · obtain ⟨a, r, rfl, hr⟩ := exists_last_sep hmem
    rw [lastSlash_append hr, Nat.zero_add, List.take_left]
    exact ⟨_, components_append_sep a hr⟩
  · exact absurd (lastSlash_of_not_mem hmem) h

/-! ## Directories -/

theorem fsDirExists_state {s : FsState} (hs : s.disk.Perfect) (path : List UInt8) :
    fsDirExists path s = ((fsDirExists path s).1, s) := by
  unfold fsDirExists inodeExists
  rw [FsM.bind_eq (findInodeByPath_eq hs path)]
  split
  · rfl
  split <;> rfl

theorem shellInit_fs {s : FsState} (hs : s.disk.Perfect) : (shellInit s).fs = s := by
  simp only [shellInit]
  rw [fsDirExists_state hs (ascii "/home/" ++ s.superblock.username.cstr)]

theorem Inv.isDir_root {s : FsState} (hI : Inv s) : s.IsDir (findInodeByPath (ascii "/") s).1 := by
  have hres : s.resolve (comps (ascii "/")) = some 0 := congrArg some hI.shape.root
  rw [findInodeByPath_of_resolve hI hres]
  exact hI.shape.rootDir.1

theorem Inv.isDir_up {s : FsState} (hI : Inv s) {path up : List UInt8} {es : List (List UInt8)}
    (hup : comps path = comps up ++ es) (h : s.IsDir (findInodeByPath path s).1) :
    s.IsDir (findInodeByPath up s).1 := by
  obtain ⟨e, hres, he⟩ := hI.isDir_find_iff.mp h
  rw [hup, resolve_append] at hres
  obtain ⟨y, hy, hwalk⟩ := Option.bind_eq_some_iff.mp hres
  exact hI.isDir_find_iff.mpr ⟨y, hy, Inv.isDir_on_way he hwalk⟩

/-- `fs_change_dir`, when it succeeds, leaves a directory in `current_dir`; `..` goes up from where
it was. -/
theorem fsChangeDir_spec {s : FsState} (hI : Inv s) (path : CStr) {dir : List UInt8}
    (hnul : 0 ∉ dir) : ∃ r dir', fsChangeDir path dir s = ((r, dir'), s) ∧ 0 ∉ dir' ∧
      (r = 0 → (path.val = ascii ".." → s.IsDir (findInodeByPath dir s).1) →
        s.IsDir (findInodeByPath dir' s).1) := by
  unfold fsChangeDir
  by_cases hup : path.val = ascii ".."
  · rw [if_pos hup]
    by_cases hroot : dir = [slash]
    · rw [if_pos hroot]
      exact ⟨0, dir, rfl, hnul, fun _ h => h hup⟩
    rw [if_neg hroot]
    by_cases hlast : lastSlash dir 0 0 = 0
    · simp only [if_pos hlast]
      exact ⟨0, [slash], rfl, by decide, fun _ _ => hI.isDir_root⟩
    · simp only [if_neg hlast]
      obtain ⟨es, hes⟩ := comps_take_lastSlash dir hlast
      exact ⟨0, _, rfl, fun h => hnul (List.mem_of_mem_take h), fun _ h => hI.isDir_up hes (h hup)⟩
  · rw [if_neg hup]
    simp only [FsM.bind_eq (fsDirExists_state hI.perfect (joinPath dir path))]
    cases hex : (fsDirExists (joinPath dir path) s).1 with
    | true =>
      exact ⟨0, _, rfl, joinPath_noNul hnul path, fun _ _ => (fsDirExists_iff hI.perfect _).mp hex⟩
    | false => exact ⟨-1, dir, rfl, hnul, fun h => by cases h⟩

/-! ## Runs -/

structure ShellOk (σ : ShellState) : Prop where
  sound : Sound σ.fs
  user : 0 ∉ σ.username
  noNul : 0 ∉ σ.currentDir
  isDir : σ.fs.IsDir (findInodeByPath σ.currentDir σ.fs).1

def LoggedIn (σ : ShellState) : Prop := ∃ s, Installed s ∧ σ = shellInit s

theorem home_noNul {username : List UInt8} (h : 0 ∉ username) : 0 ∉ ascii "/home/" ++ username :=
  List.not_mem_append (by decide +kernel) h

theorem home_ne_up (username : List UInt8) : ascii "/home/" ++ username ≠ ascii ".." := by
  rw [show ascii "/home/" = slash :: ascii "home/" by decide +kernel, List.cons_append]
  intro h
  injection h with h
  exact absurd h (by decide)

theorem LoggedIn.ok {σ : ShellState} (h : LoggedIn σ) : ShellOk σ := by
  obtain ⟨s, hs, hσ⟩ := h
  rw [hσ]
  have hS := hs.sound.1
  have hI := hS.inv
  have huser := s.superblock.username.cstr_noNul
  have hhome := fsDirExists_state hI.perfect (ascii "/home/" ++ s.superblock.username.cstr)
  cases hfound : (fsDirExists (ascii "/home/" ++ s.superblock.username.cstr) s).1 with
  | true =>
    rw [shellInit_found (hhome.trans (by rw [hfound]))]
    exact ⟨hS, huser, home_noNul huser, (fsDirExists_iff hI.perfect _).mp hfound⟩
  | false =>
    rw [shellInit_not_found (hhome.trans (by rw [hfound]))]
    have hroot : 0 ∉ ascii "/" := by decide +kernel
    exact ⟨hS, huser, hroot, hI.isDir_root⟩

namespace ShellOk

variable {σ : ShellState} (hσ : ShellOk σ)
include hσ

theorem fullPath_noNul (path : CStr) : 0 ∉ σ.fullPath path := joinPath_noNul hσ.noNul path

theorem changeDir (path : CStr) {dir : List UInt8} (hnul : 0 ∉ dir)
    (hdir : path.val = ascii ".." → σ.fs.IsDir (findInodeByPath dir σ.fs).1) :
    ShellOk (changeDir path dir σ) ∧ (EphemeralOS.changeDir path dir σ).fs = σ.fs := by
  obtain ⟨r, dir', hrun, hnul', h⟩ := fsChangeDir_spec hσ.sound.inv path hnul
  simp only [EphemeralOS.changeDir, hrun]
  by_cases hr : r = 0
  · rw [if_pos hr]
    exact ⟨⟨hσ.sound, hσ.user, hnul', h hr hdir⟩, trivial⟩
  · rw [if_neg hr]
    exact ⟨⟨hσ.sound, hσ.user, hσ.noNul, hσ.isDir⟩, trivial⟩

theorem call {s' : FsState} (hS : Sound s') (hk : KeepsDirs σ.fs s') :
    ShellOk { σ with fs := s' } := by
  refine ⟨hS, hσ.user, hσ.noNul, ?_⟩
  obtain ⟨e, hres, he⟩ := hσ.sound.inv.isDir_find_iff.mp hσ.isDir
  exact hS.inv.isDir_find_iff.mpr ⟨e, hk _ e hres he⟩

theorem createDir {path : List UInt8} (h0 : 0 ∉ path) (hP : Plain σ.fs (comps path)) :
    Sound (fsCreateDir path σ.fs).2 ∧ KeepsDirs σ.fs (fsCreateDir path σ.fs).2 :=
  ⟨hσ.sound.step (.createDir ⟨path, h0⟩), fsCreateDir_keepsDirs hσ.sound.inv (comps_noNul h0) hP⟩

theorem createFile {path : List UInt8} (h0 : 0 ∉ path) (data : Memory) {size : UInt32}
    (h : CreatesPlainly σ.fs path size) : Sound (fsCreateFile path data size σ.fs).2 ∧
      KeepsDirs σ.fs (fsCreateFile path data size σ.fs).2 :=
  ⟨hσ.sound.step (.createFile ⟨path, h0⟩ data size),
    fsCreateFile_keepsDirs hσ.sound.inv (comps_noNul h0) data h.1 h.2⟩

theorem deleteFile {path : List UInt8} (h0 : 0 ∉ path) :
    Sound (fsDeleteFile path σ.fs).2 ∧ KeepsDirs σ.fs (fsDeleteFile path σ.fs).2 :=
  ⟨hσ.sound.step (.deleteFile ⟨path, h0⟩), fsDeleteFile_keepsDirs hσ.sound.inv path⟩

/-- **A command that hides no directory keeps them all, and the working directory exists.** -/
theorem step (c : Command) (hc : c.keepsDirs σ) :
    ShellOk (c.step σ) ∧ KeepsDirs σ.fs (c.step σ).fs := by
  have hsame {σ' : ShellState} (h : ShellOk σ' ∧ σ'.fs = σ.fs) :
      ShellOk σ' ∧ KeepsDirs σ.fs σ'.fs := ⟨h.1, h.2 ▸ .refl _⟩
  have hcall (s' : FsState) (h : Sound s' ∧ KeepsDirs σ.fs s') :
      ShellOk { σ with fs := s' } ∧ KeepsDirs σ.fs ({ σ with fs := s' } : ShellState).fs :=
    ⟨hσ.call h.1 h.2, h.2⟩
  cases c with
  | cd argv =>
    cases argv with
    | nil =>
      rw [Command.step_cd_nil]
      have hhome := home_noNul hσ.user
      exact hsame (hσ.changeDir ⟨_, hhome⟩ hhome fun h => absurd h (home_ne_up _))
    | cons path argv =>
      rw [Command.step_cd]
      exact hsame (hσ.changeDir path hσ.noNul fun _ => hσ.isDir)
  | mkdir argv =>
    cases argv with
    | nil => exact hsame ⟨hσ, rfl⟩
    | cons path argv =>
      rw [Command.step_mkdir]
      exact hcall _ (hσ.createDir (hσ.fullPath_noNul path) (hc path rfl))
  | touch argv =>
    cases argv with
    | nil => exact hsame ⟨hσ, rfl⟩
    | cons path argv =>
      rw [Command.step_touch]
      exact hcall _ (hσ.createFile (hσ.fullPath_noNul path) emptyData (hc path rfl))
  | rm argv =>
    cases argv with
    | nil => exact hsame ⟨hσ, rfl⟩
    | cons path argv =>
      rw [Command.step_rm]
      exact hcall _ (hσ.deleteFile (hσ.fullPath_noNul path))
  | echo argv stack =>
    cases he : echoRedirect argv with
    | none =>
      rw [Command.step_echo_none he]
      exact hsame ⟨hσ, rfl⟩
    | some target =>
      rw [Command.step_echo he]
      exact hcall _ (hσ.createFile (hσ.fullPath_noNul target.1) _ (hc target he))

end ShellOk

/-- **The working directory exists in every state of a run whose commands hide no directory**, and
none of these makes a path to a directory stop leading there. -/
theorem working_dir_exists {σ : ShellState}
    (h : Reached LoggedIn Command.step Command.keepsDirs σ) :
    σ.fs.IsDir (findInodeByPath σ.currentDir σ.fs).1 ∧ ∀ c : Command, c.keepsDirs σ →
      ∀ path, σ.fs.IsDir (findInodeByPath path σ.fs).1 →
        (findInodeByPath path (c.step σ).fs).1 = (findInodeByPath path σ.fs).1 ∧
          (c.step σ).fs.IsDir (findInodeByPath path σ.fs).1 := by
  have hσ := h.invariant (P := ShellOk) (fun _ h => h.ok) fun _ c hσ hc => (hσ.step c hc).1
  refine ⟨hσ.isDir, fun c hc path hdir => ?_⟩
  obtain ⟨hok, hkeep⟩ := hσ.step c hc
  obtain ⟨e, hres, he⟩ := hσ.sound.inv.isDir_find_iff.mp hdir
  obtain ⟨hres', he'⟩ := hkeep _ e hres he
  rw [findInodeByPath_of_resolve hσ.sound.inv hres, findInodeByPath_of_resolve hok.sound.inv hres']
  exact ⟨rfl, he'⟩

/-! ## Home -/

theorem fsInstall_username (hostname password : CStr) {username : CStr} {t : FsState}
    (ht : t.disk.Perfect) (hlen : username.val.length ≤ 63) :
    (fsInstall hostname username password t).superblock.username.cstr = username := by
  rw [← settings_username, fsInstall_settings hostname password username ht]
  simp only [FsState.settings, installTables]
  exact CArray.cstr_strcpy _ username.2 (Nat.lt_succ_of_le hlen)

/-- With a name that fits an entry the shell starts at home. -/
theorem fsInstall_home (hostname password : CStr) {username : CStr} {t : FsState}
    (ht : t.disk.Perfect) (hseg : Segment slash username.val) (hlen : username.val.length ≤ 27) :
    (shellInit (fsInstall hostname username password t)).currentDir =
      ascii "/home/" ++ username := by
  have hinstalled : Installed (fsInstall hostname username password t) :=
    ⟨hostname, username, password, t, ht, rfl⟩
  have hperfect := hinstalled.sound.1.inv.perfect
  have hhome := (fsDirExists_iff hperfect _).mpr
    (fsInstall_complete hostname password ht hseg hlen (ascii "/home/" ++ username)
      (by simp [installDirs]))
  exact shellInit_home (fsInstall_username hostname password ht (by omega))
    ((fsDirExists_state hperfect _).trans (by rw [hhome]))

theorem sampleInstall_username : sampleInstall.superblock.username.cstr = ascii "user" := by
  rw [sampleInstall_eq]
  exact fsInstall_username sampleHostname samplePassword rfl (by decide +kernel)

theorem sampleInstall_currentDir :
    (shellInit sampleInstall).currentDir = ascii "/home/" ++ ascii "user" := by
  rw [sampleInstall_eq]
  exact fsInstall_home sampleHostname samplePassword rfl
    ⟨by decide +kernel, by decide +kernel⟩ (by decide +kernel)

theorem sampleShell : LoggedIn (shellInit sampleInstall) ∧
    (shellInit sampleInstall).currentDir = ascii "/home/user" :=
  ⟨⟨_, sampleInstall_installed, rfl⟩, sampleInstall_currentDir.trans (by decide +kernel)⟩

def sampleDir : CStr := ⟨ascii "/d", by decide +kernel⟩

/-- The shell after `mkdir /d`. -/
def madeShell : ShellState := (Command.mkdir [sampleDir]).step (shellInit sampleInstall)

/-- The home is still there, and `rm /d` leaves it there. -/
theorem sample_working_dir_exists :
    madeShell.fs.IsDir (findInodeByPath madeShell.currentDir madeShell.fs).1 ∧
      (findInodeByPath madeShell.currentDir ((Command.rm [sampleDir]).step madeShell).fs).1 =
        (findInodeByPath madeShell.currentDir madeShell.fs).1 := by
  have hplain : (Command.mkdir [sampleDir]).keepsDirs (shellInit sampleInstall) := by
    rintro path ⟨⟩
    refine plain_of_no_dots ?_
    show ∀ c ∈ comps (ascii "/d"), ¬ IsDots c
    decide +kernel
  have h := working_dir_exists (.next (.start sampleShell.1) hplain)
  exact ⟨h.1, (h.2 (.rm [sampleDir]) trivial _ h.1).1⟩

/-- A file before the directory `/d`, which the shell enters; then the file is removed, and
another one made over the directory. -/
def hidingCommands : List Command :=
  [.touch [samplePath], .mkdir [sampleDir], .cd [sampleDir], .rm [samplePath], .touch [sampleDir]]

/-- The working directory becomes a file. -/
theorem working_dir_lost :
    ¬ ∀ (hostname username password : CStr) (t : FsState), t.disk.Perfect →
      1 ≤ username.val.length ∧ username.val.length ≤ 27 ∧ slash ∉ username.val →
      ∀ commands : List Command,
        let σ := commands.foldl (fun σ c => c.step σ)
          (shellInit (fsInstall hostname username password t))
        σ.fs.IsDir (findInodeByPath σ.currentDir σ.fs).1 := by
  intro hall
  have hfile : ¬ ((hidingCommands.foldl (fun σ c => c.step σ) (shellInit sampleInstall)).fs.IsDir
      (findInodeByPath
        (hidingCommands.foldl (fun σ c => c.step σ) (shellInit sampleInstall)).currentDir
        (hidingCommands.foldl (fun σ c => c.step σ) (shellInit sampleInstall)).fs).1) := by
    unfold FsState.IsDir
    decide +kernel
  exact hfile (hall sampleHostname sampleUsername samplePassword blankState rfl
    (by decide +kernel) hidingCommands)

/-- **The installation is complete, and the shell starts at home, just when the username fits an
entry.** -/
theorem install_complete_iff (hostname username password : CStr) {t : FsState}
    (ht : t.disk.Perfect)
    (hname : username.val ≠ [] ∧ slash ∉ username.val ∧ username.val.length ≤ 63) :
    ((∀ path ∈ installDirs username, (fsInstall hostname username password t).IsDir
        (findInodeByPath path (fsInstall hostname username password t)).1) ∧
      (shellInit (fsInstall hostname username password t)).currentDir =
        ascii "/home/" ++ username) ↔ username.val.length ≤ 27 := by
  have hseg : Segment slash username.val := ⟨hname.1, hname.2.1⟩
  have hinstalled : Installed (fsInstall hostname username password t) :=
    ⟨hostname, username, password, t, ht, rfl⟩
  have hI := hinstalled.sound.1.inv
  constructor
  · rintro ⟨hall, -⟩
    by_contra hlong
    exact home_missing hI hseg (Nat.not_le.mp hlong) (hall _ (by simp [installDirs]))
  · intro hlen
    exact ⟨fsInstall_complete hostname password ht hseg hlen,
      fsInstall_home hostname password ht hseg hlen⟩

/-- The sample installation is complete. -/
theorem sampleInstall_complete :
    (∀ path ∈ installDirs (ascii "user"),
        sampleInstall.IsDir (findInodeByPath path sampleInstall).1) ∧
      (shellInit sampleInstall).currentDir = ascii "/home/" ++ ascii "user" :=
  (install_complete_iff sampleHostname sampleUsername samplePassword (t := blankState) rfl
    (by decide +kernel)).mpr (by decide +kernel)

def longName : CStr := ⟨List.replicate 28 97, by decide⟩

/-- With such a name there is no home. -/
theorem long_name_homeless :
    ¬ ∀ (hostname username password : CStr) (t : FsState), t.disk.Perfect →
      username.val ≠ [] ∧ slash ∉ username.val ∧ username.val.length ≤ 63 ∧
        (∀ c ∈ username.val, 32 ≤ c ∧ c ≤ 126) →
      (∀ path ∈ installDirs username, (fsInstall hostname username password t).IsDir
        (findInodeByPath path (fsInstall hostname username password t)).1) ∧
      (shellInit (fsInstall hostname username password t)).currentDir =
        ascii "/home/" ++ username := by
  intro hall
  obtain ⟨hdirs, -⟩ := hall sampleHostname longName samplePassword blankState rfl
    (by decide +kernel)
  have hinstalled : Installed (fsInstall (ascii "box") longName (ascii "pw") blankState) :=
    ⟨sampleHostname, longName, samplePassword, blankState, rfl, rfl⟩
  have hseg : Segment slash longName.val := by constructor <;> decide +kernel
  exact home_missing hinstalled.sound.1.inv hseg (by decide +kernel)
    (hdirs _ (by simp [installDirs]))

end EphemeralOS
