import EphemeralOS.Fs.Territory
import EphemeralOS.Kernel.Installer
import EphemeralOS.Shell.TreeShell

/-!
# From one start of the machine to the next

`kernel_main` (`kernel/kernel.c`) installs on a new disk, and on an installed one
asks for a login and runs the shell. What it prints itself is left out.

A machine that is started again and again is one of a tree with the credentials
of its installation (`machine_refines_tree_machine`): each session finds the tree
that the one before has left, and only the installed credentials start one.
-/

namespace EphemeralOS

open Path Directory

open scoped Classical

/-- Memory and disk hold the settings `b`. -/
structure KeepsSettings (b : Superblock) (s : FsState) : Prop where
  inMemory : s.settings = b
  onDisk : ({ s with superblock := s.storedSuperblock } : FsState).settings = b

namespace KeepsSettings

variable {b : Superblock} {s s' : FsState}

theorem change {made gone : UInt32 → Prop} (hI : Inv s) (h : KeepsSettings b s)
    (hc : Change made gone s s') : KeepsSettings b s' := by
  have hmem : s'.settings = b := (Changes.settings hI (.single hc)).trans h.inMemory
  have hstored : s'.storedSuperblock = s.storedSuperblock ∨ s'.storedSuperblock = s'.superblock := by
    cases hc with
    | same h => exact .inl (stored_congr h.low).1
    | linked _ L => exact L.storedSuperblock
    | removed _ R => exact .inl R.storedSuperblock
  refine ⟨hmem, ?_⟩
  rcases hstored with hstored | hstored
  · rw [FsState.settings, hstored]
    exact h.onDisk
  · rw [FsState.settings, hstored]
    exact hmem

/-- **No change of the file system is one of its settings.** -/
theorem changes {made gone : UInt32 → Prop} (hI : Inv s) (h : KeepsSettings b s)
    (hc : Changes made gone s s') : KeepsSettings b s' :=
  (hc.preserves (P := KeepsSettings b) (fun _ _ hI hP ht => hP.change hI ht) hI h).2

theorem reboot (hs : s.disk.Perfect) (h : KeepsSettings b s) (m : FsState) :
    KeepsSettings b (reboot m s) := by
  constructor
  · rw [FsState.settings, reboot_superblock m hs]
    exact h.onDisk
  · rw [FsState.settings, (reboot_stored m hs).1]
    exact h.onDisk

end KeepsSettings

/-! ## A session changes the file system only by its calls -/

section Rounds

variable {x : Session} {t : TreeShell} (h : x.Refines t) {input : ShellInput}
include h

theorem ShellCommand.call_changes (f : ShellCommand) (argv : List CStr) :
    ∃ made gone, Changes made gone x.shell.fs (f.call argv input x).2.shell.fs := by
  have hI := h.fs.inv
  have hrefl : ∃ made gone, Changes made gone x.shell.fs x.shell.fs :=
    ⟨nothing, nothing, .refl⟩
  have hsame : ∀ {s : FsState}, Same x.shell.fs s → ∃ made gone, Changes made gone x.shell.fs s :=
    fun hs => ⟨nothing, nothing, .single (.same hs)⟩
  have hop : ∀ op : FsOp, ∃ made gone, Changes made gone x.shell.fs (op.step x.shell.fs) :=
    fun op => ⟨_, _, op.changes hI⟩
  have hchange : ∀ (path : CStr) {dir : List UInt8}, 0 ∉ dir →
      ∃ made gone, Changes made gone x.shell.fs (changeDir path dir x.shell).fs := by
    intro path dir hdir
    obtain ⟨r, dir', hrun, -⟩ := fsChangeDir_spec hI path hdir
    rw [changeDir, hrun]
    exact hrefl
  cases f with
  | help | clear | pwd | whoami | uname | date | shutdown | reboot | ping => exact hrefl
  | ls => exact hsame (fsListDir_same hI.perfect x.shell.currentDir input.stack 2048)
  | cat =>
    cases argv with
    | nil => exact hrefl
    | cons path argv =>
      exact hsame (fsReadFile_same hI.perfect (x.shell.fullPath path) input.stack fsMaxFileSize)
  | cd =>
    simp only [ShellCommand.call, cmdCd]
    cases argv with
    | nil =>
      have hhome := home_noNul (h.username ▸ h.userNoNul : 0 ∉ x.shell.username)
      exact hchange ⟨_, hhome⟩ hhome
    | cons path argv => exact hchange path (h.currentDir ▸ h.dirNoNul)
  | mkdir =>
    cases argv with
    | nil => exact hrefl
    | cons path argv =>
      simp only [ShellCommand.call, cmdMkdir]
      exact hop (.createDir ⟨_, h.path_noNul path⟩)
  | touch =>
    cases argv with
    | nil => exact hrefl
    | cons path argv =>
      simp only [ShellCommand.call, cmdTouch]
      exact hop (.createFile ⟨_, h.path_noNul path⟩ emptyData 0)
  | rm =>
    cases argv with
    | nil => exact hrefl
    | cons path argv =>
      simp only [ShellCommand.call, cmdRm]
      exact hop (.deleteFile ⟨_, h.path_noNul path⟩)
  | echo =>
    have hecho : ∃ made gone,
        Changes made gone x.shell.fs (cmdEcho argv input.stack x.shell).fs := by
      rw [cmdEcho]
      cases echoRedirect argv with
      | none => exact hrefl
      | some target =>
        exact hop (.createFile ⟨_, h.path_noNul target.1⟩ (input.stack.store 0 (target.2 ++ [0]))
          (UInt32.ofNat target.2.length))
    exact hecho

theorem Session.round_changes :
    ∃ made gone, Changes made gone x.shell.fs (x.round input).2.shell.fs := by
  have hrefl : ∃ made gone, Changes made gone x.shell.fs x.shell.fs :=
    ⟨nothing, nothing, .refl⟩
  rw [Session.round]
  split
  · exact hrefl
  simp only
  split
  · exact hrefl
  generalize (parseCommand input.line x.argvBuffer input.argv).argvBuffer = argvBuffer
  generalize (parseCommand input.line x.argvBuffer input.argv).words = words
  cases words with
  | nil => exact hrefl
  | cons name argv =>
    simp only [Session.dispatch]
    cases findCommand name with
    | none => exact hrefl
    | some f =>
      have harrived : ({ x with
          net := { x.net with arrivals := x.net.arrivals ++ input.arrivals }
          argvBuffer := argvBuffer } : Session).Refines
            { t with net := { t.net with arrivals := t.net.arrivals ++ input.arrivals } } :=
        { h with net := by rw [h.net] }
      exact f.call_changes harrived argv

end Rounds

/-! ## `kernel_main` -/

/-- What a start of the machine meets with: what is in memory, the characters typed, the network
and the static buffer of the shell, and the lines entered after a login. -/
structure PowerOn where
  memory : FsState
  keys : List UInt8
  net : NetState
  argvBuffer : Nat → Nat → UInt8
  inputs : List ShellInput

/-- How far a start gets: the installer waits for more characters, or has installed; `do_login`
waits for more characters, or there has been a session, which printed this. -/
inductive Startup
  | installer
  | installed
  | login
  | session (out : List (List ScreenCall))

/-- The superblock is one that `fs_check_installed` accepts. -/
def Superblock.SaysInstalled (b : Superblock) : Prop :=
  b.magic = fsMagic ∧ b.version = fsVersion ∧ b.installed = 1

instance (b : Superblock) : Decidable b.SaysInstalled :=
  inferInstanceAs (Decidable (_ ∧ _ ∧ _))

theorem saysInstalled_settings (s : FsState) :
    s.settings.SaysInstalled ↔ s.superblock.SaysInstalled := Iff.rfl

/-- `kernel_main`, on what the start before has left on the disk. -/
def kernelMain (e : PowerOn) (s : FsState) : Startup × FsState :=
  let (installed, s) := fsCheckInstalled { e.memory with disk := s.disk }
  if installed then
    let s := fsInit s
    match doLogin s e.keys with
    | none => (.login, s)
    | some _ =>
      let (out, x) := Simulation.answers Session.step e.inputs
        (Session.start s e.net e.argvBuffer)
      (.session out, x.shell.fs)
  else
    match installerRun e.keys s with
    | none => (.installer, s)
    | some (s, _) => (.installed, s)

/-- What is typed installs a username whose home has no dots on its way, or enters lines whose
commands create only under free names. -/
def PowerOn.plain (e : PowerOn) (s : FsState) : Prop :=
  if s.storedSuperblock.SaysInstalled then
    Simulation.Allowed Session.step (fun input x => x.plain input) e.inputs
      (Session.start (reboot e.memory s) e.net e.argvBuffer)
  else ∀ hostname username password rest, Dialogue e.keys hostname username password rest →
    ∀ path ∈ installDirs username, ∀ c ∈ comps path, ¬ IsDots c

theorem fsCheckInstalled_eq {s : FsState} (hs : s.disk.Perfect) (m : FsState) :
    fsCheckInstalled { m with disk := s.disk } =
      (decide s.storedSuperblock.SaysInstalled,
        { m with superblock := s.storedSuperblock, disk := s.disk }) := by
  have hstored : ({ m with disk := s.disk } : FsState).storedSuperblock = s.storedSuperblock :=
    (stored_congr fun _ _ => rfl).1
  have hload : loadSuperblock { m with disk := s.disk } =
      { m with superblock := s.storedSuperblock, disk := s.disk } := by
    rw [loadSuperblock_eq (s := { m with disk := s.disk }) hs, hstored]
  unfold fsCheckInstalled
  rw [FsM.bind_modify, hload]
  refine Prod.ext ?_ rfl
  exact decide_eq_decide.mpr Iff.rfl

theorem kernelMain_eq {s : FsState} (hs : s.disk.Perfect) (e : PowerOn) :
    kernelMain e s = if s.storedSuperblock.SaysInstalled then
      match doLogin (reboot e.memory s) e.keys with
      | none => (.login, reboot e.memory s)
      | some _ =>
        let (out, x) := Simulation.answers Session.step e.inputs
          (Session.start (reboot e.memory s) e.net e.argvBuffer)
        (.session out, x.shell.fs)
    else
      match installerRun e.keys
          { e.memory with superblock := s.storedSuperblock, disk := s.disk } with
      | none => (.installer, { e.memory with superblock := s.storedSuperblock, disk := s.disk })
      | some (s, _) => (.installed, s) := by
  have hinit : fsInit { e.memory with superblock := s.storedSuperblock, disk := s.disk } =
      reboot e.memory s := by
    have hreboot : fsInit { e.memory with superblock := s.storedSuperblock, disk := s.disk } =
        reboot { e.memory with superblock := s.storedSuperblock } s := rfl
    rw [hreboot, reboot_eq _ hs, reboot_eq _ hs]
  rw [kernelMain, fsCheckInstalled_eq hs]
  simp only [hinit, decide_eq_true_eq]

/-! ## The machine of a tree -/

structure TreeMachine where
  tree : Tree
  hostname : List UInt8
  username : List UInt8
  password : List UInt8

namespace TreeMachine

/-- The lines typed end with the username and a password of the same hash. -/
def Accepts (M : TreeMachine) (keys : List UInt8) : Prop :=
  ∃ lines rest, Typed keys lines rest ∧
    Login M.username (fun line => simpleHash line = simpleHash M.password) lines

/-- A start: nothing is installed but by a dialogue, and there is no session but by a login, which
starts with the tree as it is and leaves it as the lines of the session do. -/
def allows : Simulation.Spec (Option TreeMachine) PowerOn Startup
  | none, e, .installer, M => M = none ∧ ¬ ∃ hostname username password rest,
      Dialogue e.keys hostname username password rest
  | none, e, .installed, M => ∃ hostname username password rest,
      Dialogue e.keys hostname username password rest ∧
        M = some ⟨Tree.installed username, hostname, username, password⟩
  | some M, e, .login, M' => M' = some M ∧ ¬ M.Accepts e.keys
  | some M, e, .session out, M' => M.Accepts e.keys ∧ ∃ t,
      Simulation.Runs TreeShell.allows (TreeShell.start M.tree M.username M.hostname e.net) e.inputs
        out t ∧ M' = some { M with tree := t.tree }
  | _, _, _, _ => False

end TreeMachine

structure Superblock.Describes (b : Superblock) (M : TreeMachine) : Prop where
  saysInstalled : b.SaysInstalled
  hostname : b.hostname.cstr = M.hostname
  holds : Holds M.username M.password b

/-- What is on the disk stands for the machine of a tree. -/
def RefinesMachine (s : FsState) : Option TreeMachine → Prop
  | none => s.disk.Perfect ∧ ¬ s.storedSuperblock.SaysInstalled
  | some M => RefinesTree s M.tree ∧ ∃ b, KeepsSettings b s ∧ b.Describes M

theorem fsInstall_refinesMachine (hostname username password : CStr)
    (hlen : hostname.val.length ≤ 63 ∧ username.val.length ≤ 63) {m : FsState}
    (hm : m.disk.Perfect)
    (hdots : ∀ path ∈ installDirs username, ∀ c ∈ comps path, ¬ IsDots c) :
    RefinesMachine (fsInstall hostname username password m)
      (some ⟨Tree.installed username, hostname, username, password⟩) := by
  have hR := fsInstall_refinesTree hostname username password hm (plainDirs_of_no_dots hdots)
  have hstored : (fsInstall hostname username password m).storedSuperblock =
      (fsInstall hostname username password m).superblock :=
    (Installed.sound ⟨hostname, username, password, m, hm, rfl⟩).2
  have hset := fsInstall_settings hostname password username hm
  generalize fsInstall hostname username password m = s at hR hstored hset
  refine ⟨hR, s.settings, ⟨rfl, ?_⟩, ?_⟩
  · rw [FsState.settings, hstored]
    rfl
  · rw [hset]
    exact ⟨⟨rfl, rfl, rfl⟩, CArray.cstr_strcpy _ hostname.2 (Nat.lt_succ_of_le hlen.1),
      CArray.cstr_strcpy _ username.2 (Nat.lt_succ_of_le hlen.2), rfl⟩

section Start

variable {s : FsState} (e : PowerOn) (hplain : e.plain s)
include hplain

theorem start_new (hs : s.disk.Perfect) (hnew : ¬ s.storedSuperblock.SaysInstalled) :
    ∃ M, TreeMachine.allows none e (kernelMain e s).1 M ∧ RefinesMachine (kernelMain e s).2 M := by
  rw [PowerOn.plain, if_neg hnew] at hplain
  rw [kernelMain_eq hs, if_neg hnew]
  have hdisk : ({ e.memory with superblock := s.storedSuperblock, disk := s.disk } :
      FsState).disk = s.disk := rfl
  generalize ({ e.memory with superblock := s.storedSuperblock, disk := s.disk } : FsState) = m
    at hdisk ⊢
  cases hrun : installerRun e.keys m with
  | none =>
    refine ⟨none, ⟨rfl, ?_⟩, hdisk ▸ hs, ?_⟩
    · rintro ⟨hostname, username, password, rest, hdialogue⟩
      have hdone : installerRun e.keys m = some (fsInstall hostname username password m, rest) :=
        installerRun_iff.mpr ⟨hostname, username, password, hdialogue, rfl⟩
      rw [hrun] at hdone
      cases hdone
    · have hstored : m.storedSuperblock = s.storedSuperblock :=
        (stored_congr fun x _ => by rw [hdisk]).1
      rw [hstored]
      exact hnew
  | some result =>
    obtain ⟨s', rest⟩ := result
    obtain ⟨hostname, username, password, hdialogue, rfl⟩ := installerRun_iff.mp hrun
    obtain ⟨hhost, huser, hpass⟩ := hdialogue.typedLine
    exact ⟨_, ⟨hostname, username, password, rest, hdialogue, rfl⟩,
      fsInstall_refinesMachine ⟨hostname, hhost.noNul⟩ ⟨username, huser.noNul⟩
        ⟨password, hpass.noNul⟩ ⟨hhost.fits, huser.fits⟩ (hdisk ▸ hs)
        (hplain hostname username password rest hdialogue)⟩

theorem start_installed {M : TreeMachine} {b : Superblock} (hR : RefinesTree s M.tree)
    (hK : KeepsSettings b s) (hD : b.Describes M) :
    ∃ M', TreeMachine.allows (some M) e (kernelMain e s).1 M' ∧
      RefinesMachine (kernelMain e s).2 M' := by
  have hs := hR.inv.perfect
  have hsays : s.storedSuperblock.SaysInstalled :=
    (saysInstalled_settings _).mp (hK.onDisk.symm ▸ hD.saysInstalled)
  rw [PowerOn.plain, if_pos hsays] at hplain
  rw [kernelMain_eq hs, if_pos hsays]
  have hR' := hR.reboot e.memory
  have hK' := hK.reboot hs e.memory
  generalize reboot e.memory s = s' at hplain hR' hK' ⊢
  have hholds : Holds M.username M.password s'.superblock :=
    Holds.settings.mp (hK'.inMemory.symm ▸ hD.holds)
  have hhost : fsGetHostname s' = M.hostname := by
    rw [← hD.hostname, ← hK'.inMemory]
    rfl
  cases hlogin : doLogin s' e.keys with
  | none =>
    refine ⟨some M, ⟨rfl, ?_⟩, hR', b, hK', hD⟩
    rintro ⟨lines, rest, htyped, hlines⟩
    have hdone := (hholds.doLogin_iff e.keys rest 1).mpr ⟨rfl, lines, htyped, hlines⟩
    rw [hlogin] at hdone
    cases hdone
  | some result =>
    obtain ⟨r, rest⟩ := result
    obtain ⟨-, lines, haccepts⟩ := (hholds.doLogin_iff e.keys rest r).mp hlogin
    have hstart := Session.Refines.start hR' e.net e.argvBuffer
    rw [hhost, hholds.username] at hstart
    have hkept : KeepsSettings b (Session.start s' e.net e.argvBuffer).shell.fs :=
      (congrArg (KeepsSettings b) (shellInit_fs hR'.inv.perfect)).mpr hK'
    -- the session keeps the settings
    obtain ⟨t, hruns, hend, hkeptEnd⟩ := Simulation.Runs.simulate
      (R := fun x t => x.Refines t ∧ KeepsSettings b x.shell.fs)
      (fun input x t h hinput => by
        obtain ⟨t', hallows, hround⟩ := h.1.round hinput
        obtain ⟨made, gone, hchanges⟩ := Session.round_changes h.1
        exact ⟨t', hallows, hround, h.2.changes h.1.fs.inv hchanges⟩)
      ⟨hstart, hkept⟩ hplain
    exact ⟨some { M with tree := t.tree }, ⟨⟨lines, rest, haccepts⟩, t, hruns, rfl⟩, hend.fs, b,
      hkeptEnd, ⟨hD.saysInstalled, hD.hostname, hD.holds⟩⟩

end Start

/-- **A machine is one of a tree.** From a new disk on, however often it is started, and whatever is
in memory and typed each time: only a dialogue installs, only the installed username and a password
of the installed one's hash start a session, and each session prints what the shell may print of the
tree that the one before has left. -/
theorem machine_refines_tree_machine {s : FsState} (hs : s.disk.Perfect)
    (hnew : ¬ s.storedSuperblock.SaysInstalled) {starts : List PowerOn}
    (hstarts : Simulation.Allowed kernelMain PowerOn.plain starts s) :
    ∃ M, Simulation.Runs TreeMachine.allows none starts
        (Simulation.answers kernelMain starts s).1 M ∧
      RefinesMachine (Simulation.answers kernelMain starts s).2 M := by
  refine Simulation.Runs.simulate (fun e s M h hplain => ?_)
    (show RefinesMachine s none from ⟨hs, hnew⟩) hstarts
  cases M with
  | none => exact start_new e hplain h.1 h.2
  | some M =>
    obtain ⟨hR, b, hK, hD⟩ := h
    exact start_installed e hplain hR hK hD

/-- Without a line for the shell, only the username matters that would be installed. -/
theorem plain_of_username {e : PowerOn} (hinputs : e.inputs = [])
    {line username keys' rest : List UInt8} (hline : keyboardGetline 64 e.keys = some (line, keys'))
    (huser : keyboardGetline 64 keys' = some (username, rest))
    (hdots : ∀ path ∈ installDirs username, ∀ c ∈ comps path, ¬ IsDots c) (s : FsState) :
    e.plain s := by
  rw [PowerOn.plain]
  split
  · rw [hinputs]
    trivial
  · rintro hostname username' password rest' ⟨lines, htyped, -⟩
    obtain ⟨keys1, hhost, htyped⟩ := typed_cons.mp htyped
    cases hline.symm.trans hhost
    obtain ⟨keys2, huser', -⟩ := typed_cons.mp htyped
    cases huser.symm.trans huser'
    exact hdots

/-- A start at which only `keys` are typed. -/
def startWith (keys : List UInt8) : PowerOn := ⟨blankState, keys, kernelNet, fun _ _ => 0, []⟩

/-- Somebody installs, and then logs in. -/
def twoStarts : List PowerOn :=
  [startWith (ascii "box\nuser\npw\npw\n"), startWith (ascii "user\npw\n")]

theorem twoStarts_plain (s : FsState) :
    Simulation.Allowed kernelMain PowerOn.plain twoStarts s := by
  have hbox : keyboardGetline 64 (ascii "box\nuser\npw\npw\n") =
      some (ascii "box", ascii "user\npw\npw\n") := by decide +kernel
  have huser : keyboardGetline 64 (ascii "user\npw\npw\n") =
      some (ascii "user", ascii "pw\npw\n") := by decide +kernel
  have hlogin : keyboardGetline 64 (ascii "user\npw\n") =
      some (ascii "user", ascii "pw\n") := by decide +kernel
  have hpassword : keyboardGetline 64 (ascii "pw\n") = some (ascii "pw", []) := by decide +kernel
  exact ⟨plain_of_username (e := startWith (ascii "box\nuser\npw\npw\n")) rfl hbox huser
      (by decide +kernel) _,
    plain_of_username (e := startWith (ascii "user\npw\n")) rfl hlogin hpassword
      (by decide +kernel) _, trivial⟩

theorem blankState_new : ¬ blankState.storedSuperblock.SaysInstalled := by decide +kernel

/-- The new machine is installed, and then somebody logs in. -/
theorem machine_refines_tree_machine_login :
    ∃ M, Simulation.Runs TreeMachine.allows none twoStarts
        (Simulation.answers kernelMain twoStarts blankState).1 M ∧
      RefinesMachine (Simulation.answers kernelMain twoStarts blankState).2 M :=
  machine_refines_tree_machine (show blankState.disk.Perfect from rfl) blankState_new (twoStarts_plain _)

end EphemeralOS
