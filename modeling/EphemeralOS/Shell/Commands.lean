import EphemeralOS.Fs.Ops

/-!
# The shell's commands

`shell_init` (`shell/shell.c`) and the commands that change the working
directory or the file system: `cmd_cd`, `cmd_mkdir`, `cmd_touch`, `cmd_rm`,
`cmd_echo` (`bin/`). What they print is left out, and the buffers that they
copy paths to are taken to be large enough.
-/

namespace EphemeralOS

/-- The static objects of `shell.c`, and the file system. -/
structure ShellState where
  fs : FsState
  currentDir : List UInt8
  username : List UInt8

def shellInit (s : FsState) : ShellState :=
  let username := s.superblock.username.cstr
  let userHome := ascii "/home/" ++ username
  let (found, s) := fsDirExists userHome s
  ⟨s, if found then userHome else ascii "/", username⟩

section Init

variable {s : FsState}

theorem shellInit_found
    (h : fsDirExists (ascii "/home/" ++ s.superblock.username.cstr) s = (true, s)) :
    shellInit s = ⟨s, ascii "/home/" ++ s.superblock.username.cstr, s.superblock.username.cstr⟩ := by
  simp only [shellInit, h]
  rfl

theorem shellInit_not_found
    (h : fsDirExists (ascii "/home/" ++ s.superblock.username.cstr) s = (false, s)) :
    shellInit s = ⟨s, ascii "/", s.superblock.username.cstr⟩ := by
  simp only [shellInit, h]
  rfl

theorem shellInit_home {username : List UInt8} (hu : s.superblock.username.cstr = username)
    (h : fsDirExists (ascii "/home/" ++ username) s = (true, s)) :
    (shellInit s).currentDir = ascii "/home/" ++ username := by
  subst hu
  rw [shellInit_found h]

end Init

/-- `fs_change_dir`, and `shell_set_current_dir` when it succeeds. -/
def changeDir (path newDir : List UInt8) (σ : ShellState) : ShellState :=
  let ((result, newDir), s) := fsChangeDir path newDir σ.fs
  { σ with fs := s, currentDir := if result = 0 then newDir else σ.currentDir }

/-- `cmd_cd`; `argv` without the command's name. -/
def cmdCd (argv : List CStr) (σ : ShellState) : ShellState :=
  match argv with
  | [] =>
    let newDir := ascii "/home/" ++ σ.username
    changeDir newDir newDir σ
  | path :: _ => changeDir path σ.currentDir σ

def ShellState.fullPath (σ : ShellState) (arg : CStr) : List UInt8 := joinPath σ.currentDir arg

def cmdMkdir (argv : List CStr) (σ : ShellState) : ShellState :=
  match argv with
  | [] => σ
  | path :: _ => { σ with fs := (fsCreateDir (σ.fullPath path) σ.fs).2 }

def emptyData : Memory := fun _ => 0

def cmdTouch (argv : List CStr) (σ : ShellState) : ShellState :=
  match argv with
  | [] => σ
  | path :: _ => { σ with fs := (fsCreateFile (σ.fullPath path) emptyData 0 σ.fs).2 }

def cmdRm (argv : List CStr) (σ : ShellState) : ShellState :=
  match argv with
  | [] => σ
  | path :: _ => { σ with fs := (fsDeleteFile (σ.fullPath path) σ.fs).2 }

/-- The loop of `cmd_echo`: the words, with a space after each but the last. -/
def echoContent : List CStr → List UInt8 → List UInt8
  | [], content => content
  | word :: words, content =>
    if content.length + word.val.length + 1 < fsMaxFileSize.toNat then
      echoContent words (content ++ word ++ if words = [] then [] else ascii " ")
    else echoContent words content

/-- The file and the content of `echo words > file`. -/
def echoRedirect (argv : List CStr) : Option (CStr × List UInt8) :=
  match argv.reverse with
  | path :: redirect :: words =>
    if words ≠ [] ∧ redirect.val = ascii ">" then some (path, echoContent words.reverse []) else none
  | _ => none

/-- `cmd_echo`; what follows the content is whatever the stack holds. -/
def cmdEcho (argv : List CStr) (stack : Memory) (σ : ShellState) : ShellState :=
  match echoRedirect argv with
  | some (path, content) =>
    { σ with fs := (fsCreateFile (σ.fullPath path) (stack.store 0 (content ++ [0]))
        (UInt32.ofNat content.length) σ.fs).2 }
  | none => σ

/-- A command line of the shell, its words without the command's name. -/
inductive Command
  | cd (argv : List CStr)
  | mkdir (argv : List CStr)
  | touch (argv : List CStr)
  | rm (argv : List CStr)
  | echo (argv : List CStr) (stack : Memory)

def Command.step : Command → ShellState → ShellState
  | cd argv => cmdCd argv
  | mkdir argv => cmdMkdir argv
  | touch argv => cmdTouch argv
  | rm argv => cmdRm argv
  | echo argv stack => cmdEcho argv stack

namespace Command

variable (σ : ShellState) (path : CStr) (argv : List CStr) (stack : Memory)

theorem step_cd_nil : (cd []).step σ =
    changeDir (ascii "/home/" ++ σ.username) (ascii "/home/" ++ σ.username) σ := rfl

theorem step_cd : (cd (path :: argv)).step σ = changeDir path σ.currentDir σ := rfl

theorem step_mkdir : (mkdir (path :: argv)).step σ =
    { σ with fs := (fsCreateDir (σ.fullPath path) σ.fs).2 } := rfl

theorem step_touch : (touch (path :: argv)).step σ =
    { σ with fs := (fsCreateFile (σ.fullPath path) emptyData 0 σ.fs).2 } := rfl

theorem step_rm : (rm (path :: argv)).step σ =
    { σ with fs := (fsDeleteFile (σ.fullPath path) σ.fs).2 } := rfl

variable {σ argv stack}

theorem step_echo_none (h : echoRedirect argv = none) : (echo argv stack).step σ = σ := by
  show cmdEcho argv stack σ = σ
  rw [cmdEcho, h]

theorem step_echo {target : CStr × List UInt8} (h : echoRedirect argv = some target) :
    (echo argv stack).step σ =
      { σ with fs := (fsCreateFile (σ.fullPath target.1) (stack.store 0 (target.2 ++ [0]))
          (UInt32.ofNat target.2.length) σ.fs).2 } := by
  show cmdEcho argv stack σ = _
  rw [cmdEcho, h]

end Command

end EphemeralOS
