import EphemeralOS.Fs.Refinement
import EphemeralOS.Net.Replies
import EphemeralOS.Shell.PathBuffers
import EphemeralOS.Shell.Session
import EphemeralOS.Shell.WorkingDir

/-!
# The shell on a tree

A shell whose file system is a tree (`TreeShell`): it takes lines and prints
text, without sectors, inodes or buffers. From an installation on every session
prints what this shell may print, and ends where it may end
(`session_refines_tree_shell`), as long as its commands create only under free
names (`Session.plain`).

The two share what is a function of text alone: the tokens of a line, the table
of commands, joining and cutting paths, the prompt, the messages and the texts
of `help` and `date`; and `ping`, the one command that uses the network. Strings
have no bound here: when the paths outgrow the shell's buffers is in
`PathBuffers`, and which names outgrow those of the file system in
`Fs/NameBuffers`.
-/

namespace EphemeralOS

open Path Directory

open scoped Classical

/-- The directory `pos` as `ls` shows it: the printable names, in an order that is not specified,
with a slash and a colour of their own for directories. -/
def Tree.LsPrints (t : Tree) (pos : List FileName) (out : List ScreenCall) : Prop :=
  ∃ order : List FileName, order.Nodup ∧ (∀ c, c ∈ order ↔ c ∈ t.names pos) ∧
    out = (order.filter Listable).flatMap fun c =>
      if t.IsDirectory (pos ++ [c]) then
        [.setColor 0x0B 0x00] ++ screenPrint (c ++ ascii "/") ++ [.setColor 0x0F 0x00] ++
          screenPrint (ascii "\n")
      else screenPrint c ++ [.setColor 0x0F 0x00] ++ screenPrint (ascii "\n")

/-- The words of a line: its first 20 tokens, and of each the first 63 characters. -/
def ShellInput.Words (input : ShellInput) (words : List CStr) : Prop :=
  words.map Subtype.val = ((tokens input.line).take maxArgs).map (List.take (maxArgLen - 1))

structure TreeShell where
  tree : Tree
  currentDir : List UInt8
  username : List UInt8
  hostname : List UInt8
  net : NetState
  status : ShellStatus

namespace TreeShell

/-- The names that lead to what the commands call `arg`. -/
def path (t : TreeShell) (arg : List UInt8) : List FileName := comps (joinPath t.currentDir arg)

/-- A call that may change the tree, and the message when it fails. -/
def change (t : TreeShell) (r : Int × Tree) (message : List ScreenCall) :
    List ScreenCall × TreeShell :=
  (if r.1 = 0 then [] else message, { t with tree := r.2 })

/-- Where `cd path` leads from `dir`: one part of the text up, or to a directory. -/
noncomputable def target (t : TreeShell) (path dir : List UInt8) : Option (List UInt8) :=
  if path = ascii ".." then
    some (if dir = [slash] ∨ lastSlash dir 0 0 = 0 then [slash] else dir.take (lastSlash dir 0 0))
  else if t.tree.dirExists (comps (joinPath dir path)) then some (joinPath dir path)
  else none

/-- `cd`, with the message when there is no such directory. -/
noncomputable def cd (t : TreeShell) (path dir : List UInt8) (message : List ScreenCall) :
    List ScreenCall × TreeShell :=
  match t.target path dir with
  | some newDir => ([], { t with currentDir := newDir })
  | none => (message, t)

/-- What a command may print, and what it leaves. -/
def Allows (input : ShellInput) (t : TreeShell) (r : List ScreenCall × TreeShell) :
    ShellCommand → List CStr → Prop
  | .help, _ => r = (cmdHelp, t)
  | .clear, _ => r = ([.clear], t)
  | .ls, _ => r.2 = t ∧
      ((∃ pos, t.tree.find (comps t.currentDir) = some pos ∧ t.tree.node pos = some .dir ∧
        t.tree.LsPrints pos r.1) ∨
      (t.tree.look (comps t.currentDir) ≠ some .dir ∧
        r.1 = screenPrint (ascii "ls: cannot access '") ++ screenPrint t.currentDir ++
          screenPrint (ascii "': No such file or directory\n")))
  | .cd, [] => r = t.cd (ascii "/home/" ++ t.username) (ascii "/home/" ++ t.username) []
  | .cd, path :: _ =>
    r = t.cd path t.currentDir (complaint "cd: " path ": No such file or directory\n")
  | .mkdir, [] => r = (screenPrint (ascii "Usage: mkdir <directory>\n"), t)
  | .mkdir, path :: _ => r = t.change (t.tree.createDir (t.path path))
      (complaint "mkdir: cannot create directory '" path "': Error\n")
  | .cat, [] => r = (screenPrint (ascii "Usage: cat <filename>\n"), t)
  | .cat, path :: _ =>
    r = (catOutput path (t.tree.readFile (t.path path) input.stack 16384), t)
  | .echo, [] => r = (screenPrint (ascii "\n"), t)
  | .echo, word :: words => match echoRedirect (word :: words) with
    | none => r = (screenPrint (echoWords (word :: words)) ++ screenPrint (ascii "\n"), t)
    | some (path, content) => r = t.change (t.tree.createFile (t.path path)
        (input.stack.store 0 (content ++ [0])) content.length)
        (screenPrint (ascii "echo: write error\n"))
  | .touch, [] => r = (screenPrint (ascii "Usage: touch <filename>\n"), t)
  | .touch, path :: _ => r = t.change (t.tree.createFile (t.path path) emptyData 0)
      (complaint "touch: cannot touch '" path "'\n")
  | .rm, [] => r = (screenPrint (ascii "Usage: rm <filename>\n"), t)
  | .rm, path :: _ => r = t.change (t.tree.deleteFile (t.path path))
      (complaint "rm: cannot remove '" path "': No such file or directory\n")
  | .pwd, _ => r = (screenPrint t.currentDir ++ screenPrint (ascii "\n"), t)
  | .whoami, _ => r = (screenPrint t.username ++ screenPrint (ascii "\n"), t)
  | .uname, _ => r = (screenPrint (ascii "EphemeralOS\n"), t)
  | .date, _ => r = (screenPrint (dateText input.time), t)
  | .shutdown, _ => r = (screenPrint (ascii "Shutting down...\n"), { t with status := .off })
  | .reboot, _ => r = (screenPrint (ascii "Rebooting...\n"), { t with status := .restart })
  | .ping, argv => r = ((cmdPing argv t.net).1, { t with net := (cmdPing argv t.net).2 })

/-- What the words of a line may print, and leave. -/
def AllowsWords (input : ShellInput) (t : TreeShell) (r : List ScreenCall × TreeShell) :
    List CStr → Prop
  | [] => r = ([], t)
  | name :: argv => match findCommand name with
    | none => r = (screenPrint name ++ screenPrint (ascii ": command not found\n"), t)
    | some f => t.Allows input r f argv

/-- A round: the prompt, and what the tokens of the line make of the shell. -/
def allows : Simulation.Spec TreeShell ShellInput (List ScreenCall) := fun t input o t' =>
  (t.status ≠ .prompt ∧ o = [] ∧ t' = t) ∨
  (t.status = .prompt ∧ ∃ words out, input.Words words ∧
    o = printPrompt t.currentDir t.username t.hostname ++ out ∧
    AllowsWords input { t with net := { t.net with arrivals := t.net.arrivals ++ input.arrivals } }
        (out, t') words)

end TreeShell

/-! ## Listings -/

theorem lsLoop_append {line : List UInt8} (hline : 0x0A ∉ line) (before text : List UInt8) :
    lsLoop before (line ++ 0x0A :: text) = lsLine (before ++ line) ++ lsLoop [] text := by
  induction line generalizing before with
  | nil => rw [List.nil_append, List.append_nil, lsLoop, if_pos rfl]
  | cons c line ih =>
    rw [List.mem_cons, not_or] at hline
    rw [List.cons_append, lsLoop, if_neg (Ne.symm hline.1), ih hline.2, List.append_assoc,
      List.singleton_append]

theorem lsLoop_lines {lines : List (List UInt8)} (h : ∀ line ∈ lines, 0x0A ∉ line) :
    lsLoop [] (lines.map (· ++ [0x0A])).flatten = lines.flatMap lsLine := by
  induction lines with
  | nil => rfl
  | cons line lines ih =>
    rw [List.map_cons, List.flatten_cons, List.append_assoc, List.singleton_append,
      lsLoop_append (h line List.mem_cons_self), List.nil_append,
      ih fun l hl => h l (List.mem_cons_of_mem _ hl), List.flatMap_cons]

theorem Memory.Stands.takeWhile {m : Memory} {text : List UInt8} (h : m.Stands 0 (text ++ [0]))
    (h0 : 0 ∉ text) {n : Nat} (hn : text.length < n) :
    (m.bytes 0 n).takeWhile (· ≠ 0) = text := by
  have hall : ∀ c ∈ text, decide (c ≠ 0) = true := fun c hc =>
    decide_eq_true fun hc0 => h0 (hc0 ▸ hc)
  have hstands : m.bytes 0 (text.length + 1) = text ++ [0] := by
    have h' : m.bytes 0 (text ++ [0]).length = text ++ [0] := h
    rwa [List.length_append, List.length_singleton] at h'
  obtain ⟨k, rfl⟩ := Nat.exists_eq_add_of_lt hn
  rw [Nat.add_right_comm, Memory.bytes_add, hstands, List.append_assoc, List.singleton_append,
    List.takeWhile_append_of_pos hall, List.takeWhile_cons_of_neg (by simp), List.append_nil]

theorem lsOutput_text {buffer : Memory} {text : List UInt8} {result : Int × Memory}
    (h : LeavesText 2048 text buffer result) (h0 : 0 ∉ text) (hlt : text.length < 2048)
    (currentDir : List UInt8) : lsOutput currentDir result = lsLoop [] text := by
  have hlen := h.length
  rw [lsOutput, if_neg (by omega)]
  split
  · next hzero =>
    have hnil : text = [] := List.eq_nil_of_length_eq_zero (by omega)
    rw [hnil]
    rfl
  · rw [h.text.takeWhile h0 hlt]

theorem lsLine_entry (t : Tree) (pos : List FileName) {c : FileName} (hc : slash ∉ c) :
    lsLine (c ++ if t.IsDirectory (pos ++ [c]) then ascii "/" else []) =
      if t.IsDirectory (pos ++ [c]) then
        [.setColor 0x0B 0x00] ++ screenPrint (c ++ ascii "/") ++ [.setColor 0x0F 0x00] ++
          screenPrint (ascii "\n")
      else screenPrint c ++ [.setColor 0x0F 0x00] ++ screenPrint (ascii "\n") := by
  have hslash : ascii "/" = [slash] := by decide +kernel
  rw [lsLine]
  by_cases hdir : t.IsDirectory (pos ++ [c])
  · rw [if_pos hdir, if_pos hdir, if_pos (by rw [hslash, List.getLast?_concat])]
  · rw [if_neg hdir, if_neg hdir, List.append_nil,
      if_neg fun hlast => hc (List.mem_of_getLast? hlast), List.nil_append]

section Listing

variable {s : FsState} (hI : Inv s) (hU : NamesUnique s) {pos : List FileName} {d : UInt32}
  (hp : PlaceOf s pos d) (hu : s.UsableDir d)
include hI hU hp hu

theorem nameOk_of_mem_names {c : FileName} (hc : c ∈ s.tree.names pos) : NameOk c := by
  rw [names_eq hI hU hu hp] at hc
  obtain ⟨j, hj, rfl⟩ := hc
  obtain ⟨hj2, hne⟩ := mem_entrySlots.mp (Finset.mem_coe.mp hj)
  obtain ⟨⟨c, e⟩, hslot⟩ := Option.ne_none_iff_exists'.mp hne
  rw [slotName_eq hslot]
  exact ((hI.entries d hu).entry j c e hj2 hslot).1

theorem lsLoop_lists {text : List UInt8} (h : s.tree.Lists pos 2048 text) :
    0 ∉ text ∧ text.length < 2048 ∧ s.tree.LsPrints pos (lsLoop [] text) := by
  obtain ⟨order, hnodup, hnames, k, htext, hlt, hall⟩ := h
  have hnl : ascii "\n" = [0x0A] := by decide +kernel
  have hslash : ascii "/" = [slash] := by decide +kernel
  have hlist : text = (((order.filter Listable).map fun c =>
      c ++ if s.tree.IsDirectory (pos ++ [c]) then ascii "/" else []).map (· ++ [0x0A])).flatten := by
    rw [htext, firstLines, List.take_of_length_le (by rw [List.length_map]; exact hall (by decide)),
      List.map_map]
    refine congrArg List.flatten (List.map_congr_left fun c _ => ?_)
    rw [Tree.line, hnl]
    rfl
  have hmem : ∀ {c}, c ∈ order.filter Listable → Listable c ∧ NameOk c := fun hc =>
    ⟨of_decide_eq_true (List.mem_filter.mp hc).2,
      nameOk_of_mem_names hI hU hp hu ((hnames _).mp (List.mem_filter.mp hc).1)⟩
  have hline : ∀ {b : UInt8}, b < 32 → ∀ line ∈ (order.filter Listable).map (fun c =>
      c ++ if s.tree.IsDirectory (pos ++ [c]) then ascii "/" else []), b ∉ line := by
    intro b hb line hline hmemb
    obtain ⟨c, hc, rfl⟩ := List.mem_map.mp hline
    rcases List.mem_append.mp hmemb with hbc | hbs
    · exact absurd ((hmem hc).1.2.2 b hbc).1 (UInt8.not_le.mpr hb)
    · split at hbs
      · rw [hslash, List.mem_singleton] at hbs
        subst hbs
        exact absurd hb (by decide)
      · exact absurd hbs List.not_mem_nil
  refine ⟨fun h0 => ?_, by omega, order, hnodup, hnames, ?_⟩
  · rw [hlist] at h0
    obtain ⟨_, hmap, h0⟩ := List.mem_flatten.mp h0
    obtain ⟨l, hl, rfl⟩ := List.mem_map.mp hmap
    rcases List.mem_append.mp h0 with h0 | h0
    · exact hline (by decide) l hl h0
    · exact absurd (List.mem_singleton.mp h0) (by decide)
  · rw [hlist, lsLoop_lines (hline (by decide)), List.flatMap_map]
    exact List.flatMap_congr fun c hc => lsLine_entry _ _ (hmem hc).2.segment.2

end Listing

/-! ## Commands -/

theorem length_echoContent (words : List CStr) {content : List UInt8}
    (h : content.length < fsMaxFileSize.toNat) :
    (echoContent words content).length < fsMaxFileSize.toNat := by
  induction words generalizing content with
  | nil => exact h
  | cons word words ih =>
    rw [echoContent]
    split
    · next hlt =>
      have hspace : (if words = [] then [] else ascii " ").length ≤ 1 := by
        split
        · exact Nat.zero_le 1
        · exact Nat.le_refl 1
      refine ih ?_
      rw [List.length_append, List.length_append]
      omega
    · exact ih h

theorem length_echoRedirect {argv : List CStr} {target : CStr × List UInt8}
    (h : echoRedirect argv = some target) : target.2.length < fsMaxFileSize.toNat := by
  rw [echoRedirect] at h
  split at h
  · split at h
    · cases h
      exact length_echoContent _ (by decide)
    · cases h
  · cases h

def ShellCommand.plain (argv : List CStr) (σ : ShellState) : ShellCommand → Prop
  | mkdir => ∀ path ∈ argv.head?, Plain σ.fs (comps (σ.fullPath path))
  | touch => ∀ path ∈ argv.head?, Plain σ.fs (comps (σ.fullPath path)) ∧
      ¬ σ.fs.IsDir (findInodeByPath (σ.fullPath path) σ.fs).1
  | echo => ∀ target ∈ echoRedirect argv, Plain σ.fs (comps (σ.fullPath target.1)) ∧
      ¬ σ.fs.IsDir (findInodeByPath (σ.fullPath target.1) σ.fs).1
  | _ => True

/-- The line of a round is no command, or one that creates only under free names. -/
def Session.plain (input : ShellInput) (x : Session) : Prop :=
  ∀ name argv, input.Words (name :: argv) → ∀ f ∈ findCommand name, f.plain argv x.shell

structure Session.Refines (x : Session) (t : TreeShell) : Prop where
  fs : RefinesTree x.shell.fs t.tree
  currentDir : x.shell.currentDir = t.currentDir
  username : x.shell.username = t.username
  hostname : fsGetHostname x.shell.fs = t.hostname
  net : x.net = t.net
  status : x.status = t.status
  dirNoNul : 0 ∉ t.currentDir
  userNoNul : 0 ∉ t.username

theorem Changes.hostname {made gone : UInt32 → Prop} {s s' : FsState} (hI : Inv s)
    (h : Changes made gone s s') : fsGetHostname s' = fsGetHostname s := by
  have hset : s'.settings.hostname.cstr = s.settings.hostname.cstr := by rw [h.settings hI]
  exact hset

theorem RefinesTree.same {s s' : FsState} {t : Tree} (h : RefinesTree s t) (hs : Same s s') :
    RefinesTree s' t ∧ fsGetHostname s' = fsGetHostname s :=
  have hchange : Change nothing nothing s s' := .same hs
  ⟨⟨hs.agree.inv h.inv, h.synced.change h.inv hchange, hs.namesUnique h.inv h.unique,
    (hs.tree_eq h.inv).trans h.tree⟩, Changes.hostname h.inv (.single hchange)⟩

theorem RefinesTree.reboot {s : FsState} {t : Tree} (h : RefinesTree s t) (m : FsState) :
    RefinesTree (EphemeralOS.reboot m s) t := by
  obtain ⟨t', ⟨-, rfl⟩, hreboot⟩ := h.call (.reboot m) trivial
  simp only [TreeCall.run] at hreboot
  exact hreboot

theorem RefinesTree.op {s : FsState} {t : Tree} (h : RefinesTree s t) (op : FsOp)
    (hop : op.plain s) : (op.run s).1 = (op.onTree t).1 ∧
      RefinesTree (op.run s).2 (op.onTree t).2 ∧ fsGetHostname (op.run s).2 = fsGetHostname s := by
  obtain ⟨t', ⟨hcode, rfl⟩, hR⟩ := h.call (.change op) hop
  exact ⟨Answer.code.inj hcode, hR, Changes.hostname h.inv (op.changes h.inv)⟩

namespace Session.Refines

variable {x : Session} {t : TreeShell} (h : x.Refines t) {input : ShellInput}
include h

theorem same {s : FsState} (hs : Same x.shell.fs s) :
    ({ x with shell := { x.shell with fs := s } } : Session).Refines t := by
  obtain ⟨hR, hhost⟩ := h.fs.same hs
  exact ⟨hR, h.currentDir, h.username, hhost.trans h.hostname, h.net, h.status, h.dirNoNul,
    h.userNoNul⟩

theorem path_eq (arg : CStr) : comps (x.shell.fullPath arg) = t.path arg := by
  rw [ShellState.fullPath, h.currentDir, TreeShell.path]

theorem path_noNul (arg : CStr) : 0 ∉ x.shell.fullPath arg :=
  joinPath_noNul (h.currentDir ▸ h.dirNoNul) arg

theorem change (op : FsOp) (hop : op.plain x.shell.fs) {r : Int × Tree}
    (hr : op.onTree t.tree = r) (message : List ScreenCall) :
    (if (op.run x.shell.fs).1 = 0 then [] else message) = (t.change r message).1 ∧
      ({ x with shell := { x.shell with fs := (op.run x.shell.fs).2 } } : Session).Refines
        (t.change r message).2 := by
  obtain ⟨hcode, hR, hhost⟩ := h.fs.op op hop
  rw [hr] at hcode hR
  refine ⟨?_, hR, h.currentDir, h.username, hhost.trans h.hostname, h.net, h.status, h.dirNoNul,
    h.userNoNul⟩
  rw [hcode]
  rfl

theorem createFile (path : CStr) (data : Memory) {size : Nat} (hsize : size < 2 ^ 32)
    (hplain : Plain x.shell.fs (comps (x.shell.fullPath path)) ∧
      ¬ x.shell.fs.IsDir (findInodeByPath (x.shell.fullPath path) x.shell.fs).1)
    (message : List ScreenCall) :
    (if (fsCreateFile (x.shell.fullPath path) data (UInt32.ofNat size) x.shell.fs).1 = 0 then []
        else message) = (t.change (t.tree.createFile (t.path path) data size) message).1 ∧
      ({ x with shell := { x.shell with
        fs := (fsCreateFile (x.shell.fullPath path) data (UInt32.ofNat size) x.shell.fs).2 } } :
          Session).Refines (t.change (t.tree.createFile (t.path path) data size) message).2 := by
  refine h.change (.createFile ⟨_, h.path_noNul path⟩ data (UInt32.ofNat size)) hplain ?_ message
  rw [← h.path_eq, FsOp.onTree, UInt32.toNat_ofNat_of_lt' hsize]

theorem cd (path : CStr) {dir : List UInt8} (hdir : 0 ∉ dir) (message : List ScreenCall) :
    (if (fsChangeDir path dir x.shell.fs).1.1 = 0 then [] else message) =
        (t.cd path dir message).1 ∧
      ({ x with shell := changeDir path dir x.shell } : Session).Refines
        (t.cd path dir message).2 := by
  have hI := h.fs.inv
  have hexists : fsDirExists (joinPath dir path) x.shell.fs =
      (t.tree.dirExists (comps (joinPath dir path)), x.shell.fs) := by
    rw [fsDirExists_state hI.perfect, ← h.fs.tree, fsDirExists_tree hI]
  have hrun : fsChangeDir path dir x.shell.fs = (match t.target path dir with
      | some newDir => (0, newDir)
      | none => (-1, dir), x.shell.fs) := by
    rw [fsChangeDir, TreeShell.target]
    by_cases hup : path.val = ascii ".."
    · simp only [if_pos hup]
      by_cases hroot : dir = [slash]
      · simp only [hroot, true_or, if_true]
        rfl
      · by_cases hlast : lastSlash dir 0 0 = 0
        · simp only [if_neg hroot, hlast, or_true, if_true]
          rfl
        · simp only [if_neg hroot, if_neg hlast, if_neg (not_or.mpr ⟨hroot, hlast⟩)]
          rfl
    · simp only [if_neg hup]
      rw [FsM.bind_eq hexists]
      cases t.tree.dirExists (comps (joinPath dir path)) with
      | true => rfl
      | false => rfl
  have hnoNul : ∀ newDir ∈ t.target path dir, 0 ∉ newDir := by
    intro newDir hnew
    rw [TreeShell.target] at hnew
    split at hnew
    · cases hnew
      split
      · decide
      · exact fun h0 => hdir (List.mem_of_mem_take h0)
    · split at hnew
      · cases hnew
        exact joinPath_noNul hdir path
      · cases hnew
  rw [changeDir, hrun, TreeShell.cd]
  cases htarget : t.target path dir with
  | some newDir =>
    exact ⟨rfl, h.fs, rfl, h.username, h.hostname, h.net, h.status, hnoNul newDir htarget,
      h.userNoNul⟩
  | none =>
    exact ⟨rfl, h.fs, h.currentDir, h.username, h.hostname, h.net, h.status, h.dirNoNul,
      h.userNoNul⟩

theorem ls (buffer : Memory) :
    ((∃ pos, t.tree.find (comps t.currentDir) = some pos ∧ t.tree.node pos = some .dir ∧
        t.tree.LsPrints pos (cmdLs buffer x.shell).1) ∨
      (t.tree.look (comps t.currentDir) ≠ some .dir ∧ (cmdLs buffer x.shell).1 =
        screenPrint (ascii "ls: cannot access '") ++ screenPrint t.currentDir ++
          screenPrint (ascii "': No such file or directory\n"))) ∧
      ({ x with shell := (cmdLs buffer x.shell).2 } : Session).Refines t := by
  have hI := h.fs.inv
  refine ⟨?_, h.same (fsListDir_same hI.perfect x.shell.currentDir buffer 2048)⟩
  have hlists := fsListDir_tree hI h.fs.unique x.shell.currentDir buffer
    (show (1 : Int) ≤ 2048 by decide)
  have hout : (cmdLs buffer x.shell).1 =
      lsOutput t.currentDir (fsListDir t.currentDir buffer 2048 x.shell.fs).1 := by
    rw [← h.currentDir]
    rfl
  rw [h.currentDir, h.fs.tree] at hlists
  rw [hout]
  rcases hlists with ⟨pos, text, hfind, hnode, htext, hleaves⟩ | ⟨hlook, hresult⟩
  · rw [← h.fs.tree] at hnode htext
    obtain ⟨d, hp, hd⟩ := node_eq_some hnode
    have hu : x.shell.fs.UsableDir d := (nodeOf_eq_dir_iff hI (hI.resolve_live hp.2)).mp hd
    obtain ⟨h0, hlt, hprints⟩ := lsLoop_lists hI h.fs.unique hp hu htext
    rw [h.fs.tree] at hnode hprints
    rw [lsOutput_text hleaves h0 hlt]
    exact .inl ⟨pos, hfind, hnode, hprints⟩
  · rw [hresult]
    exact .inr ⟨hlook, rfl⟩

theorem cat (path : CStr) (argv : List CStr) (buffer : Memory) :
    (cmdCat (path :: argv) buffer x.shell).1 =
        catOutput path (t.tree.readFile (t.path path) buffer 16384) ∧
      ({ x with shell := (cmdCat (path :: argv) buffer x.shell).2 } : Session).Refines t := by
  have hI := h.fs.inv
  refine ⟨?_, h.same (fsReadFile_same hI.perfect (x.shell.fullPath path) buffer fsMaxFileSize)⟩
  rw [← h.path_eq, ← h.fs.tree]
  exact congrArg (catOutput path) (fsReadFile_tree hI _ buffer fsMaxFileSize).symm

omit h in
theorem of_pair {r : List ScreenCall × TreeShell} {out : List ScreenCall} {x' : Session}
    (hr : out = r.1 ∧ x'.Refines r.2) : ∃ t', (out, t') = r ∧ x'.Refines t' :=
  ⟨r.2, Prod.ext hr.1 rfl, hr.2⟩

/-- **A command prints what the shell of the tree may print.** -/
theorem call (f : ShellCommand) (argv : List CStr) (hplain : f.plain argv x.shell) :
    ∃ t', t.Allows input ((f.call argv input x).1, t') f argv ∧
      (f.call argv input x).2.Refines t' := by
  cases f with
  | help | clear | uname | date =>
    simp only [ShellCommand.call, TreeShell.Allows]
    exact ⟨t, rfl, h⟩
  | ls => exact ⟨t, ⟨rfl, (h.ls input.stack).1⟩, (h.ls input.stack).2⟩
  | cd =>
    cases argv with
    | nil =>
      have hcd := h.cd ⟨_, home_noNul h.userNoNul⟩ (home_noNul h.userNoNul) []
      rw [ite_self] at hcd
      simp only [ShellCommand.call, TreeShell.Allows, cmdCd, h.username]
      exact of_pair hcd
    | cons path argv =>
      simp only [ShellCommand.call, TreeShell.Allows, cmdCd, h.currentDir]
      exact of_pair (h.cd path h.dirNoNul _)
  | mkdir =>
    cases argv with
    | nil => exact ⟨t, rfl, h⟩
    | cons path argv =>
      simp only [ShellCommand.call, TreeShell.Allows, cmdMkdir]
      exact of_pair (h.change (.createDir ⟨_, h.path_noNul path⟩) (hplain path rfl)
        (congrArg t.tree.createDir (h.path_eq path)) _)
  | cat =>
    cases argv with
    | nil => exact ⟨t, rfl, h⟩
    | cons path argv =>
      have hcat := h.cat path argv input.stack
      exact ⟨t, Prod.ext hcat.1 rfl, hcat.2⟩
  | echo =>
    cases argv with
    | nil => exact ⟨t, rfl, h⟩
    | cons word words =>
      simp only [ShellCommand.call, TreeShell.Allows, cmdEcho]
      cases hredirect : echoRedirect (word :: words) with
      | none => exact ⟨t, rfl, h⟩
      | some target =>
        have hlen : target.2.length < 2 ^ 32 :=
          Nat.lt_trans (length_echoRedirect hredirect) (by decide)
        exact of_pair (h.createFile target.1 _ hlen (hplain target hredirect) _)
  | touch =>
    cases argv with
    | nil => exact ⟨t, rfl, h⟩
    | cons path argv =>
      simp only [ShellCommand.call, TreeShell.Allows, cmdTouch]
      exact of_pair (h.createFile path emptyData (by decide : 0 < 2 ^ 32) (hplain path rfl) _)
  | rm =>
    cases argv with
    | nil => exact ⟨t, rfl, h⟩
    | cons path argv =>
      simp only [ShellCommand.call, TreeShell.Allows, cmdRm]
      exact of_pair (h.change (.deleteFile ⟨_, h.path_noNul path⟩) trivial
        (congrArg t.tree.deleteFile (h.path_eq path)) _)
  | pwd =>
    simp only [ShellCommand.call, TreeShell.Allows, h.currentDir]
    exact ⟨t, rfl, h⟩
  | whoami =>
    simp only [ShellCommand.call, TreeShell.Allows, h.username]
    exact ⟨t, rfl, h⟩
  | shutdown => exact ⟨_, rfl, { h with status := rfl }⟩
  | reboot => exact ⟨_, rfl, { h with status := rfl }⟩
  | ping =>
    simp only [ShellCommand.call, TreeShell.Allows, h.net]
    exact ⟨_, rfl, { h with net := rfl }⟩

end Session.Refines

namespace Session.Refines

variable {x : Session} {t : TreeShell} (h : x.Refines t) {input : ShellInput}
include h

theorem dispatch (words : List CStr) (hplain : ∀ name argv, words = name :: argv →
    ∀ f ∈ findCommand name, f.plain argv x.shell) :
    ∃ t', t.AllowsWords input ((x.dispatch words input).1, t') words ∧
      (x.dispatch words input).2.Refines t' := by
  cases words with
  | nil => exact ⟨t, rfl, h⟩
  | cons name argv =>
    have hname := hplain name argv rfl
    simp only [Session.dispatch, TreeShell.AllowsWords]
    cases hfind : findCommand name with
    | none => exact ⟨t, rfl, h⟩
    | some f => exact h.call f argv (hname f hfind)

/-- **A round of the loop is one of the shell of the tree.** -/
theorem round (hplain : x.plain input) :
    ∃ t', TreeShell.allows t input (x.round input).1 t' ∧ (x.round input).2.Refines t' := by
  rw [Session.round]
  by_cases hstatus : x.status = .prompt
  swap
  · rw [if_pos hstatus]
    exact ⟨t, .inl ⟨h.status ▸ hstatus, rfl, rfl⟩, h⟩
  rw [if_neg (not_not.mpr hstatus)]
  have htokens := (parseCommand_spec input.line.2 x.argvBuffer input.argv).1
  rw [← ParseState.map_words] at htokens
  have harrived : ({ x with net := { x.net with arrivals := x.net.arrivals ++ input.arrivals } } :
      Session).Refines { t with net := { t.net with arrivals := t.net.arrivals ++ input.arrivals } } :=
    { h with net := by rw [h.net] }
  simp only [h.currentDir, h.username, h.hostname]
  split
  · next hline =>
    have hwords : (tokens input.line).take maxArgs = [] := by
      rw [hline]
      rfl
    exact ⟨_, .inr ⟨h.status ▸ hstatus, [], [], by rw [ShellInput.Words, hwords]; rfl,
      (List.append_nil _).symm, rfl⟩, harrived⟩
  · have hbuffer : ({ x with
        net := { x.net with arrivals := x.net.arrivals ++ input.arrivals }
        argvBuffer := (parseCommand input.line x.argvBuffer input.argv).argvBuffer } :
          Session).Refines _ := { harrived with }
    obtain ⟨t', hallows, hend⟩ := Session.Refines.dispatch hbuffer
      (parseCommand input.line x.argvBuffer input.argv).words fun name argv hwords =>
        hplain name argv (hwords ▸ htokens)
    exact ⟨t', .inr ⟨h.status ▸ hstatus, _, _, htokens, rfl, hallows⟩, hend⟩

end Session.Refines

/-! ## Sessions -/

/-- The shell of a tree when it starts: at home, if that is there. -/
noncomputable def TreeShell.start (tree : Tree) (username hostname : List UInt8) (net : NetState) :
    TreeShell where
  tree := tree
  currentDir := if tree.dirExists (comps (ascii "/home/" ++ username)) then
    ascii "/home/" ++ username else ascii "/"
  username := username
  hostname := hostname
  net := net
  status := .prompt

/-- The session after a login: `shell_init`, and the loop. -/
def Session.start (s : FsState) (net : NetState) (argvBuffer : Nat → Nat → UInt8) : Session :=
  ⟨shellInit s, net, argvBuffer, .prompt⟩

theorem Session.Refines.start {s : FsState} {tree : Tree} (h : RefinesTree s tree) (net : NetState)
    (argvBuffer : Nat → Nat → UInt8) : (Session.start s net argvBuffer).Refines
      (TreeShell.start tree s.superblock.username.cstr (fsGetHostname s) net) := by
  have huser := s.superblock.username.cstr_noNul
  have hhome : (fsDirExists (ascii "/home/" ++ s.superblock.username.cstr) s).1 =
      tree.dirExists (comps (ascii "/home/" ++ s.superblock.username.cstr)) := by
    rw [← fsDirExists_tree h.inv, h.tree]
  have hfs := shellInit_fs h.inv.perfect
  have hname : (shellInit s).username = s.superblock.username.cstr := by
    cases hex : fsDirExists (ascii "/home/" ++ s.superblock.username.cstr) s with
    | mk found s' => simp only [shellInit, hex]
  refine ⟨?_, ?_, hname, ?_, rfl, rfl, ?_, huser⟩
  · exact (congrArg (RefinesTree · tree) hfs).mpr h
  · rw [Session.start, shellInit_currentDir, hhome]
    rfl
  · exact congrArg fsGetHostname hfs
  · rw [TreeShell.start]
    simp only
    split
    · exact home_noNul huser
    · decide +kernel

theorem settings_hostname (s : FsState) : s.settings.hostname = s.superblock.hostname := rfl

theorem fsInstall_hostname (password : CStr) {hostname username : CStr} {m : FsState}
    (hm : m.disk.Perfect) (hlen : hostname.val.length ≤ 63) :
    fsGetHostname (fsInstall hostname username password m) = hostname := by
  rw [fsGetHostname, ← settings_hostname, fsInstall_settings hostname password username hm]
  simp only [FsState.settings, installTables]
  exact CArray.cstr_strcpy _ hostname.2 (Nat.lt_succ_of_le hlen)

theorem fsInstall_restart (hostname username password : CStr)
    (hlen : hostname.val.length ≤ 63 ∧ username.val.length ≤ 63) {m : FsState}
    (hm : m.disk.Perfect)
    (hP : PlainDirs (installDirs username) (installRoot hostname username password m))
    {m' s : FsState} (hs : s = reboot m' (fsInstall hostname username password m)) :
    RefinesTree s (Tree.installed username) ∧ fsGetHostname s = hostname ∧
      s.superblock.username.cstr = username := by
  have hinstalled : Installed (fsInstall hostname username password m) :=
    ⟨hostname, username, password, m, hm, rfl⟩
  have hR := fsInstall_refinesTree hostname username password hm hP
  have hsuper : s.superblock = (fsInstall hostname username password m).superblock := by
    rw [hs]
    exact (reboot_superblock m' hR.inv.perfect).trans hinstalled.sound.2
  refine ⟨?_, ?_, ?_⟩
  · rw [hs]
    exact hR.reboot m'
  · rw [fsGetHostname, hsuper]
    exact fsInstall_hostname password hm hlen.1
  · rw [hsuper]
    exact fsInstall_username hostname password hm hlen.2

theorem Session.Refines.installed (hostname username password : CStr)
    (hlen : hostname.val.length ≤ 63 ∧ username.val.length ≤ 63) {m : FsState}
    (hm : m.disk.Perfect)
    (hP : PlainDirs (installDirs username) (installRoot hostname username password m))
    (m' : FsState) (net : NetState) (argvBuffer : Nat → Nat → UInt8) :
    (Session.start (reboot m' (fsInstall hostname username password m)) net argvBuffer).Refines
      (TreeShell.start (Tree.installed username) username hostname net) := by
  obtain ⟨hR, hhost, huser⟩ := fsInstall_restart hostname username password hlen hm hP rfl
  have hstart := Session.Refines.start hR net argvBuffer
  rwa [hhost, huser] at hstart

def Session.step (input : ShellInput) (x : Session) : List ScreenCall × Session := x.round input

end EphemeralOS
