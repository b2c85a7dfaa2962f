import EphemeralOS.Drivers.Rtc
import EphemeralOS.Drivers.Screen
import EphemeralOS.Fs.Credentials
import EphemeralOS.Net.Literals
import EphemeralOS.Shell.Commands
import EphemeralOS.Shell.ParseCommand

/-!
# The shell's loop

`shell_run` (`shell/shell.c`): the prompt, the table of commands and all that
these (`bin/`) print, as calls of the screen. A round of the loop is
`Session.round`; what the keyboard driver echoes while a line is typed is left
out, and so are the delays. As in `Shell.Commands` the buffers for paths are
taken to be large enough.
-/

namespace EphemeralOS

def screenPrint (str : List UInt8) : List ScreenCall := str.map .printChar

def printed (calls : List ScreenCall) : List UInt8 :=
  calls.filterMap fun
    | .printChar c => some c
    | _ => none

@[simp] theorem printed_nil : printed [] = [] := rfl

@[simp] theorem printed_setColor (foreground background : UInt8) (calls : List ScreenCall) :
    printed (.setColor foreground background :: calls) = printed calls := rfl

def fsGetHostname (s : FsState) : List UInt8 := s.superblock.hostname.cstr

def getDisplayPath (currentDir username : List UInt8) : List UInt8 :=
  let userHome := ascii "/home/" ++ username
  if currentDir = userHome then ascii "~"
  else if currentDir.length > userHome.length ∧ currentDir.getD userHome.length 0 = slash ∧
      currentDir.take userHome.length = userHome then
    ascii "~" ++ currentDir.drop userHome.length
  else currentDir

def printPrompt (currentDir username hostname : List UInt8) : List ScreenCall :=
  [.setColor 0x0A 0x00] ++ screenPrint username ++
  [.setColor 0x0F 0x00] ++ screenPrint (ascii "@") ++
  [.setColor 0x0B 0x00] ++ screenPrint hostname ++
  [.setColor 0x0F 0x00] ++ screenPrint (ascii ":") ++
  [.setColor 0x0E 0x00] ++ screenPrint (getDisplayPath currentDir username) ++
  [.setColor 0x0F 0x00] ++ screenPrint (ascii "$ ")

/-! ## Commands that print -/

def complaint (before : String) (arg : CStr) (after : String) : List ScreenCall :=
  screenPrint (ascii before) ++ screenPrint arg ++ screenPrint (ascii after)

/-- The text of `cmd_help`. -/
def helpLines : List String :=
  ["\nEphemeralOS Available Commands:\n",
   "================================\n",
   "help      - Show this help message\n",
   "clear     - Clear the screen\n",
   "ls        - List files and directories\n",
   "cd        - Change directory\n",
   "mkdir     - Create directory\n",
   "cat       - Display file contents\n",
   "echo      - Print text or create file\n",
   "touch     - Create empty file\n",
   "rm        - Remove file\n",
   "pwd       - Print working directory\n",
   "whoami    - Print current user\n",
   "uname     - Show system information\n",
   "date      - Show current date/time\n",
   "shutdown  - Power off the system\n",
   "reboot    - Restart the system\n\n",
   "ping      - Test network connectivity\n"]

def cmdHelp : List ScreenCall := helpLines.flatMap fun line => screenPrint (ascii line)

/-- A line of `cmd_ls`. -/
def lsLine (line : List UInt8) : List ScreenCall :=
  (if line.getLast? = some slash then [.setColor 0x0B 0x00] else []) ++ screenPrint line ++
    [.setColor 0x0F 0x00] ++ screenPrint (ascii "\n")

/-- The loop of `cmd_ls` over the text in its buffer, of which `line` has been passed. -/
def lsLoop : List UInt8 → List UInt8 → List ScreenCall
  | line, [] => if line = [] then [] else lsLine line
  | line, c :: text =>
    if c = 0x0A then lsLine line ++ lsLoop [] text else lsLoop (line ++ [c]) text

/-- What `cmd_ls` prints; `buffer` has 2048 bytes. -/
def lsOutput (currentDir : List UInt8) (result : Int × Memory) : List ScreenCall :=
  if result.1 < 0 then
    screenPrint (ascii "ls: cannot access '") ++ screenPrint currentDir ++
      screenPrint (ascii "': No such file or directory\n")
  else if result.1 = 0 then []
  else lsLoop [] ((result.2.bytes 0 2048).takeWhile (· ≠ 0))

def cmdLs (buffer : Memory) (σ : ShellState) : List ScreenCall × ShellState :=
  let (result, s) := fsListDir σ.currentDir buffer 2048 σ.fs
  (lsOutput σ.currentDir result, { σ with fs := s })

/-- What `cmd_cat` prints. -/
def catOutput (arg : CStr) (result : Int × Memory) : List ScreenCall :=
  if result.1 < 0 then complaint "cat: " arg ": No such file or directory\n"
  else
    let size := result.1.toNat
    screenPrint (result.2.bytes 0 size) ++
      if size > 0 ∧ result.2 (size - 1) ≠ 0x0A then screenPrint (ascii "\n") else []

def cmdCat (argv : List CStr) (buffer : Memory) (σ : ShellState) :
    List ScreenCall × ShellState :=
  match argv with
  | [] => (screenPrint (ascii "Usage: cat <filename>\n"), σ)
  | path :: _ =>
    let (result, s) := fsReadFile (σ.fullPath path) buffer fsMaxFileSize σ.fs
    (catOutput path result, { σ with fs := s })

/-- The words that `cmd_echo` prints, with a space between them. -/
def echoWords : List CStr → List UInt8
  | [] => []
  | word :: words => word ++ (if words = [] then [] else ascii " ") ++ echoWords words

/-! ### `date` -/

def intToStr (num minWidth : Nat) : List UInt8 :=
  let digits := printOctet num
  List.replicate (minWidth - digits.length) 0x20 ++ digits

def weekdayNames : List String := ["Sun", "Mon", "Tue", "Wed", "Thu", "Fri", "Sat"]

def monthNames : List String :=
  ["Jan", "Feb", "Mar", "Apr", "May", "Jun", "Jul", "Aug", "Sep", "Oct", "Nov", "Dec"]

/-- The entry for a number from 1 on, or the first one. -/
def nameOf (names : List String) (n : UInt8) : List UInt8 :=
  ascii (if 1 ≤ n.toNat ∧ n.toNat ≤ names.length then names.getD (n.toNat - 1) "" else
    names.getD 0 "")

def timeField (n : UInt8) : List UInt8 :=
  let numStr := intToStr n.toNat 2
  (if numStr.length = 1 then ascii "0" else []) ++ numStr

/-- `rtc_time_t`. -/
structure Clock extends RtcTime where
  weekday : UInt8

/-- What `cmd_date` puts in its buffer. -/
def dateText (time : Clock) : List UInt8 :=
  nameOf weekdayNames time.weekday ++ ascii " " ++ nameOf monthNames time.month ++ ascii " " ++
  intToStr time.day.toNat 2 ++ ascii " " ++
  timeField time.hour ++ ascii ":" ++ timeField time.minute ++ ascii ":" ++
  timeField time.second ++ ascii " UTC " ++ intToStr time.year.toNat 4 ++ ascii "\n"

/-! ### `ping` -/

/-- A round of `cmd_ping`. -/
def pingRound (targetIp : UInt32) (sequence : UInt16) (s : NetState) : Bool × NetState :=
  icmpWaitReply targetIp sequence 1000
    (icmpSendEchoRequest ethReceiveFrame targetIp 1234 sequence s)

def pingReport (targetIp : UInt32) (answered : Bool) : List ScreenCall :=
  if answered then
    screenPrint (ascii "Reply from ") ++ screenPrint (printIp targetIp) ++
      screenPrint (ascii ": bytes=64 time<1ms TTL=64\n")
  else screenPrint (ascii "Request timed out.\n")

/-- The rounds of `cmd_ping`, and how many were answered. -/
def pingLoop (targetIp : UInt32) : List UInt16 → NetState → List ScreenCall × Nat × NetState
  | [], s => ([], 0, s)
  | sequence :: sequences, s =>
    let (answered, s) := pingRound targetIp sequence s
    let (out, received, s) := pingLoop targetIp sequences s
    (pingReport targetIp answered ++ out, received + answered.toNat, s)

def digit (n : Nat) : List UInt8 := [UInt8.ofNat (0x30 + n)]

def pingStatistics (targetIp : UInt32) (count received : Nat) : List ScreenCall :=
  screenPrint (ascii "\nPing statistics for ") ++ screenPrint (printIp targetIp) ++
    screenPrint (ascii ":\n") ++ screenPrint (ascii "    Packets: Sent = ") ++
    screenPrint (digit count) ++ screenPrint (ascii ", Received = ") ++
    screenPrint (digit received) ++ screenPrint (ascii ", Lost = ") ++
    screenPrint (digit (count - received)) ++ screenPrint (ascii "\n")

def cmdPing (argv : List CStr) (s : NetState) : List ScreenCall × NetState :=
  match argv with
  | [] => (screenPrint (ascii "Usage: ping <hostname or IP>\n"), s)
  | host :: _ =>
    if !s.initialized then (screenPrint (ascii "ping: network not initialized\n"), s) else
    if s.ipAddress = 0 then (screenPrint (ascii "ping: no IP address configured\n"), s) else
    let start := complaint "PING " host "\n"
    match dnsResolve host s with
    | (none, s) => (start ++ complaint "ping: cannot resolve " host "\n", s)
    | (some targetIp, s) =>
      let (out, received, s) := pingLoop targetIp [1, 2, 3, 4] s
      (start ++ screenPrint (ascii "Pinging ") ++ screenPrint (printIp targetIp) ++
        screenPrint (ascii " with 64 bytes of data:\n\n") ++ out ++
        pingStatistics targetIp 4 received, s)

/-! ## The table of commands -/

/-- The functions that `commands` points to. -/
inductive ShellCommand
  | help | clear | ls | cd | mkdir | cat | echo | touch | rm | pwd | whoami | uname | date
  | shutdown | reboot | ping
  deriving DecidableEq

def commands : List (String × ShellCommand) :=
  [("help", .help), ("clear", .clear), ("ls", .ls), ("cd", .cd), ("mkdir", .mkdir),
   ("cat", .cat), ("echo", .echo), ("touch", .touch), ("rm", .rm), ("pwd", .pwd),
   ("whoami", .whoami), ("uname", .uname), ("date", .date), ("shutdown", .shutdown),
   ("reboot", .reboot), ("ping", .ping)]

def findCommand (name : List UInt8) : Option ShellCommand :=
  (commands.find? fun entry => decide (ascii entry.1 = name)).map Prod.snd

/-! ## The loop -/

/-- How a session goes on: with a prompt, or not at all. -/
inductive ShellStatus
  | prompt
  | off
  | restart
  deriving DecidableEq

/-- The shell, and the network that `ping` uses; `argvBuffer` is static. -/
structure Session where
  shell : ShellState
  net : NetState
  argvBuffer : Nat → Nat → UInt8
  status : ShellStatus

/-- What a round of the loop meets with: the line, what the stack and `argv` hold, the time of the
clock, and the frames that arrive. -/
structure ShellInput where
  line : CStr
  stack : Memory
  argv : Nat → Nat
  time : Clock
  arrivals : List (Option Packet)

/-- The strings that `argv` points to. -/
def ParseState.words (p : ParseState) : List CStr :=
  (List.range p.argc).map fun k =>
    ⟨rowString (p.argvBuffer (p.argv k)), fun h => by
      simpa [rowString] using List.mem_takeWhile_imp h⟩

theorem ParseState.map_words (p : ParseState) : p.words.map Subtype.val = p.args := by
  rw [words, args, List.map_map]
  rfl

/-- The call of a command, `argv` without the command's name. -/
def ShellCommand.call (f : ShellCommand) (argv : List CStr) (input : ShellInput) (x : Session) :
    List ScreenCall × Session :=
  match f with
  | help => (cmdHelp, x)
  | clear => ([.clear], x)
  | ls =>
    let (out, σ) := cmdLs input.stack x.shell
    (out, { x with shell := σ })
  | cat =>
    let (out, σ) := cmdCat argv input.stack x.shell
    (out, { x with shell := σ })
  | cd => (match argv with
      | [] => []
      | path :: _ => if (fsChangeDir path x.shell.currentDir x.shell.fs).1.1 = 0 then []
        else complaint "cd: " path ": No such file or directory\n",
    { x with shell := cmdCd argv x.shell })
  | mkdir => (match argv with
      | [] => screenPrint (ascii "Usage: mkdir <directory>\n")
      | path :: _ => if (fsCreateDir (x.shell.fullPath path) x.shell.fs).1 = 0 then []
        else complaint "mkdir: cannot create directory '" path "': Error\n",
    { x with shell := cmdMkdir argv x.shell })
  | touch => (match argv with
      | [] => screenPrint (ascii "Usage: touch <filename>\n")
      | path :: _ => if (fsCreateFile (x.shell.fullPath path) emptyData 0 x.shell.fs).1 = 0 then []
        else complaint "touch: cannot touch '" path "'\n",
    { x with shell := cmdTouch argv x.shell })
  | rm => (match argv with
      | [] => screenPrint (ascii "Usage: rm <filename>\n")
      | path :: _ => if (fsDeleteFile (x.shell.fullPath path) x.shell.fs).1 = 0 then []
        else complaint "rm: cannot remove '" path "': No such file or directory\n",
    { x with shell := cmdRm argv x.shell })
  | echo => (match argv, echoRedirect argv with
      | [], _ => screenPrint (ascii "\n")
      | _, some (path, content) =>
        if (fsCreateFile (x.shell.fullPath path) (input.stack.store 0 (content ++ [0]))
            (UInt32.ofNat content.length) x.shell.fs).1 = 0 then []
        else screenPrint (ascii "echo: write error\n")
      | words, none => screenPrint (echoWords words) ++ screenPrint (ascii "\n"),
    { x with shell := cmdEcho argv input.stack x.shell })
  | pwd => (screenPrint x.shell.currentDir ++ screenPrint (ascii "\n"), x)
  | whoami => (screenPrint x.shell.username ++ screenPrint (ascii "\n"), x)
  | uname => (screenPrint (ascii "EphemeralOS\n"), x)
  | date => (screenPrint (dateText input.time), x)
  | shutdown => (screenPrint (ascii "Shutting down...\n"), { x with status := .off })
  | reboot => (screenPrint (ascii "Rebooting...\n"), { x with status := .restart })
  | ping =>
    let (out, net) := cmdPing argv x.net
    (out, { x with net := net })

/-- What `shell_run` does with the words of a line. -/
def Session.dispatch (words : List CStr) (input : ShellInput) (x : Session) :
    List ScreenCall × Session :=
  match words with
  | [] => ([], x)
  | name :: argv =>
    match findCommand name with
    | none => (screenPrint name ++ screenPrint (ascii ": command not found\n"), x)
    | some f => f.call argv input x

/-- A round of `shell_run`; there is none after a command that does not return. -/
def Session.round (input : ShellInput) (x : Session) : List ScreenCall × Session :=
  if x.status ≠ .prompt then ([], x) else
  let prompt := printPrompt x.shell.currentDir x.shell.username (fsGetHostname x.shell.fs)
  let x := { x with net := { x.net with arrivals := x.net.arrivals ++ input.arrivals } }
  if input.line.val = [] then (prompt, x) else
  let p := parseCommand input.line x.argvBuffer input.argv
  let (out, x) := Session.dispatch p.words input { x with argvBuffer := p.argvBuffer }
  (prompt ++ out, x)

end EphemeralOS
