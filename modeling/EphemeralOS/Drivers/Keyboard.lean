import EphemeralOS.Drivers.Screen

/-!
# The keyboard

The decoder and the line editor of `drivers/keyboard.c`, as a machine that takes
one scancode after another. `kernel.c` and `installer.c` have the same editor,
except that it shows stars; `echo c` is what is shown for `c`.

The line on the screen is always the line in the buffer (`Editing.scancode`).
-/

namespace EphemeralOS

namespace Keyboard

def scancodeToAscii : List UInt8 :=
  [0, 0] ++ ascii "1234567890-=" ++ [0x08, 0x09] ++ ascii "qwertyuiop[]" ++ [0x0A, 0] ++
    ascii "asdfghjkl;" ++ [0x27, 0x60, 0, 0x5C] ++ ascii "zxcvbnm,./" ++ [0, 0x2A, 0, 0x20]

def scancodeToAsciiShift : List UInt8 :=
  [0, 0] ++ ascii "!@#$%^&*()_+" ++ [0x08, 0x09] ++ ascii "QWERTYUIOP" ++ [0x7B, 0x7D, 0x0A, 0] ++
    ascii "ASDFGHJKL:" ++ [0x22, 0x7E, 0, 0x7C] ++ ascii "ZXCVBNM<>?" ++ [0, 0x2A, 0, 0x20]

theorem length_scancodeToAsciiShift : scancodeToAsciiShift.length = scancodeToAscii.length := by
  decide

/-- One round of `keyboard_getchar`: `shift_pressed` after it, and the character returned. -/
def getcharRound (shiftPressed : Bool) (scancode : UInt8) : Bool × Option UInt8 :=
  if scancode = 0x2A ∨ scancode = 0x36 then (true, none)
  else if scancode = 0xAA ∨ scancode = 0xB6 then (false, none)
  else if scancode &&& 0x80 ≠ 0 then (shiftPressed, none)
  else if scancode.toNat < scancodeToAscii.length then
    let c := (if shiftPressed then scancodeToAsciiShift else scancodeToAscii).getD scancode.toNat 0
    (shiftPressed, if c ≠ 0 then some c else none)
  else (shiftPressed, none)

/-- `keyboard_getchar` on the scancodes to come: the character, `shift_pressed` and the scancodes
left. `none` is a wait for more of them. -/
def keyboardGetchar : Bool → List UInt8 → Option (UInt8 × Bool × List UInt8)
  | _, [] => none
  | shiftPressed, scancode :: scancodes =>
    match getcharRound shiftPressed scancode with
    | (shiftPressed, some c) => some (c, shiftPressed, scancodes)
    | (shiftPressed, none) => keyboardGetchar shiftPressed scancodes

def decoded : Bool → List UInt8 → List UInt8
  | _, [] => []
  | shiftPressed, scancode :: scancodes =>
    match getcharRound shiftPressed scancode with
    | (shiftPressed, some c) => c :: decoded shiftPressed scancodes
    | (shiftPressed, none) => decoded shiftPressed scancodes

/-- It consists of what one call of `keyboard_getchar` after another returns. -/
theorem decoded_eq (shiftPressed : Bool) (scancodes : List UInt8) :
    decoded shiftPressed scancodes =
      match keyboardGetchar shiftPressed scancodes with
      | some (c, shiftPressed, scancodes) => c :: decoded shiftPressed scancodes
      | none => [] := by
  induction scancodes generalizing shiftPressed with
  | nil => rfl
  | cons scancode scancodes ih =>
    rw [decoded, keyboardGetchar]
    split
    · rfl
    · next shiftPressed' _ => exact ih shiftPressed'

/-- The objects of a `getline`, and whether it has returned. -/
structure Getline where
  shiftPressed : Bool
  buffer : Int → UInt8
  index : Int
  screen : Screen
  returned : Bool

namespace Getline

def start (shiftPressed : Bool) (buffer : Int → UInt8) (screen : Screen) : Getline :=
  ⟨shiftPressed, buffer, 0, screen, false⟩

/-- `buffer[index] = '\0'`, a newline on the screen, and the return. -/
def finish (g : Getline) : Getline :=
  { g with
    buffer := Function.update g.buffer g.index 0
    screen := g.screen.printChar 0x0A
    returned := true }

def pop (g : Getline) : Getline := { g with index := g.index - 1, screen := g.screen.backspace }

def push (echo : UInt8 → UInt8) (c : UInt8) (g : Getline) : Getline :=
  { g with
    buffer := Function.update g.buffer g.index c
    index := g.index + 1
    screen := g.screen.printChar (echo c) }

/-- A round of the loop. A `char` from 32 to 126 is the same signed or not. -/
def char (echo : UInt8 → UInt8) (maxLength : Int) (c : UInt8) (g : Getline) : Getline :=
  if c = 0x0A then g.finish
  else if c = 0x08 then if g.index > 0 then g.pop else g
  else if g.index < maxLength - 1 ∧ c ≥ 32 ∧ c ≤ 126 then g.push echo c
  else g

def scancode (echo : UInt8 → UInt8) (maxLength : Int) (code : UInt8) (g : Getline) : Getline :=
  if g.returned then g else
  match getcharRound g.shiftPressed code with
  | (shiftPressed, some c) => ({ g with shiftPressed := shiftPressed }).char echo maxLength c
  | (shiftPressed, none) => { g with shiftPressed := shiftPressed }

def run (echo : UInt8 → UInt8) (maxLength : Int) (scancodes : List UInt8) (g : Getline) : Getline :=
  scancodes.foldl (fun g code => g.scancode echo maxLength code) g

end Getline

/-! ## The line -/

/-- What a character does to the line: a printable one is pushed while there is room, and a
backspace pops one. -/
def edit (maxLength : Int) (line : List UInt8) (c : UInt8) : List UInt8 :=
  if c = 0x08 then line.dropLast
  else if (line.length : Int) < maxLength - 1 ∧ 32 ≤ c ∧ c ≤ 126 then line ++ [c]
  else line

def edited (maxLength : Int) (chars : List UInt8) : List UInt8 :=
  (chars.takeWhile (· ≠ 0x0A)).foldl (edit maxLength) []

/-- Where the prompt ends that ended at the cursor of `s`: a row further up for each scroll. -/
def promptEnd (s : Screen) (g : Getline) : Int :=
  s.pos - 80 * ((g.screen.scrolls : Int) - s.scrolls)

/-- Behind the prompt, the screen shows the buffer; the prompt is as it was. -/
structure ShowsLine (echo : UInt8 → UInt8) (s : Screen) (g : Getline) : Prop where
  visible : 0 ≤ promptEnd s g
  line : ∀ i, 0 ≤ i → i < g.index →
    g.screen.video.cells (promptEnd s g + i) = s.cell (echo (g.buffer i))
  prompt : ∀ i, 0 ≤ i → i < promptEnd s g →
    g.screen.video.cells i = s.video.cells (i + (s.pos - promptEnd s g))

def AtEnd (s : Screen) (g : Getline) : Prop := g.screen.pos = promptEnd s g + g.index

structure Holds (maxLength : Int) (line : List UInt8) (g : Getline) : Prop where
  index : g.index = line.length
  room : g.index ≤ maxLength - 1
  buffer : ∀ i : Nat, i < line.length → g.buffer i = line.getD i 0

/-- A `getline` that has not returned. -/
structure Editing (echo : UInt8 → UInt8) (s : Screen) (maxLength : Int) (line : List UInt8)
    (g : Getline) : Prop extends Holds maxLength line g, ShowsLine echo s g where
  cursor : AtEnd s g
  returned : g.returned = false
  onScreen : g.screen.OnScreen
  cell : ∀ c, g.screen.cell c = s.cell c

section Step

variable {echo : UInt8 → UInt8} {s : Screen} {maxLength : Int} {line : List UInt8} {g : Getline}

theorem Editing.start (hs : s.OnScreen) (hmin : 1 ≤ maxLength) (shiftPressed : Bool)
    (buffer : Int → UInt8) : Editing echo s maxLength [] (.start shiftPressed buffer s) where
  index := rfl
  room := by
    change 0 ≤ maxLength - 1
    omega
  buffer := fun _ hi => absurd hi (Nat.not_lt_zero _)
  visible := by
    have := hs.pos
    simp only [promptEnd, Getline.start]
    omega
  cursor := by
    simp only [AtEnd, promptEnd, Getline.start]
    omega
  line := fun i hi hi' => by
    change i < 0 at hi'
    omega
  prompt := fun i _ _ => by
    have hzero : i + (s.pos - promptEnd s (.start shiftPressed buffer s)) = i := by
      simp only [promptEnd, Getline.start]
      omega
    rw [hzero]
    rfl
  returned := rfl
  onScreen := hs
  cell := fun _ => rfl

theorem Holds.push (h : Holds maxLength line g) {c : UInt8} (hroom : g.index < maxLength - 1) :
    Holds maxLength (line ++ [c]) (g.push echo c) := by
  have hindex := h.index
  have hlen : (line ++ [c]).length = line.length + 1 := List.length_append
  refine ⟨?_, ?_, fun i hi => ?_⟩
  · simp only [Getline.push]
    omega
  · simp only [Getline.push]
    omega
  · change Function.update g.buffer g.index c i = _
    rw [Function.update_apply, List.getD_eq_getElem?_getD]
    by_cases hlast : i = line.length
    · rw [if_pos (by omega), hlast, List.getElem?_concat_length]
      rfl
    · rw [if_neg (by omega), h.buffer i (by omega), List.getD_eq_getElem?_getD,
        List.getElem?_append_left (by omega)]

theorem Holds.pop (h : Holds maxLength line g) (hpos : 0 < g.index) :
    Holds maxLength line.dropLast g.pop := by
  have hindex := h.index
  have hroom := h.room
  have hlen : line.dropLast.length = line.length - 1 := List.length_dropLast
  refine ⟨?_, ?_, fun i hi => ?_⟩
  · simp only [Getline.pop]
    omega
  · simp only [Getline.pop]
    omega
  · change g.buffer i = _
    rw [h.buffer i (by omega), List.getD_eq_getElem?_getD, List.getD_eq_getElem?_getD,
      List.getElem?_dropLast, if_pos (by omega)]

/-- What has to hold of a step for the line to be shown after it: it moves the cells up by `up`
rows, and shows what it adds to the buffer. -/
theorem ShowsLine.moved (h : ShowsLine echo s g) (g' : Getline) (up : Nat)
    (hscrolls : g'.screen.scrolls = g.screen.scrolls + up) (hvisible : 80 * up ≤ promptEnd s g)
    (hindex : 0 ≤ g.index) (hindex' : 0 ≤ g'.index)
    (hcells : ∀ i, 0 ≤ i → i + 80 * up < promptEnd s g + g.index →
      i + 80 * up < promptEnd s g + g'.index →
      g'.screen.video.cells i = g.screen.video.cells (i + 80 * up))
    (hbuffer : ∀ i, i < g.index → g'.buffer i = g.buffer i)
    (hnew : ∀ i, g.index ≤ i → i < g'.index →
      g'.screen.video.cells (promptEnd s g - 80 * up + i) = s.cell (echo (g'.buffer i))) :
    promptEnd s g' = promptEnd s g - 80 * up ∧ ShowsLine echo s g' := by
  have hend : promptEnd s g' = promptEnd s g - 80 * up := by
    rw [promptEnd, promptEnd, hscrolls]
    omega
  refine ⟨hend, ⟨?_, fun i hi hi' => ?_, fun i hi hi' => ?_⟩⟩
  · omega
  · rw [hend]
    by_cases hold : i < g.index
    · have hup : promptEnd s g - 80 * up + i + 80 * up = promptEnd s g + i := by omega
      rw [hcells _ (by omega) (by omega) (by omega), hup, hbuffer i hold, h.line i hi hold]
    · exact hnew i (by omega) hi'
  · rw [hend] at hi' ⊢
    have hup : i + 80 * up + (s.pos - promptEnd s g) =
        i + (s.pos - (promptEnd s g - 80 * up)) := by omega
    rw [hcells i hi (by omega) (by omega), h.prompt (i + 80 * up) (by omega) (by omega), hup]

section Shown

variable (h : ShowsLine echo s g) (hcursor : AtEnd s g) (hon : g.screen.OnScreen)
  (hcell : ∀ c, g.screen.cell c = s.cell c)

include h hcursor hon hcell

/-- **A character is shown behind the line.** -/
theorem ShowsLine.push (hindex : 0 ≤ g.index ∧ g.index < 255) {c : UInt8} (hnewline : echo c ≠ 0x0A)
    (hbackspace : echo c ≠ 0x08) : ShowsLine echo s (g.push echo c) ∧ AtEnd s (g.push echo c) ∧
      (g.push echo c).screen.OnScreen ∧ ∀ d, (g.push echo c).screen.cell d = s.cell d := by
  have hpos := hon.pos
  have hvisible := h.visible
  have hscreen : (g.push echo c).screen = g.screen.printChar (echo c) := rfl
  have hindex' : (g.push echo c).index = g.index + 1 := rfl
  have hbuffer : ∀ i, i < g.index → (g.push echo c).buffer i = g.buffer i := fun i hi =>
    Function.update_of_ne (by omega) ..
  have hlast : (g.push echo c).buffer g.index = c := Function.update_self ..
  rw [AtEnd] at hcursor ⊢
  by_cases hroom : g.screen.pos + 1 < 2000
  · have hmoved := Screen.printChar_plain hon hnewline hbackspace hroom
    have hshown : promptEnd s (g.push echo c) = promptEnd s g - 80 * (0 : Nat) ∧
        ShowsLine echo s (g.push echo c) := by
      refine h.moved _ 0 hmoved.scrolls (by omega) hindex.1 (by omega) (fun i hi hlt _ => ?_)
        hbuffer fun i hge hlt => ?_
      · have hsame : i + 80 * (0 : Nat) = i := by omega
        rw [hscreen, hmoved.cells i hi (by omega), if_neg (by omega), hsame]
      · obtain rfl : i = g.index := by omega
        rw [hscreen, hmoved.cells _ (by omega) (by omega), if_pos (by omega), hlast, hcell]
    refine ⟨hshown.2, ?_, hmoved.onScreen, fun d => (hmoved.cell d).trans (hcell d)⟩
    rw [hscreen, hmoved.pos, hshown.1, hindex']
    omega
  · -- the prompt and the line move up
    have hmoved := Screen.printChar_scroll hon hnewline hbackspace (by omega)
    have hshown : promptEnd s (g.push echo c) = promptEnd s g - 80 * (1 : Nat) ∧
        ShowsLine echo s (g.push echo c) := by
      refine h.moved _ 1 hmoved.scrolls (by omega) hindex.1 (by omega) (fun i hi hlt _ => ?_)
        hbuffer fun i hge hlt => ?_
      · rw [hscreen, hmoved.cells i hi (by omega), if_pos (by omega), if_neg (by omega)]
        rfl
      · obtain rfl : i = g.index := by omega
        rw [hscreen, hmoved.cells _ (by omega) (by omega), if_pos (by omega), if_pos (by omega),
          hlast, hcell]
    refine ⟨hshown.2, ?_, hmoved.onScreen, fun d => (hmoved.cell d).trans (hcell d)⟩
    rw [hscreen, hmoved.pos, hshown.1, hindex']
    omega

/-- **Backspace takes the last character of the line away, and nothing of the prompt.** -/
theorem ShowsLine.pop (hindex : 0 < g.index) : ShowsLine echo s g.pop ∧ AtEnd s g.pop ∧
    g.pop.screen.OnScreen ∧ ∀ d, g.pop.screen.cell d = s.cell d := by
  have hpos := hon.pos
  have hvisible := h.visible
  rw [AtEnd] at hcursor ⊢
  have hmoved := Screen.backspace_moved hon (by omega)
  have hscreen : g.pop.screen = g.screen.backspace := rfl
  have hindex' : g.pop.index = g.index - 1 := rfl
  have hshown : promptEnd s g.pop = promptEnd s g - 80 * (0 : Nat) ∧ ShowsLine echo s g.pop := by
    refine h.moved _ 0 hmoved.scrolls (by omega) hindex.le (by omega) (fun i hi _ hlt => ?_)
      (fun _ _ => rfl) fun i hge hlt => absurd hlt (by omega)
    have hsame : i + 80 * (0 : Nat) = i := by omega
    rw [hscreen, hmoved.cells i hi (by omega), if_neg (by omega), hsame]
  refine ⟨hshown.2, ?_, hmoved.onScreen, fun d => (hmoved.cell d).trans (hcell d)⟩
  rw [hscreen, hmoved.pos, hshown.1, hindex']
  omega

omit hcell in
theorem ShowsLine.finish (hindex : 0 ≤ g.index ∧ g.index ≤ 255) : ShowsLine echo s g.finish := by
  have hpos := hon.pos
  have hvisible := h.visible
  have hscreen : g.finish.screen = g.screen.printChar 0x0A := rfl
  have hindex' : g.finish.index = g.index := rfl
  have hbuffer : ∀ i, i < g.index → g.finish.buffer i = g.buffer i := fun i hi =>
    Function.update_of_ne (by omega) ..
  rw [AtEnd] at hcursor
  rcases Screen.printChar_newline hon with hmoved | ⟨hlast, hmoved⟩
  · refine (h.moved g.finish 0 hmoved.scrolls (by omega) hindex.1 hindex.1 (fun i hi hlt _ => ?_)
      hbuffer fun i hge hlt => absurd hlt (by omega)).2
    have hsame : i + 80 * (0 : Nat) = i := by omega
    rw [hscreen, hmoved.cells i hi (by omega), hsame]
  · refine (h.moved g.finish 1 hmoved.scrolls (by omega) hindex.1 hindex.1 (fun i hi hlt _ => ?_)
      hbuffer fun i hge hlt => absurd hlt (by omega)).2
    rw [hscreen, hmoved.cells i hi (by omega), if_pos (by omega)]
    rfl

end Shown

theorem Editing.char (h : Editing echo s maxLength line g) (hmax : maxLength ≤ 256)
    (hecho : ∀ c, 32 ≤ c → c ≤ 126 → echo c ≠ 0x0A ∧ echo c ≠ 0x08) {c : UInt8} (hc : c ≠ 0x0A) :
    Editing echo s maxLength (edit maxLength line c) (g.char echo maxLength c) := by
  have hindex := h.index
  rw [Getline.char, edit, if_neg hc]
  by_cases hbackspace : c = 0x08
  · rw [if_pos hbackspace, if_pos hbackspace]
    by_cases hpos : 0 < g.index
    · rw [if_pos hpos]
      obtain ⟨hshows, hend, hon, hcell⟩ := h.toShowsLine.pop h.cursor h.onScreen h.cell hpos
      exact ⟨h.toHolds.pop hpos, hshows, hend, h.returned, hon, hcell⟩
    · have hempty : line = [] := List.eq_nil_of_length_eq_zero (by omega)
      rw [if_neg hpos, hempty]
      rw [hempty] at h
      exact h
  rw [if_neg hbackspace, if_neg hbackspace, ← hindex]
  by_cases hpush : g.index < maxLength - 1 ∧ 32 ≤ c ∧ c ≤ 126
  · obtain ⟨hroom, hprintable, hprintable'⟩ := hpush
    obtain ⟨hnewline, hback⟩ := hecho c hprintable hprintable'
    obtain ⟨hshows, hend, hon, hcell⟩ :=
      h.toShowsLine.push h.cursor h.onScreen h.cell (by omega) hnewline hback
    rw [if_pos ⟨hroom, hprintable, hprintable'⟩, if_pos ⟨hroom, hprintable, hprintable'⟩]
    exact ⟨h.toHolds.push hroom, hshows, hend, h.returned, hon, hcell⟩
  · rw [if_neg hpush, if_neg hpush]
    exact h

theorem Editing.shift (h : Editing echo s maxLength line g) (shiftPressed : Bool) :
    Editing echo s maxLength line { g with shiftPressed := shiftPressed } :=
  ⟨⟨h.index, h.room, h.buffer⟩, ⟨h.visible, h.line, h.prompt⟩, h.cursor, h.returned, h.onScreen,
    h.cell⟩

end Step

/-! ## Runs -/

section Chars

variable {maxLength : Int} {before : List UInt8}

theorem takeWhile_line (h : 0x0A ∉ before) : before.takeWhile (· ≠ 0x0A) = before :=
  List.takeWhile_eq_self_iff.mpr fun _ hc => decide_eq_true (ne_of_mem_of_not_mem hc h)

theorem edited_char (h : 0x0A ∉ before) {c : UInt8} (hc : c ≠ 0x0A) :
    edited maxLength (before ++ [c]) = edit maxLength (edited maxLength before) c := by
  have hchars : 0x0A ∉ before ++ [c] := by simp [h, hc.symm]
  rw [edited, edited, takeWhile_line hchars, takeWhile_line h, List.foldl_concat]

theorem edited_newline (h : 0x0A ∉ before) (chars : List UInt8) :
    edited maxLength (before ++ 0x0A :: chars) = edited maxLength before := by
  rw [edited, edited, List.takeWhile_append_of_pos fun _ hc =>
      decide_eq_true (ne_of_mem_of_not_mem hc h), takeWhile_line h,
    List.takeWhile_cons_of_neg (by simp), List.append_nil]

end Chars

/-- After any scancodes: the line in the buffer, shown behind the prompt, with the cursor at its
end until the newline, and terminated after it. -/
structure InStep (echo : UInt8 → UInt8) (s : Screen) (maxLength : Int) (chars : List UInt8)
    (g : Getline) : Prop
    extends Holds maxLength (edited maxLength chars) g, ShowsLine echo s g where
  cursor : g.returned = false → AtEnd s g
  terminated : g.returned = true → g.buffer g.index = 0
  returned_iff : g.returned = true ↔ 0x0A ∈ chars

theorem Getline.run_returned (echo : UInt8 → UInt8) (maxLength : Int) (scancodes : List UInt8)
    {g : Getline} (h : g.returned = true) : g.run echo maxLength scancodes = g := by
  induction scancodes with
  | nil => rfl
  | cons code scancodes ih =>
    rw [Getline.run, List.foldl_cons, Getline.scancode, if_pos h]
    exact ih

theorem Getline.char_shiftPressed (echo : UInt8 → UInt8) (maxLength : Int) (c : UInt8)
    (g : Getline) : (g.char echo maxLength c).shiftPressed = g.shiftPressed := by
  rw [Getline.char]
  repeat' split
  all_goals rfl

theorem Editing.finish {echo : UInt8 → UInt8} {s : Screen} {maxLength : Int}
    {before : List UInt8} {g : Getline} (h : Editing echo s maxLength (edited maxLength before) g)
    (hmax : maxLength ≤ 256) (hbefore : 0x0A ∉ before) (chars : List UInt8) :
    InStep echo s maxLength (before ++ 0x0A :: chars) g.finish := by
  have hindex := h.index
  have hroom := h.room
  have hshows := h.toShowsLine.finish h.cursor h.onScreen (by omega)
  refine ⟨?_, hshows, fun hr => absurd hr.symm Bool.false_ne_true, fun _ => Function.update_self ..,
    ?_⟩
  · rw [edited_newline hbefore]
    refine ⟨h.index, h.room, fun i hi => ?_⟩
    exact (Function.update_of_ne (by omega) ..).trans (h.buffer i hi)
  · exact iff_of_true rfl (by simp)

/-- **Buffer and screen stay in step.** -/
theorem Editing.run {echo : UInt8 → UInt8} {s : Screen} {maxLength : Int} (hmax : maxLength ≤ 256)
    (hecho : ∀ c, 32 ≤ c → c ≤ 126 → echo c ≠ 0x0A ∧ echo c ≠ 0x08) {before : List UInt8}
    {g : Getline} (hbefore : 0x0A ∉ before)
    (h : Editing echo s maxLength (edited maxLength before) g) (scancodes : List UInt8) :
    InStep echo s maxLength (before ++ decoded g.shiftPressed scancodes)
      (g.run echo maxLength scancodes) := by
  induction scancodes generalizing before g with
  | nil =>
    rw [decoded, List.append_nil]
    refine ⟨h.toHolds, h.toShowsLine, fun _ => h.cursor, fun hr => ?_, ?_⟩
    · exact absurd (h.returned.symm.trans hr) Bool.false_ne_true
    · exact iff_of_false (fun hr => absurd (h.returned.symm.trans hr) Bool.false_ne_true) hbefore
  | cons code scancodes ih =>
    rw [Getline.run, List.foldl_cons, Getline.scancode, if_neg (by simp [h.returned]), decoded]
    split
    · next shiftPressed c _ =>
      have hshift := h.shift shiftPressed
      by_cases hc : c = 0x0A
      · rw [hc, Getline.char, if_pos rfl]
        have hfinish := hshift.finish hmax hbefore (decoded shiftPressed scancodes)
        have hrun := Getline.run_returned echo maxLength scancodes
          (hfinish.returned_iff.mpr (by simp))
        rw [Getline.run] at hrun
        rwa [hrun]
      · have hline : 0x0A ∉ before ++ [c] := by simp [hbefore, Ne.symm hc]
        have hnext := hshift.char hmax hecho hc
        rw [← edited_char hbefore hc] at hnext
        have hrun := ih hline hnext
        rwa [Getline.char_shiftPressed, List.append_assoc] at hrun
    · next shiftPressed _ => exact ih hbefore (h.shift shiftPressed)

end Keyboard

end EphemeralOS
