import Mathlib.Data.List.Induction
import EphemeralOS.Kernel.String
import EphemeralOS.Lib.Rows

/-!
# The screen

`drivers/screen.c`, without the programming of the hardware cursor. The cursor
counts rows and columns, and a cell's index is 80 times the row plus the column;
in these terms a character goes to the cell at the cursor, and the cursor to the
next cell, or to cell 1920 after a scroll (`printChar_plain`).

After `screen_clear`, the screen is a window on the text printed
(`screenPrint_layout`).
-/

namespace EphemeralOS

/-- The cells from `VIDEO_MEMORY` on, and the indices that have been written. -/
structure Video where
  cells : Int → UInt16
  written : List Int

namespace Video

def store (i : Int) (cell : UInt16) (v : Video) : Video :=
  ⟨Function.update v.cells i cell, v.written ++ [i]⟩

/-- The first `n` rounds of the loop that copies each cell from the row below. -/
def copyUp : Nat → Video → Video
  | 0, v => v
  | n + 1, v => (copyUp n v).store n ((copyUp n v).cells (n + 80))

/-- The first `n` rounds of a loop that fills cells from `first` on. -/
def fill (cell : UInt16) (first : Nat) : Nat → Video → Video
  | 0, v => v
  | n + 1, v => (fill cell first n v).store (first + n : Nat) cell

/-- The loops of `scroll_down`. -/
def scroll (space : UInt16) (v : Video) : Video := (v.copyUp (80 * 24)).fill space (80 * 24) 80

def InBounds (v : Video) : Prop := ∀ i ∈ v.written, 0 ≤ i ∧ i < 2000

variable {v : Video}

theorem store_cells (i : Int) (cell : UInt16) (j : Int) :
    (v.store i cell).cells j = if j = i then cell else v.cells j := Function.update_apply ..

/-- No cell is overwritten before it has been copied. -/
theorem copyUp_cells (n : Nat) (i : Int) :
    (v.copyUp n).cells i = if 0 ≤ i ∧ i < n then v.cells (i + 80) else v.cells i := by
  induction n generalizing i with
  | zero => rw [copyUp, if_neg (by omega)]
  | succ n ih =>
    have hread : (copyUp n v).cells (n + 80) = v.cells (n + 80) := by
      rw [ih, if_neg (by omega)]
    rw [copyUp, store_cells, hread]
    by_cases hi : i = n
    · rw [if_pos hi, hi, if_pos (by omega)]
    · rw [if_neg hi, ih]
      by_cases hlt : 0 ≤ i ∧ i < n
      · rw [if_pos hlt, if_pos (by omega)]
      · rw [if_neg hlt, if_neg (by omega)]

theorem fill_cells (cell : UInt16) (first n : Nat) (i : Int) : (v.fill cell first n).cells i =
    if first ≤ i ∧ i < first + n then cell else v.cells i := by
  induction n with
  | zero => rw [fill, if_neg (by omega)]
  | succ n ih =>
    rw [fill, store_cells]
    by_cases hi : i = (first + n : Nat)
    · rw [if_pos hi, hi, if_pos (by omega)]
    · rw [if_neg hi, ih]
      by_cases hlt : first ≤ i ∧ i < first + n
      · rw [if_pos hlt, if_pos (by omega)]
      · rw [if_neg hlt, if_neg (by omega)]

/-- **Scrolling moves every row up and leaves the last one blank.** -/
theorem scroll_cells (space : UInt16) (i : Int) : (v.scroll space).cells i =
    if 0 ≤ i ∧ i < 1920 then v.cells (i + 80) else if 1920 ≤ i ∧ i < 2000 then space
    else v.cells i := by
  rw [scroll, fill_cells, copyUp_cells]
  by_cases hup : 0 ≤ i ∧ i < 1920
  · rw [if_pos hup, if_neg (by omega), if_pos (by omega)]
  · rw [if_neg hup]
    by_cases hlast : 1920 ≤ i ∧ i < 2000
    · rw [if_pos hlast, if_pos (by omega)]
    · rw [if_neg hlast, if_neg (by omega), if_neg (by omega)]

theorem InBounds.store (h : v.InBounds) {i : Int} (hi : 0 ≤ i ∧ i < 2000) (cell : UInt16) :
    (v.store i cell).InBounds := by
  intro j hj
  rcases List.mem_append.mp hj with hj | hj
  · exact h j hj
  · rwa [List.mem_singleton.mp hj]

theorem InBounds.copyUp (h : v.InBounds) {n : Nat} (hn : n ≤ 1920) : (v.copyUp n).InBounds := by
  induction n with
  | zero => exact h
  | succ n ih => exact (ih (Nat.le_of_succ_le hn)).store (by omega) _

theorem InBounds.fill (h : v.InBounds) (cell : UInt16) {first n : Nat} (hn : first + n ≤ 2000) :
    (v.fill cell first n).InBounds := by
  induction n with
  | zero => exact h
  | succ n ih => exact (ih (by omega)).store (by omega) cell

theorem InBounds.scroll (h : v.InBounds) (space : UInt16) : (v.scroll space).InBounds :=
  (h.copyUp (Nat.le_refl _)).fill space (Nat.le_refl _)

end Video

/-! ## The driver -/

/-- The static objects of `screen.c`; `scrolls` counts the calls of `scroll_down`. -/
structure Screen where
  video : Video
  cursorX : Int
  cursorY : Int
  foreground : UInt8
  background : UInt8
  scrolls : Nat

namespace Screen

def boot (cells : Int → UInt16) : Screen := ⟨⟨cells, []⟩, 0, 0, 0x0F, 0x00, 0⟩

/-- A cell with the current colours; a `char` is signed. -/
def cell (c : UInt8) (s : Screen) : UInt16 :=
  s.background.toUInt16 <<< 12 ||| s.foreground.toUInt16 <<< 8 ||| c.toInt8.toInt16.toUInt16

def pos (s : Screen) : Int := s.cursorY * 80 + s.cursorX

def put (c : UInt8) (s : Screen) : Screen := { s with video := s.video.store s.pos (s.cell c) }

def scrollDown (s : Screen) : Screen :=
  { s with
    video := s.video.scroll (s.cell 0x20)
    cursorY := 24
    cursorX := 0
    scrolls := s.scrolls + 1 }

/-- `cursor_x = 0; cursor_y++`, and `scroll_down` if that was the last row. -/
def nextRow (s : Screen) : Screen :=
  let s := { s with cursorX := 0, cursorY := s.cursorY + 1 }
  if s.cursorY ≥ 25 then s.scrollDown else s

def init (s : Screen) : Screen :=
  { s with cursorX := 0, cursorY := 0, foreground := 0x0F, background := 0x00 }

def clear (s : Screen) : Screen :=
  { s with video := s.video.fill (s.cell 0x20) 0 (80 * 25), cursorX := 0, cursorY := 0 }

def setRow (row : Int) (s : Screen) : Screen :=
  if row ≥ 0 ∧ row < 25 then { s with cursorY := row, cursorX := 0 } else s

def setColor (foreground background : UInt8) (s : Screen) : Screen :=
  { s with foreground := foreground, background := background }

def printChar (c : UInt8) (s : Screen) : Screen :=
  if c = 0x0A then s.nextRow
  else if c = 0x08 then
    let s := if s.cursorX > 0 then { s with cursorX := s.cursorX - 1 } else s
    s.put 0x20
  else
    let s := s.put c
    let s := { s with cursorX := s.cursorX + 1 }
    if s.cursorX ≥ 80 then s.nextRow else s

def backspace (s : Screen) : Screen :=
  let s :=
    if s.cursorX > 0 then { s with cursorX := s.cursorX - 1 }
    else if s.cursorY > 0 then { s with cursorY := s.cursorY - 1, cursorX := 79 }
    else s
  s.put 0x20

/-- `screen_print`. -/
def print (str : List UInt8) (s : Screen) : Screen := str.foldl (fun s c => s.printChar c) s

end Screen

/-- The functions of `screen.h`, but for `screen_print`, which repeats `screen_print_char`. -/
inductive ScreenCall
  | printChar (c : UInt8)
  | backspace
  | setRow (row : Int)
  | clear
  | init
  | setColor (foreground background : UInt8)

def ScreenCall.apply : ScreenCall → Screen → Screen
  | .printChar c => .printChar c
  | .backspace => .backspace
  | .setRow row => .setRow row
  | .clear => .clear
  | .init => .init
  | .setColor foreground background => .setColor foreground background

/-! ## Bounds -/

namespace Screen

/-- The cursor is on the screen, and nothing has been written outside. -/
structure OnScreen (s : Screen) : Prop where
  x : 0 ≤ s.cursorX ∧ s.cursorX < 80
  y : 0 ≤ s.cursorY ∧ s.cursorY < 25
  video : s.video.InBounds

variable {s : Screen}

theorem OnScreen.pos (h : s.OnScreen) : 0 ≤ s.pos ∧ s.pos < 2000 := by
  have hx := h.x
  have hy := h.y
  rw [Screen.pos]
  omega

theorem OnScreen.put (h : s.OnScreen) (c : UInt8) : (s.put c).OnScreen :=
  ⟨h.x, h.y, h.video.store h.pos _⟩

theorem OnScreen.nextRow (h : 0 ≤ s.cursorY ∧ s.cursorY < 25) (hv : s.video.InBounds) :
    s.nextRow.OnScreen := by
  have hleft : (0 : Int) ≤ 0 ∧ (0 : Int) < 80 := by decide
  rw [Screen.nextRow]
  simp only
  split
  · exact ⟨hleft, (by decide : (0 : Int) ≤ 24 ∧ (24 : Int) < 25), hv.scroll _⟩
  · exact ⟨hleft, ⟨by simp only; omega, by simp only; omega⟩, hv⟩

/-- The cursor moves to the left, or stays where it is. -/
theorem OnScreen.left (h : s.OnScreen) : ({ s with cursorX := s.cursorX - 1 } : Screen).OnScreen ↔
    0 < s.cursorX := by
  have hx := h.x
  constructor
  · intro hleft
    have := hleft.x.1
    simp only at this
    omega
  · exact fun hpos => ⟨⟨by simp only; omega, by simp only; omega⟩, h.y, h.video⟩

theorem OnScreen.printChar (h : s.OnScreen) (c : UInt8) : (s.printChar c).OnScreen := by
  rw [Screen.printChar]
  split
  · exact .nextRow h.y h.video
  · split
    · refine OnScreen.put ?_ 0x20
      split
      · next hpos => exact h.left.mpr hpos
      · exact h
    · have hput := h.put c
      have hx := h.x
      simp only
      split
      · exact .nextRow hput.y hput.video
      · next hlt =>
        exact ⟨⟨by simp only [Screen.put]; omega, by simp only; omega⟩, hput.y, hput.video⟩

theorem OnScreen.backspace (h : s.OnScreen) : s.backspace.OnScreen := by
  rw [Screen.backspace]
  refine OnScreen.put ?_ 0x20
  split
  · next hpos => exact h.left.mpr hpos
  · split
    · next hpos =>
      have hy := h.y
      exact ⟨(by decide : (0 : Int) ≤ 79 ∧ (79 : Int) < 80),
        ⟨by simp only; omega, by simp only; omega⟩, h.video⟩
    · exact h

/-- **Every call keeps the cursor on the screen and its stores inside it.** -/
theorem OnScreen.apply (h : s.OnScreen) (c : ScreenCall) : (c.apply s).OnScreen := by
  have hleft : (0 : Int) ≤ 0 ∧ (0 : Int) < 80 := by decide
  have htop : (0 : Int) ≤ 0 ∧ (0 : Int) < 25 := by decide
  cases c with
  | printChar c => exact h.printChar c
  | backspace => exact h.backspace
  | setRow row =>
    change (Screen.setRow row s).OnScreen
    rw [Screen.setRow]
    split
    · next hrow => exact ⟨hleft, hrow, h.video⟩
    · exact h
  | clear => exact ⟨hleft, htop, h.video.fill _ (Nat.le_refl _)⟩
  | init => exact ⟨hleft, htop, h.video⟩
  | setColor foreground background => exact ⟨h.x, h.y, h.video⟩

theorem onScreen_run (cells : Int → UInt16) (calls : List ScreenCall) :
    (calls.foldl (fun s c => c.apply s) (boot cells)).OnScreen := by
  induction calls using List.reverseRecOn with
  | nil =>
    exact ⟨(by decide : (0 : Int) ≤ 0 ∧ (0 : Int) < 80),
      (by decide : (0 : Int) ≤ 0 ∧ (0 : Int) < 25), fun i hi => absurd hi List.not_mem_nil⟩
  | append_singleton calls c ih =>
    rw [List.foldl_concat]
    exact ih.apply c

theorem OnScreen.print (h : s.OnScreen) (str : List UInt8) : (s.print str).OnScreen := by
  induction str generalizing s with
  | nil => exact h
  | cons c str ih => exact ih (h.printChar c)

/-! ## The cursor's cell -/

/-- A step of the cursor: where it goes, and what is written. -/
structure Moved (s t : Screen) (pos : Int) (cells : Int → UInt16) (scrolls : Nat) : Prop where
  onScreen : t.OnScreen
  pos : t.pos = pos
  cells : ∀ i, 0 ≤ i → i < 2000 → t.video.cells i = cells i
  scrolls : t.scrolls = scrolls
  cell : ∀ c, t.cell c = s.cell c

/-- **A character goes to the cell at the cursor, and the cursor to the next one.** -/
theorem printChar_plain (h : s.OnScreen) {c : UInt8} (hnewline : c ≠ 0x0A) (hbackspace : c ≠ 0x08)
    (hroom : s.pos + 1 < 2000) : Moved s (s.printChar c) (s.pos + 1)
      (fun i => if i = s.pos then s.cell c else s.video.cells i) s.scrolls := by
  have hon := h.printChar c
  rw [Screen.pos] at hroom
  rw [Screen.printChar, if_neg hnewline, if_neg hbackspace] at hon ⊢
  have hput : ∀ i : Int, (s.put c).video.cells i =
      if i = s.pos then s.cell c else s.video.cells i := Video.store_cells s.pos (s.cell c)
  have hx := h.x
  simp only at hon ⊢
  split at hon
  · next hfull =>
    -- the end of a row that is not the last
    have hedge : s.cursorX + 1 ≥ 80 := hfull
    rw [Screen.nextRow, if_neg (by simp only [put]; omega)] at hon
    rw [if_pos hfull, Screen.nextRow, if_neg (by simp only [put]; omega)]
    refine ⟨hon, ?_, fun i _ _ => hput i, rfl, fun _ => rfl⟩
    simp only [put, Screen.pos]
    omega
  · next hinside =>
    rw [if_neg hinside]
    refine ⟨hon, ?_, fun i _ _ => hput i, rfl, fun _ => rfl⟩
    simp only [put, Screen.pos]
    omega

/-- From the last cell, with the rest of the screen one row up. -/
theorem printChar_scroll (h : s.OnScreen) {c : UInt8} (hnewline : c ≠ 0x0A) (hbackspace : c ≠ 0x08)
    (hlast : s.pos + 1 = 2000) : Moved s (s.printChar c) 1920
      (fun i => if i < 1920 then (if i + 80 = s.pos then s.cell c else s.video.cells (i + 80))
        else s.cell 0x20) (s.scrolls + 1) := by
  have hon := h.printChar c
  rw [Screen.pos] at hlast
  rw [Screen.printChar, if_neg hnewline, if_neg hbackspace] at hon ⊢
  have hput : ∀ i : Int, (s.put c).video.cells i =
      if i = s.pos then s.cell c else s.video.cells i := Video.store_cells s.pos (s.cell c)
  have hx := h.x
  have hy := h.y
  have hfull : (s.put c).cursorX + 1 ≥ 80 := by simp only [put]; omega
  simp only at hon ⊢
  rw [if_pos hfull, Screen.nextRow, if_pos (by simp only [put]; omega)] at hon ⊢
  refine ⟨hon, rfl, fun i hi hi' => ?_, rfl, fun _ => rfl⟩
  change ((s.put c).video.scroll (s.cell 0x20)).cells i = _
  rw [Video.scroll_cells]
  by_cases hup : i < 1920
  · rw [if_pos ⟨hi, hup⟩, if_pos hup, hput]
  · rw [if_neg (by omega), if_neg hup, if_pos (by omega)]

/-- A newline leaves the cells as they are, or moves them one row up from the last row. -/
theorem printChar_newline (h : s.OnScreen) :
    Moved s (s.printChar 0x0A) ((s.cursorY + 1) * 80) s.video.cells s.scrolls ∨
      1920 ≤ s.pos ∧ Moved s (s.printChar 0x0A) 1920
        (fun i => if i < 1920 then s.video.cells (i + 80) else s.cell 0x20) (s.scrolls + 1) := by
  have hon := h.printChar 0x0A
  have hx := h.x
  have hy := h.y
  rw [Screen.printChar, if_pos rfl, Screen.nextRow] at hon ⊢
  simp only at hon ⊢
  split at hon
  · next hlast =>
    rw [if_pos hlast]
    refine .inr ⟨by rw [Screen.pos]; omega, hon, rfl, fun i hi hi' => ?_, rfl, fun _ => rfl⟩
    change (s.video.scroll (s.cell 0x20)).cells i = _
    rw [Video.scroll_cells]
    by_cases hup : i < 1920
    · rw [if_pos ⟨hi, hup⟩, if_pos hup]
    · rw [if_neg (by omega), if_neg hup, if_pos (by omega)]
  · next hroom =>
    rw [if_neg hroom]
    exact .inl ⟨hon, by simp only [Screen.pos]; omega, fun _ _ _ => rfl, rfl, fun _ => rfl⟩

/-- **Backspace blanks the cell before the cursor.** -/
theorem backspace_moved (h : s.OnScreen) (hpos : 0 < s.pos) : Moved s s.backspace (s.pos - 1)
    (fun i => if i = s.pos - 1 then s.cell 0x20 else s.video.cells i) s.scrolls := by
  have hon := h.backspace
  have hx := h.x
  have hy := h.y
  rw [Screen.pos] at hpos
  rw [Screen.backspace] at hon ⊢
  have hput : ∀ (t : Screen) (i : Int), (t.put 0x20).video.cells i =
      if i = t.pos then t.cell 0x20 else t.video.cells i := fun t =>
    Video.store_cells t.pos (t.cell 0x20)
  split at hon
  · next hleft =>
    rw [if_pos hleft]
    have heq : ({ s with cursorX := s.cursorX - 1 } : Screen).pos = s.pos - 1 := by
      simp only [Screen.pos]
      omega
    refine ⟨hon, heq, fun i _ _ => ?_, rfl, fun _ => rfl⟩
    rw [hput, heq]
    rfl
  · next hleft =>
    have hup : s.cursorY > 0 := by omega
    rw [if_neg hleft, if_pos hup]
    have heq : ({ s with cursorY := s.cursorY - 1, cursorX := 79 } : Screen).pos = s.pos - 1 := by
      simp only [Screen.pos]
      omega
    rw [if_pos hup] at hon
    refine ⟨hon, heq, fun i _ _ => ?_, rfl, fun _ => rfl⟩
    rw [hput, heq]
    rfl

/-! ## The window -/

/-- The screen shows the last 25 of the rows `done` and `last`, and the cursor is in the row of
`last`. -/
structure ShowsRows (s : Screen) (done : List (List UInt8)) (last : List UInt8) : Prop where
  y : s.cursorY = (done.length - (done.length - 24) : Nat)
  cells : ∀ y x : Nat, y < 25 → x < 80 → s.video.cells (y * 80 + x) =
    s.cell (Rows.charAt 0x20 (done ++ [last]) (done.length - 24 + y) x)

/-- And the cursor is behind `last`. -/
structure Shows (s : Screen) (done : List (List UInt8)) (last : List UInt8) : Prop
    extends ShowsRows s done last where
  x : s.cursorX = last.length
  short : last.length < 80

@[simp] theorem cell_put (c d : UInt8) : (s.put c).cell d = s.cell d := rfl

@[simp] theorem cell_nextRow (d : UInt8) : s.nextRow.cell d = s.cell d := by
  rw [nextRow]
  simp only
  split
  · rfl
  · rfl

/-- The next row is empty; if it is the 26th of the window, the first one goes. -/
theorem ShowsRows.nextRow {done : List (List UInt8)} {last : List UInt8}
    (h : ShowsRows s done last) : Shows s.nextRow (done ++ [last]) [] := by
  have hy := h.y
  have hlen : (done ++ [last]).length = done.length + 1 := List.length_append
  refine ⟨⟨?_, fun y x hy' hx' => ?_⟩, ?_, by decide⟩
  · rw [Screen.nextRow, hlen]
    simp only
    split
    · simp only [scrollDown]
      omega
    · simp only
      omega
  · rw [cell_nextRow, Rows.charAt_concat_nil, hlen, Screen.nextRow]
    simp only
    split
    · next hscroll =>
      -- the window moves down by one row
      have htop : done.length + 1 - 24 + y = done.length - 24 + (y + 1) := by omega
      simp only [scrollDown, Video.scroll_cells]
      rw [htop]
      by_cases hlast : y < 24
      · have hrow : (y * 80 + x : Int) + 80 = ((y + 1 : Nat) : Int) * 80 + x := by omega
        rw [if_pos (by omega), hrow, h.cells (y + 1) x (by omega) hx']
      · rw [if_neg (by omega), if_pos (by omega), Rows.charAt_of_ge _ (by omega)]
        rfl
    · next hroom =>
      have htop : done.length + 1 - 24 + y = done.length - 24 + y := by omega
      rw [htop]
      exact h.cells y x hy' hx'
  · rw [Screen.nextRow]
    simp only
    split
    · rfl
    · rfl

theorem Shows.put {done : List (List UInt8)} {last : List UInt8} (h : Shows s done last)
    (c : UInt8) : ShowsRows (s.put c) done (last ++ [c]) := by
  have hy := h.y
  have hx := h.x
  have hshort := h.short
  refine ⟨h.y, fun y x hy' hx' => ?_⟩
  rw [cell_put, Rows.charAt_concat_char]
  change (s.video.store s.pos (s.cell c)).cells _ = _
  rw [Video.store_cells, Screen.pos, hx, hy]
  by_cases hat : done.length - 24 + y = done.length ∧ x = last.length
  · rw [if_pos (by omega), if_pos hat]
  · rw [if_neg (by omega), if_neg hat]
    exact h.cells y x hy' hx'

/-- **A character goes where the layout has it.** -/
theorem Shows.printChar {done : List (List UInt8)} {last : List UInt8} (h : Shows s done last)
    {c : UInt8} (hc : c ≠ 0x08) : ∃ done' last', Shows (s.printChar c) done' last' ∧
      (∀ text, done' ++ Rows.layoutFrom 80 0x0A last' text =
        done ++ Rows.layoutFrom 80 0x0A last (c :: text)) ∧
      ∀ d, (s.printChar c).cell d = s.cell d := by
  rw [Screen.printChar]
  by_cases hnewline : c = 0x0A
  · rw [if_pos hnewline]
    refine ⟨done ++ [last], [], h.nextRow, fun text => ?_, fun d => cell_nextRow d⟩
    rw [Rows.layoutFrom, if_pos hnewline, List.append_assoc]
    rfl
  rw [if_neg hnewline, if_neg hc]
  have hput := h.put c
  have hx := h.x
  have hshort := h.short
  have hlen : (last ++ [c]).length = last.length + 1 := List.length_append
  simp only
  split
  · next hfull =>
    have hwidth : last.length + 1 = 80 := by
      simp only [Screen.put] at hfull
      omega
    refine ⟨done ++ [last ++ [c]], [], ShowsRows.nextRow ⟨hput.y, hput.cells⟩, fun text => ?_,
      fun d => cell_nextRow d⟩
    rw [Rows.layoutFrom, if_neg hnewline, if_pos hwidth, List.append_assoc]
    rfl
  · next hroom =>
    have hwidth : last.length + 1 < 80 := by
      simp only [Screen.put] at hroom
      omega
    refine ⟨done, last ++ [c], ⟨⟨hput.y, hput.cells⟩, ?_, by omega⟩, fun text => ?_, fun d => rfl⟩
    · simp only [Screen.put]
      omega
    · rw [Rows.layoutFrom, if_neg hnewline, if_neg (Nat.ne_of_lt hwidth)]

theorem Shows.print {text : List UInt8} (htext : 0x08 ∉ text) {s : Screen}
    {done : List (List UInt8)} {last : List UInt8} (h : Shows s done last) :
    ∃ done' last', Shows (s.print text) done' last' ∧
      done' ++ [last'] = done ++ Rows.layoutFrom 80 0x0A last text ∧
      ∀ d, (s.print text).cell d = s.cell d := by
  induction text generalizing s done last with
  | nil => exact ⟨done, last, h, rfl, fun d => rfl⟩
  | cons c text ih =>
    rw [List.mem_cons, not_or] at htext
    obtain ⟨done', last', hshows, hlayout, hcell⟩ := h.printChar (Ne.symm htext.1)
    obtain ⟨done'', last'', hprint, hrows, hcell'⟩ := ih htext.2 hshows
    exact ⟨done'', last'', hprint, hrows.trans (hlayout text), fun d => (hcell' d).trans (hcell d)⟩

theorem shows_clear (s : Screen) : Shows s.clear [] [] where
  y := rfl
  cells := by
    intro y x hy hx
    have hblank : Rows.charAt 0x20 ([] ++ [[]]) (([] : List (List UInt8)).length - 24 + y) x =
        (0x20 : UInt8) := by
      rw [Rows.charAt_concat_nil, Rows.charAt_of_ge _ (Nat.zero_le _)]
    rw [hblank]
    change (s.video.fill (s.cell 0x20) 0 (80 * 25)).cells _ = s.cell 0x20
    rw [Video.fill_cells, if_pos (by omega)]
  x := rfl
  short := by decide

/-- **The screen shows the last 25 rows of the text, and whatever is called stays on it.** -/
theorem screenPrint_layout :
    (∀ (s : Screen) (text : List UInt8), (∀ c ∈ text, 32 ≤ c ∧ c ≤ 126 ∨ c = 0x0A) →
      let rows := Rows.window 25 (Rows.layout 80 0x0A text)
      (∀ y x : Nat, y < 25 → x < 80 → (s.clear.print text).video.cells (y * 80 + x) =
        s.cell (Rows.charAt 0x20 rows y x)) ∧
      (s.clear.print text).cursorY + 1 = rows.length ∧
      (s.clear.print text).cursorX = (rows.getLastD []).length) ∧
    ∀ (cells : Int → UInt16) (calls : List ScreenCall),
      let s := calls.foldl (fun s c => c.apply s) (boot cells)
      (0 ≤ s.cursorX ∧ s.cursorX < 80) ∧ (0 ≤ s.cursorY ∧ s.cursorY < 25) ∧
        ∀ i ∈ s.video.written, 0 ≤ i ∧ i < 2000 := by
  constructor
  · intro s text htext
    have hbackspace : 0x08 ∉ text := fun hmem => by
      rcases htext _ hmem with hprintable | hnewline
      · exact absurd hprintable.1 (by decide)
      · exact absurd hnewline (by decide)
    obtain ⟨done, last, hshows, hlayout, hcell⟩ := Shows.print hbackspace (shows_clear s)
    have hrows : Rows.layout 80 0x0A text = done ++ [last] := hlayout.symm
    have htop : (done ++ [last]).length - 25 = done.length - 24 := by
      rw [List.length_append, List.length_singleton]
      omega
    have hwindow : Rows.window 25 (done ++ [last]) = done.drop (done.length - 24) ++ [last] := by
      rw [Rows.window, htop, List.drop_append_of_le_length (Nat.sub_le _ _)]
    simp only [hrows]
    refine ⟨fun y x hy hx => ?_, ?_, ?_⟩
    · rw [Rows.charAt_window, htop, hshows.cells y x hy hx, hcell]
      rfl
    · rw [hshows.y, hwindow, List.length_append, List.length_drop, List.length_singleton]
      push_cast
      rfl
    · rw [hshows.x, hwindow, List.getLastD_concat]
  · intro cells calls
    have h := onScreen_run cells calls
    exact ⟨h.x, h.y, h.video⟩

end Screen

end EphemeralOS
