import EphemeralOS.Drivers.Keyboard
import EphemeralOS.Kernel.Login

/-!
# Reading a line

`keyboard_getline` (`drivers/keyboard.c`) and the two copies of
`keyboard_getline_password` (`kernel/kernel.c`, `installer/installer.c`), on the
scancodes to come. They read the same line (`getline_inStep`), the one that
`do_login` compares (`keyboardGetline_chars`).
-/

namespace EphemeralOS

/-- The call in `keyboard.c`, after `scancodes`. -/
def Keyboard.keyboardGetline (buffer : Int → UInt8) (maxLength : Int) (shiftPressed : Bool)
    (screen : Screen) (scancodes : List UInt8) : Keyboard.Getline :=
  (Keyboard.Getline.start shiftPressed buffer screen).run (fun c => c) maxLength scancodes

/-- The copy in `kernel.c`. -/
def Kernel.keyboardGetlinePassword (buffer : Int → UInt8) (maxLength : Int) (shiftPressed : Bool)
    (screen : Screen) (scancodes : List UInt8) : Keyboard.Getline :=
  (Keyboard.Getline.start shiftPressed buffer screen).run (fun _ => 0x2A) maxLength scancodes

/-- The copy in `installer.c`. -/
def Installer.keyboardGetlinePassword (buffer : Int → UInt8) (maxLength : Int) (shiftPressed : Bool)
    (screen : Screen) (scancodes : List UInt8) : Keyboard.Getline :=
  (Keyboard.Getline.start shiftPressed buffer screen).run (fun _ => 0x2A) maxLength scancodes

namespace Keyboard

theorem edit_nat (maxLength : Nat) (line : List UInt8) (c : UInt8) : edit maxLength line c =
    if c = backspace then line.dropLast
    else if line.length < maxLength - 1 ∧ c ≥ 32 ∧ c ≤ 126 then line ++ [c]
    else line := by
  rw [edit]
  have hroom : (line.length : Int) < (maxLength : Int) - 1 ↔ line.length < maxLength - 1 := by omega
  simp only [hroom, ge_iff_le, backspace]

theorem getlineFrom_chars (maxLength : Nat) (line chars : List UInt8) :
    (getlineFrom maxLength line chars).map Prod.fst =
      if 0x0A ∈ chars then some ((chars.takeWhile (· ≠ 0x0A)).foldl (edit maxLength) line)
      else none := by
  change _ = if newline ∈ chars then
    some ((chars.takeWhile (· ≠ newline)).foldl (edit maxLength) line) else none
  induction chars generalizing line with
  | nil => rfl
  | cons c chars ih =>
    rw [getlineFrom]
    by_cases hnewline : c = newline
    · rw [if_pos hnewline, hnewline, if_pos List.mem_cons_self,
        List.takeWhile_cons_of_neg (by simp)]
      rfl
    have hmem : newline ∈ c :: chars ↔ newline ∈ chars := by simp [Ne.symm hnewline]
    rw [if_neg hnewline, List.takeWhile_cons_of_pos (by simpa using hnewline), List.foldl_cons]
    simp only [hmem]
    rw [edit_nat]
    split
    · exact ih _
    split
    · exact ih _
    · exact ih _

/-- The line editor of `do_login` reads the line that the characters make. -/
theorem keyboardGetline_chars (maxLength : Nat) (chars : List UInt8) :
    (EphemeralOS.keyboardGetline maxLength chars).map Prod.fst =
      if 0x0A ∈ chars then some (edited maxLength chars) else none :=
  getlineFrom_chars maxLength [] chars

/-! ## The three editors -/

theorem edit_printable {maxLength : Int} {line : List UInt8} (h : ∀ c ∈ line, 32 ≤ c ∧ c ≤ 126)
    (c : UInt8) : ∀ d ∈ edit maxLength line c, 32 ≤ d ∧ d ≤ 126 := by
  intro d hd
  rw [edit] at hd
  split at hd
  · exact h d (List.mem_of_mem_dropLast hd)
  split at hd
  · next hc =>
    rcases List.mem_append.mp hd with hd | hd
    · exact h d hd
    · exact List.mem_singleton.mp hd ▸ hc.2
  · exact h d hd

/-- A line has no zero, so that it is the string in the buffer once it is terminated. -/
theorem edited_printable (maxLength : Int) (chars : List UInt8) :
    ∀ c ∈ edited maxLength chars, 32 ≤ c ∧ c ≤ 126 := by
  rw [edited]
  induction chars.takeWhile (· ≠ 0x0A) using List.reverseRecOn with
  | nil => exact fun c hc => absurd hc List.not_mem_nil
  | append_singleton chars c ih =>
    rw [List.foldl_concat]
    exact edit_printable ih c

/-- **The three editors read the same line, and show it behind the prompt.** -/
theorem getline_inStep (cells : Int → UInt16) (calls : List ScreenCall) (prompt : List UInt8)
    (buffer : Int → UInt8) (maxLength : Int) (hmin : 1 ≤ maxLength) (hmax : maxLength ≤ 256)
    (shiftPressed : Bool) (scancodes : List UInt8) :
    let s := (calls.foldl (fun s c => c.apply s) (Screen.boot cells)).print prompt
    let chars := decoded shiftPressed scancodes
    InStep (fun c => c) s maxLength chars
        (keyboardGetline buffer maxLength shiftPressed s scancodes) ∧
      InStep (fun _ => 0x2A) s maxLength chars
        (Kernel.keyboardGetlinePassword buffer maxLength shiftPressed s scancodes) ∧
      InStep (fun _ => 0x2A) s maxLength chars
        (Installer.keyboardGetlinePassword buffer maxLength shiftPressed s scancodes) ∧
      ∀ c ∈ edited maxLength chars, 32 ≤ c ∧ c ≤ 126 := by
  intro s chars
  have hs : s.OnScreen := (Screen.onScreen_run cells calls).print prompt
  have hnil : 0x0A ∉ ([] : List UInt8) := List.not_mem_nil
  have hstars : ∀ c : UInt8, 32 ≤ c → c ≤ 126 → (0x2A : UInt8) ≠ 0x0A ∧ (0x2A : UInt8) ≠ 0x08 :=
    fun _ _ _ => by decide
  have hself : ∀ c : UInt8, 32 ≤ c → c ≤ 126 → c ≠ 0x0A ∧ c ≠ 0x08 := fun c hc _ =>
    ⟨fun h => absurd (h ▸ hc) (by decide), fun h => absurd (h ▸ hc) (by decide)⟩
  have hshown := Editing.run hmax hself hnil (.start hs hmin shiftPressed buffer) scancodes
  have hhidden := Editing.run hmax hstars hnil (.start hs hmin shiftPressed buffer) scancodes
  exact ⟨hshown, hhidden, hhidden, edited_printable maxLength chars⟩

/-- `H`, `j`, a backspace, `i` and Enter, typed with their releases. -/
def sampleScancodes : List UInt8 :=
  [0x2A, 0x23, 0xA3, 0xAA, 0x24, 0xA4, 0x0E, 0x8E, 0x17, 0x97, 0x1C]

theorem sampleScancodes_inStep :
    let s := (Screen.boot (fun _ => 0)).clear.print (ascii "Password: ")
    let g := Kernel.keyboardGetlinePassword (fun _ => 0) 64 false s sampleScancodes
    edited 64 (decoded false sampleScancodes) = ascii "Hi" ∧
      InStep (fun _ => 0x2A) s 64 (decoded false sampleScancodes) g := by
  intro s g
  have h := getline_inStep (fun _ => 0) [.clear] (ascii "Password: ") (fun _ => 0) 64 (by decide)
    (by decide) false sampleScancodes
  exact ⟨by decide +kernel, h.2.1⟩

end Keyboard

end EphemeralOS
