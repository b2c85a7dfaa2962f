import Mathlib.Data.List.OfFn
import Mathlib.Data.List.FinRange
import Mathlib.Data.List.TakeWhile

/-!
# C strings

A `char` array of `n` bytes is a `CArray n`; the string it holds (`cstr`) is
its bytes before the first NUL. Strings passed around as pointers are the list
of their bytes, `CStr` when the absence of NUL bytes matters. `strcpy` into an
array overwrites the string's bytes and one NUL and keeps the rest
(`kernel/string.c`).
-/

namespace EphemeralOS

/-- A `char[n]` or `uint8_t[n]` object. -/
abbrev CArray (n : Nat) := Fin n → UInt8

/-- A NUL-terminated string, as its bytes before the NUL. -/
abbrev CStr := { l : List UInt8 // 0 ∉ l }

def ascii (t : String) : List UInt8 := t.toList.map fun c => UInt8.ofNat c.toNat

/-- The bytes from a pointer on. -/
abbrev Memory := Nat → UInt8

/-- `memcpy` of the bytes `l` to offset `off`. -/
def Memory.store (m : Memory) (off : Nat) (l : List UInt8) : Memory := fun a =>
  if off ≤ a ∧ a < off + l.length then l.getD (a - off) 0 else m a

/-- The `n` bytes from offset `off` on. -/
def Memory.bytes (m : Memory) (off n : Nat) : List UInt8 := (List.range n).map fun j => m (off + j)

namespace CArray

variable {n : Nat}

/-- `memset(a, 0, n)`. -/
def zero : CArray n := fun _ => 0

/-- The string an array holds: what `strcmp` and `strlen` see of it. -/
def cstr (a : CArray n) : List UInt8 := (List.ofFn a).takeWhile (· ≠ 0)

/-- `strcpy(a, s)`, as far as it lands in the array. -/
def strcpy (a : CArray n) (s : List UInt8) : CArray n := fun i =>
  if i < s.length then s.getD i 0 else if (i : Nat) = s.length then 0 else a i

@[simp] theorem cstr_zero : (zero : CArray n).cstr = [] := by
  cases n with
  | zero => rfl
  | succ n => simp [cstr, zero, List.ofFn_succ]

theorem cstr_noNul (a : CArray n) : 0 ∉ a.cstr := fun h => by
  have := List.mem_takeWhile_imp h
  simp at this

/-- **`strcpy` of a string that fits with its NUL stores that string.** -/
theorem cstr_strcpy (a : CArray n) {s : List UInt8} (h0 : 0 ∉ s) (hn : s.length < n) :
    (a.strcpy s).cstr = s := by
  have hsplit : List.ofFn (a.strcpy s) = s ++ 0 :: (List.ofFn a).drop (s.length + 1) := by
    apply List.ext_getElem
    · simp; omega
    · intro i h1 h2
      simp only [List.length_ofFn] at h1
      rw [List.getElem_ofFn]
      simp only [strcpy]
      split
      · next h => simp [List.getElem_append_left h, h]
      · next h =>
        rw [List.getElem_append_right (by omega)]
        split
        · next h' => simp [h']
        · next h' =>
          obtain ⟨k, hk⟩ : ∃ k, i - s.length = k + 1 := ⟨i - s.length - 1, by omega⟩
          simp only [hk, List.getElem_cons_succ, List.getElem_drop, List.getElem_ofFn]
          congr 1
          exact Fin.ext (by simp only; omega)
  have hall : ∀ b ∈ s, decide (b ≠ 0) = true := fun b hb => decide_eq_true fun e => h0 (e ▸ hb)
  rw [cstr, hsplit, List.takeWhile_append_of_pos hall]
  simp

end CArray

end EphemeralOS
