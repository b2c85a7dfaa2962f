import EphemeralOS.Kernel.Login

/-!
# The installer

`installer_run` (`installer/installer.c`) over the characters that
`keyboard_getchar` returns, as in `do_login`: a hostname, a username, and pairs
of passwords until one has the same line twice. Then it installs what has been
typed (`installerRun_iff`).
-/

namespace EphemeralOS

/-- What `keyboard_getline` leaves in its buffer: printable characters that fit. -/
structure TypedLine (maxLength : Nat) (line : List UInt8) : Prop where
  fits : line.length ≤ maxLength - 1
  printable : ∀ c ∈ line, c ≥ 32 ∧ c ≤ 126

theorem getlineFrom_typedLine {maxLength : Nat} {line keys line' rest : List UInt8}
    (hline : TypedLine maxLength line)
    (h : getlineFrom maxLength line keys = some (line', rest)) : TypedLine maxLength line' := by
  induction keys generalizing line with
  | nil => cases h
  | cons c keys ih =>
    rw [getlineFrom] at h
    split at h
    · cases h
      exact hline
    split at h
    · refine ih ⟨?_, fun c hc => hline.printable c (List.mem_of_mem_dropLast hc)⟩ h
      rw [List.length_dropLast]
      exact Nat.le_trans (Nat.sub_le _ _) hline.fits
    split at h
    · next hc =>
      refine ih ⟨?_, ?_⟩ h
      · rw [List.length_append, List.length_singleton]
        exact hc.1
      · intro d hd
        rcases List.mem_append.mp hd with hd | hd
        · exact hline.printable d hd
        · exact List.mem_singleton.mp hd ▸ hc.2
    · exact ih hline h

theorem Typed.typedLine {keys rest : List UInt8} {lines : List (List UInt8)}
    (h : Typed keys lines rest) : ∀ line ∈ lines, TypedLine 64 line := by
  induction h with
  | nil => exact fun _ h => absurd h List.not_mem_nil
  | cons hline _ ih =>
    rintro line (_ | ⟨_, hmem⟩)
    · exact getlineFrom_typedLine ⟨Nat.zero_le _, fun _ h => absurd h List.not_mem_nil⟩ hline
    · exact ih line hmem

theorem TypedLine.noNul {maxLength : Nat} {line : List UInt8} (h : TypedLine maxLength line) :
    0 ∉ line := fun h0 => absurd (h.printable 0 h0).1 (by decide)

/-! ## `installer_run` -/

def confirmPassword (keys : List UInt8) : Option (List UInt8 × List UInt8) :=
  match _ : keyboardGetlinePassword 64 keys with
  | none => none
  | some (password, keys') =>
    match _ : keyboardGetlinePassword 64 keys' with
    | none => none
    | some (passwordConfirm, keys'') =>
      if password = passwordConfirm then some (password, keys'') else confirmPassword keys''
termination_by keys.length
decreasing_by exact Nat.lt_trans (getlineFrom_length ‹_›) (getlineFrom_length ‹_›)

/-- `installer_run`: what it installs and the characters left, `none` while it waits for more. -/
def installerRun (keys : List UInt8) (s : FsState) : Option (FsState × List UInt8) :=
  match keyboardGetline 64 keys with
  | none => none
  | some (hostname, keys) =>
    match keyboardGetline 64 keys with
    | none => none
    | some (username, keys) =>
      match confirmPassword keys with
      | none => none
      | some (password, keys) => some (fsInstall hostname username password s, keys)

/-- The lines that give a password: pairs of different lines, then the password twice. -/
inductive Confirmed (password : List UInt8) : List (List UInt8) → Prop
  | done : Confirmed password [password, password]
  | again {line line' : List UInt8} {lines : List (List UInt8)} : line ≠ line' →
      Confirmed password lines → Confirmed password (line :: line' :: lines)

theorem confirmed_cons {password line line' : List UInt8} {lines : List (List UInt8)} :
    Confirmed password (line :: line' :: lines) ↔
      line = line' ∧ password = line ∧ lines = [] ∨ line ≠ line' ∧ Confirmed password lines := by
  constructor
  · intro h
    cases h with
    | done => exact .inl ⟨rfl, rfl, rfl⟩
    | again hne h => exact .inr ⟨hne, h⟩
  · rintro (⟨rfl, rfl, rfl⟩ | ⟨hne, h⟩)
    · exact .done
    · exact .again hne h

theorem Confirmed.two {password : List UInt8} {lines : List (List UInt8)}
    (h : Confirmed password lines) : ∃ line line' more, lines = line :: line' :: more := by
  cases h with
  | done => exact ⟨_, _, _, rfl⟩
  | again _ _ => exact ⟨_, _, _, rfl⟩

theorem confirmPassword_iff {keys password rest : List UInt8} :
    confirmPassword keys = some (password, rest) ↔
      ∃ lines, Typed keys lines rest ∧ Confirmed password lines := by
  -- by induction on the characters typed: a pair of lines reads some of them
  generalize hn : keys.length = n
  induction n using Nat.strong_induction_on generalizing keys with
  | _ n ih =>
    have hpair : (∃ lines, Typed keys lines rest ∧ Confirmed password lines) ↔
        ∃ line keys' line' keys'', keyboardGetline 64 keys = some (line, keys') ∧
          keyboardGetline 64 keys' = some (line', keys'') ∧
            ((line = line' ∧ password = line ∧ rest = keys'') ∨ (line ≠ line' ∧
              ∃ lines, Typed keys'' lines rest ∧ Confirmed password lines)) := by
      constructor
      · rintro ⟨lines, htyped, hconfirmed⟩
        obtain ⟨line, line', more, rfl⟩ := hconfirmed.two
        obtain ⟨keys', hline, htyped⟩ := typed_cons.mp htyped
        obtain ⟨keys'', hline', htyped⟩ := typed_cons.mp htyped
        refine ⟨line, keys', line', keys'', hline, hline', ?_⟩
        rcases confirmed_cons.mp hconfirmed with ⟨heq, hpassword, rfl⟩ | ⟨hne, hconfirmed⟩
        · exact .inl ⟨heq, hpassword, typed_nil.mp htyped⟩
        · exact .inr ⟨hne, more, htyped, hconfirmed⟩
      · rintro ⟨line, keys', line', keys'', hline, hline', ⟨heq, hpassword, rfl⟩ |
          ⟨hne, more, htyped, hconfirmed⟩⟩
        · exact ⟨_, .cons hline (.cons hline' .nil), confirmed_cons.mpr (.inl ⟨heq, hpassword, rfl⟩)⟩
        · exact ⟨_, .cons hline (.cons hline' htyped), .again hne hconfirmed⟩
    rw [hpair, confirmPassword]
    split
    · next h =>
      refine ⟨fun h => (by cases h), ?_⟩
      rintro ⟨line, keys', -, -, hline, -⟩
      cases hline.symm.trans h
    next line keys' h =>
    split
    · next h' =>
      refine ⟨fun h => (by cases h), ?_⟩
      rintro ⟨_, _, line', keys'', hline, hline', -⟩
      cases hline.symm.trans h
      cases hline'.symm.trans h'
    next line' keys'' h' =>
    have hlt := Nat.lt_trans (getlineFrom_length h') (getlineFrom_length h)
    constructor
    · intro hrun
      refine ⟨line, keys', line', keys'', h, h', ?_⟩
      split at hrun
      · next heq =>
        cases hrun
        exact .inl ⟨heq, rfl, rfl⟩
      · next hne => exact .inr ⟨hne, (ih _ (hn ▸ hlt) rfl).mp hrun⟩
    · rintro ⟨_, _, _, _, hline, hline', hcases⟩
      cases hline.symm.trans h
      cases hline'.symm.trans h'
      rcases hcases with ⟨heq, rfl, rfl⟩ | ⟨hne, hmore⟩
      · rw [if_pos heq]
      · rw [if_neg hne]
        exact (ih _ (hn ▸ hlt) rfl).mpr hmore

/-- The dialogue: the lines typed are a hostname, a username and what gives a password. -/
def Dialogue (keys hostname username password rest : List UInt8) : Prop :=
  ∃ lines, Typed keys (hostname :: username :: lines) rest ∧ Confirmed password lines

theorem Dialogue.typedLine {keys hostname username password rest : List UInt8}
    (h : Dialogue keys hostname username password rest) :
    TypedLine 64 hostname ∧ TypedLine 64 username ∧ TypedLine 64 password := by
  obtain ⟨lines, htyped, hconfirmed⟩ := h
  have hlines := htyped.typedLine
  refine ⟨hlines _ List.mem_cons_self, hlines _ (List.mem_cons_of_mem _ List.mem_cons_self), ?_⟩
  have hmem : password ∈ lines := by
    clear htyped hlines
    induction hconfirmed with
    | done => exact List.mem_cons_self
    | again _ _ ih => exact List.mem_cons_of_mem _ (List.mem_cons_of_mem _ ih)
  exact hlines _ (List.mem_cons_of_mem _ (List.mem_cons_of_mem _ hmem))

/-- **`installer_run` installs what a dialogue gives, and returns only after one.** -/
theorem installerRun_iff {keys rest : List UInt8} {s s' : FsState} :
    installerRun keys s = some (s', rest) ↔ ∃ hostname username password,
      Dialogue keys hostname username password rest ∧
        s' = fsInstall hostname username password s := by
  constructor
  · intro h
    unfold installerRun at h
    split at h
    · cases h
    next hostname keys' hhost =>
    split at h
    · cases h
    next username keys'' huser =>
    split at h
    · cases h
    next password rest' hpass =>
    obtain ⟨rfl, rfl⟩ := Prod.mk.inj (Option.some.inj h)
    obtain ⟨lines, htyped, hconfirmed⟩ := confirmPassword_iff.mp hpass
    exact ⟨hostname, username, password, ⟨lines, .cons hhost (.cons huser htyped), hconfirmed⟩, rfl⟩
  · rintro ⟨hostname, username, password, ⟨lines, htyped, hconfirmed⟩, rfl⟩
    obtain ⟨keys', hhost, htyped⟩ := typed_cons.mp htyped
    obtain ⟨keys'', huser, htyped⟩ := typed_cons.mp htyped
    have hpass := confirmPassword_iff.mpr ⟨lines, htyped, hconfirmed⟩
    simp only [installerRun, hhost, huser, hpass]

end EphemeralOS
