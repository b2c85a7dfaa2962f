import EphemeralOS.Fs.Credentials

/-!
# Logging in

`do_login` (`kernel/kernel.c`) over the characters that `keyboard_getchar`
returns one after another; what it prints is left out. It compares the username
itself but only the hash of the password, so it returns at the first username
line followed by a line of the password's hash (`login_iff`), which need not be
the password (`other_password_logs_in`).
-/

namespace EphemeralOS

def newline : UInt8 := 10
def backspace : UInt8 := 8

/-- The loop of `keyboard_getline` with `line` in the buffer: the line, and the characters left.
`none` is a wait for more of them. A `char` from 32 to 126 is the same signed or not. -/
def getlineFrom (maxLength : Nat) : List UInt8 → List UInt8 → Option (List UInt8 × List UInt8)
  | _, [] => none
  | line, c :: keys =>
    if c = newline then some (line, keys)
    else if c = backspace then getlineFrom maxLength line.dropLast keys
    else if line.length < maxLength - 1 ∧ c ≥ 32 ∧ c ≤ 126 then
      getlineFrom maxLength (line ++ [c]) keys
    else getlineFrom maxLength line keys

def keyboardGetline (maxLength : Nat) (keys : List UInt8) : Option (List UInt8 × List UInt8) :=
  getlineFrom maxLength [] keys

/-- `keyboard_getline_password`, which shows stars instead of the characters. -/
def keyboardGetlinePassword (maxLength : Nat) (keys : List UInt8) :
    Option (List UInt8 × List UInt8) :=
  getlineFrom maxLength [] keys

theorem getlineFrom_length {maxLength : Nat} {line keys line' rest : List UInt8}
    (h : getlineFrom maxLength line keys = some (line', rest)) : rest.length < keys.length := by
  induction keys generalizing line with
  | nil => cases h
  | cons c keys ih =>
    rw [getlineFrom] at h
    rw [List.length_cons]
    split at h
    · cases h
      omega
    split at h
    · exact Nat.lt_succ_of_lt (ih h)
    split at h <;> exact Nat.lt_succ_of_lt (ih h)

/-- The next lines typed are `lines`; `rest` is left. -/
inductive Typed : List UInt8 → List (List UInt8) → List UInt8 → Prop
  | nil {keys : List UInt8} : Typed keys [] keys
  | cons {keys line keys' rest : List UInt8} {lines : List (List UInt8)} :
      keyboardGetline 64 keys = some (line, keys') → Typed keys' lines rest →
        Typed keys (line :: lines) rest

theorem typed_cons {keys line rest : List UInt8} {lines : List (List UInt8)} :
    Typed keys (line :: lines) rest ↔
      ∃ keys', keyboardGetline 64 keys = some (line, keys') ∧ Typed keys' lines rest :=
  ⟨fun | .cons h ht => ⟨_, h, ht⟩, fun ⟨_, h, ht⟩ => .cons h ht⟩

theorem typed_nil {keys rest : List UInt8} : Typed keys [] rest ↔ rest = keys :=
  ⟨fun | .nil => rfl, fun h => h ▸ .nil⟩

/-! ## `do_login` -/

/-- `do_login`: its result and the characters left, `none` while it waits for more. -/
def doLogin (s : FsState) (keys : List UInt8) : Option (Int × List UInt8) :=
  let storedUsername := fsGetUsername s
  match _ : keyboardGetline 64 keys with
  | none => none
  | some (usernameInput, keys') =>
    if usernameInput ≠ storedUsername then doLogin s keys'
    else
      match _ : keyboardGetlinePassword 64 keys' with
      | none => none
      | some (passwordInput, keys'') =>
        if fsVerifyPassword passwordInput s then some (1, keys'') else doLogin s keys''
termination_by keys.length
decreasing_by
  · exact getlineFrom_length ‹_›
  · exact Nat.lt_trans (getlineFrom_length ‹_›) (getlineFrom_length ‹_›)

section Attempts

variable (username : List UInt8) (accepts : List UInt8 → Prop)

/-- The lines of a failed attempt: another username, or the username and no password. -/
inductive Failed : List (List UInt8) → Prop
  | username {line : List UInt8} : line ≠ username → Failed [line]
  | password {line : List UInt8} : ¬ accepts line → Failed [username, line]

/-- The lines of a login: failed attempts, then the username and a password. -/
inductive Login : List (List UInt8) → Prop
  | done {line : List UInt8} : accepts line → Login [username, line]
  | again {attempt lines : List (List UInt8)} : Failed username accepts attempt → Login lines →
      Login (attempt ++ lines)

end Attempts

section Login

variable {username : List UInt8} {accepts : List UInt8 → Prop}

theorem login_cons_of_ne {line : List UInt8} {lines : List (List UInt8)} (hne : line ≠ username) :
    Login username accepts (line :: lines) ↔ Login username accepts lines := by
  refine ⟨fun h => ?_, fun h => .again (.username hne) h⟩
  generalize hall : line :: lines = all at h
  cases h with
  | done _ =>
    injection hall with h1
    exact absurd h1 hne
  | again hattempt h =>
    cases hattempt with
    | username _ =>
      injection hall with _ h2
      exact h2 ▸ h
    | password _ =>
      injection hall with h1
      exact absurd h1 hne

theorem login_cons_username {lines : List (List UInt8)} :
    Login username accepts (username :: lines) ↔ ∃ line rest, lines = line :: rest ∧
      (accepts line ∧ rest = [] ∨ ¬ accepts line ∧ Login username accepts rest) := by
  constructor
  · intro h
    generalize hall : username :: lines = all at h
    cases h with
    | done hline =>
      injection hall with _ h2
      exact ⟨_, [], h2, .inl ⟨hline, rfl⟩⟩
    | again hattempt h =>
      cases hattempt with
      | username hne =>
        injection hall with h1
        exact absurd h1.symm hne
      | password hline =>
        injection hall with _ h2
        exact ⟨_, _, h2, .inr ⟨hline, h⟩⟩
  · rintro ⟨line, rest, rfl, ⟨hline, rfl⟩ | ⟨hline, h⟩⟩
    · exact .done hline
    · exact .again (.password hline) h

theorem not_login_nil : ¬ Login username accepts [] := by
  intro h
  generalize hall : ([] : List (List UInt8)) = all at h
  cases h with
  | done _ => cases hall
  | again hattempt _ => cases hattempt <;> cases hall

end Login

/-- The lines typed are a login, with `rest` left. -/
def LogsIn (s : FsState) (keys rest : List UInt8) : Prop :=
  ∃ lines, Typed keys lines rest ∧
    Login (fsGetUsername s) (fun line => fsVerifyPassword line s = true) lines

section LogsIn

variable {s : FsState} {keys keys' line rest : List UInt8}

theorem not_logsIn (h : keyboardGetline 64 keys = none) : ¬ LogsIn s keys rest := by
  rintro ⟨_ | ⟨line, lines⟩, htyped, hlogin⟩
  · exact not_login_nil hlogin
  · obtain ⟨keys', hline, -⟩ := typed_cons.mp htyped
    rw [h] at hline
    cases hline

theorem logsIn_of_line (h : keyboardGetline 64 keys = some (line, keys')) :
    LogsIn s keys rest ↔ ∃ lines, Typed keys' lines rest ∧
      Login (fsGetUsername s) (fun line => fsVerifyPassword line s = true) (line :: lines) := by
  constructor
  · rintro ⟨_ | ⟨line', lines⟩, htyped, hlogin⟩
    · exact absurd hlogin not_login_nil
    · obtain ⟨keys'', hline, htyped⟩ := typed_cons.mp htyped
      rw [h] at hline
      cases hline
      exact ⟨lines, htyped, hlogin⟩
  · rintro ⟨lines, htyped, hlogin⟩
    exact ⟨line :: lines, .cons h htyped, hlogin⟩

theorem logsIn_of_ne (h : keyboardGetline 64 keys = some (line, keys'))
    (hne : line ≠ fsGetUsername s) : LogsIn s keys rest ↔ LogsIn s keys' rest := by
  rw [logsIn_of_line h]
  exact exists_congr fun lines => and_congr_right fun _ => login_cons_of_ne hne

theorem logsIn_of_username (h : keyboardGetline 64 keys = some (fsGetUsername s, keys')) :
    LogsIn s keys rest ↔ ∃ line keys'', keyboardGetline 64 keys' = some (line, keys'') ∧
      (fsVerifyPassword line s = true ∧ rest = keys'' ∨
        ¬ fsVerifyPassword line s = true ∧ LogsIn s keys'' rest) := by
  rw [logsIn_of_line h]
  constructor
  · rintro ⟨lines, htyped, hlogin⟩
    obtain ⟨line, more, rfl, h⟩ := login_cons_username.mp hlogin
    obtain ⟨keys'', hline, htyped⟩ := typed_cons.mp htyped
    refine ⟨line, keys'', hline, h.imp ?_ ?_⟩
    · rintro ⟨hok, rfl⟩
      exact ⟨hok, typed_nil.mp htyped⟩
    · rintro ⟨hok, hlogin⟩
      exact ⟨hok, more, htyped, hlogin⟩
  · rintro ⟨line, keys'', hline, ⟨hok, rfl⟩ | ⟨hok, more, htyped, hlogin⟩⟩
    · exact ⟨[line], .cons hline .nil, .done hok⟩
    · exact ⟨line :: more, .cons hline htyped, .again (.password hok) hlogin⟩

end LogsIn

/-- **`do_login` returns after a login, and only then.** -/
theorem doLogin_iff {s : FsState} {keys rest : List UInt8} {r : Int} :
    doLogin s keys = some (r, rest) ↔ r = 1 ∧ LogsIn s keys rest := by
  -- by induction on the characters typed: a failed attempt reads some of them
  generalize hn : keys.length = n
  induction n using Nat.strong_induction_on generalizing keys with
  | _ n ih =>
    rw [doLogin]
    split
    · next h => exact ⟨fun h => (by cases h), fun h' => absurd h'.2 (not_logsIn h)⟩
    next line keys' h =>
    have hlt := getlineFrom_length h
    split
    · next hne => rw [ih _ (hn ▸ hlt) rfl, logsIn_of_ne h hne]
    next heq =>
    rw [not_not] at heq
    subst heq
    rw [logsIn_of_username h]
    split
    · next h' =>
      refine ⟨fun h => (by cases h), ?_⟩
      rintro ⟨-, line', keys'', hline, -⟩
      cases h'.symm.trans hline
    next line' keys'' h' =>
    have hline : ∀ a b, keyboardGetline 64 keys' = some (a, b) ↔ a = line' ∧ b = keys'' := by
      intro a b
      rw [show keyboardGetline 64 keys' = some (line', keys'') from h', Option.some_inj,
        Prod.mk.injEq]
      exact and_congr eq_comm eq_comm
    simp only [hline]
    split
    · next hok => simp [hok, eq_comm]
    · next hok =>
      have hlt' := getlineFrom_length h'
      rw [ih _ (by omega) rfl]
      simp [hok]

/-! ## The credentials that log in -/

theorem Holds.doLogin_iff {username password : List UInt8} {s : FsState}
    (hC : Holds username password s.superblock) (keys rest : List UInt8) (r : Int) :
    doLogin s keys = some (r, rest) ↔ r = 1 ∧ ∃ lines, Typed keys lines rest ∧
      Login username (fun line => simpleHash line = simpleHash password) lines := by
  have hverify : ∀ line,
      fsVerifyPassword line s = true ↔ simpleHash line = simpleHash password := by
    intro line
    rw [← passwordHash_inj, fsVerifyPassword, decide_eq_true_iff, hC.hash, funext_iff]
  rw [EphemeralOS.doLogin_iff, LogsIn, fsGetUsername, hC.username]
  simp only [hverify]

/-- **Only the installed username and a password of the same hash log in**, whatever has been done
to the file system since. -/
theorem login_iff {hostname username password : CStr} (hu : username.val.length < 64)
    {t s : FsState} (ht : t.disk.Perfect) (h : Used (fsInstall hostname username password t) s)
    (keys rest : List UInt8) (r : Int) :
    doLogin s keys = some (r, rest) ↔ r = 1 ∧ ∃ lines, Typed keys lines rest ∧
      Login username (fun line => simpleHash line = simpleHash password) lines := by
  have hC := (h.credentials hu ht).inMemory
  exact hC.doLogin_iff keys rest r

/-- An installation with the password `ab`. -/
def abInstall : FsState := fsInstall (ascii "box") (ascii "user") (ascii "ab") blankState

theorem typed_user_line {keys line : List UInt8}
    (h : keyboardGetline 64 keys = some (ascii "user", line ++ ascii "\n"))
    (hline : keyboardGetline 64 (line ++ ascii "\n") = some (line, [])) :
    Typed keys [ascii "user", line] [] :=
  .cons h (.cons hline .nil)

/-- The password still logs in after a directory has been made and the machine has restarted. -/
theorem login_after_reboot : doLogin ((FsUse.reboot blankState).step
    ((FsUse.change (.createDir samplePath)).step abInstall)) (ascii "user\nab\n") = some (1, []) :=
  (@login_iff sampleHostname sampleUsername ⟨ascii "ab", by decide +kernel⟩ (by decide +kernel)
    blankState _ (by rfl)
    (.next (.next (.start rfl) trivial) trivial) _ _ _).mpr
    ⟨rfl, [ascii "user", ascii "ab"], typed_user_line (by decide +kernel) (by decide +kernel),
      .done rfl⟩

theorem Typed.unique {keys : List UInt8} {lines lines' : List (List UInt8)}
    (h : Typed keys lines []) (h' : Typed keys lines' []) : lines = lines' := by
  generalize hrest : ([] : List UInt8) = rest at h
  induction h generalizing lines' with
  | nil =>
    subst hrest
    cases h' with
    | nil => rfl
    | cons h _ => cases h
  | cons hline _ ih =>
    cases h' with
    | nil => cases hline
    | cons hline' h' =>
      cases hline.symm.trans hline'
      rw [ih h' hrest]

theorem typed_user_bA : Typed (ascii "user\nbA\n") [ascii "user", ascii "bA"] [] :=
  typed_user_line (by decide +kernel) (by decide +kernel)

/-- **Another password logs in**: `bA` hashes like `ab`. -/
theorem other_password_logs_in : doLogin abInstall (ascii "user\nbA\n") = some (1, []) ∧
    ¬ ∃ before, Typed (ascii "user\nbA\n") (before ++ [ascii "user", ascii "ab"]) [] := by
  have hC : Holds (ascii "user") (ascii "ab") abInstall.superblock :=
    (fsInstall_usable sampleHostname sampleUsername ⟨ascii "ab", by decide +kernel⟩
      (by decide +kernel) (show blankState.disk.Perfect from rfl)).credentials.inMemory
  constructor
  · refine doLogin_iff.mpr ⟨rfl, _, typed_user_bA, ?_⟩
    rw [fsGetUsername, hC.username]
    refine .done ?_
    have hhash : passwordHash (ascii "bA") = passwordHash (ascii "ab") :=
      passwordHash_inj.mpr (by decide +kernel)
    rw [fsVerifyPassword, decide_eq_true_iff, hC.hash, hhash]
    exact fun _ => rfl
  · rintro ⟨before, h⟩
    have heq := congrArg List.getLast? (typed_user_bA.unique h)
    rw [List.getLast?_append] at heq
    have hlast : [ascii "user", ascii "bA"].getLast? ≠ some (ascii "ab") := by decide +kernel
    exact hlast heq

end EphemeralOS
