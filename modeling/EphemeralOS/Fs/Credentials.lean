import EphemeralOS.Fs.Reboot

/-!
# Installed credentials

`fs_install` stores the username and 32 bytes computed from a hash of the
password. No later call and no reboot changes them (`Used.credentials`), and the
bytes tell as much as the hash does (`passwordHash_inj`).
-/

namespace EphemeralOS

open Directory Run

/-- Byte `i` of `password_hash` holds bit `i` of the hash in its lowest bit. -/
theorem passwordHash_testBit (password : List UInt8) (i : Fin 32) :
    (passwordHash password i).toNat.testBit 0 = (simpleHash password).toNat.testBit i := by
  have hi : (UInt32.ofNat (i % 32)).toNat = i := by
    rw [UInt32.toNat_ofNat', Nat.mod_eq_of_lt (by omega), Nat.mod_eq_of_lt i.2]
  rw [passwordHash, UInt32.toNat_toUInt8, Nat.testBit_mod_two_pow, UInt32.toNat_and,
    Nat.testBit_and, UInt32.toNat_shiftRight, hi, Nat.testBit_shiftRight,
    Nat.mod_eq_of_lt i.2]
  simp

/-- **The stored bytes determine the hash.** -/
theorem passwordHash_inj {password password' : List UInt8} :
    passwordHash password = passwordHash password' ↔
      simpleHash password = simpleHash password' := by
  refine ⟨fun h => UInt32.toNat_inj.mp (Nat.eq_of_testBit_eq fun i => ?_), fun h => ?_⟩
  · by_cases hi : i < 32
    · have h' := congrArg (fun a => (a (⟨i, hi⟩ : Fin 32)).toNat.testBit 0) h
      simp only [passwordHash_testBit] at h'
      exact h'
    · have hlt : ∀ x : UInt32, x.toNat.testBit i = false := fun x =>
        Nat.testBit_lt_two_pow (Nat.lt_of_lt_of_le x.toNat_lt
          (Nat.pow_le_pow_right (by omega) (Nat.not_lt.mp hi)))
      rw [hlt, hlt]
  · unfold passwordHash
    rw [h]

def fsGetUsername (s : FsState) : List UInt8 := s.superblock.username.cstr

def fsVerifyPassword (password : List UInt8) (s : FsState) : Bool :=
  let hashBytes := passwordHash password
  decide (∀ i, hashBytes i = s.superblock.passwordHash i)

/-- What happens to an installed file system: a call, whether it changes anything or not, or a
reboot. -/
inductive FsUse
  | change (op : FsOp)
  | read (path : List UInt8) (buffer : Memory) (maxSize : UInt32)
  | list (path : List UInt8) (buffer : Memory) (maxSize : Int)
  | ask (type : UInt8) (path : List UInt8)
  | reboot (m : FsState)

def FsUse.step : FsUse → FsState → FsState
  | change op, s => op.step s
  | read path buffer maxSize, s => (fsReadFile path buffer maxSize s).2
  | list path buffer maxSize, s => (fsListDir path buffer maxSize s).2
  | ask type path, s => (inodeExists type path s).2
  | reboot m, s => EphemeralOS.reboot m s

/-- The states that the file system `s` is in later. -/
abbrev Used (s : FsState) : FsState → Prop := Reached (· = s) FsUse.step fun _ _ => True

theorem Same.sectorBuffer (s : FsState) (sec : Sector) : Same s { s with sectorBuffer := sec } :=
  ⟨rfl, fun _ => rfl, fun _ => rfl, fun _ _ => rfl, fun _ _ => rfl, rfl⟩

theorem readFileBlocks_state (inode : UInt32) (rounds i : Nat) (remaining : UInt32)
    (buffer : Memory) {s : FsState} (hs : s.disk.Perfect) :
    ∃ sec,
      (readFileBlocks inode rounds i remaining buffer s).2 = { s with sectorBuffer := sec } := by
  induction rounds generalizing i remaining buffer s with
  | zero => exact ⟨s.sectorBuffer, rfl⟩
  | succ rounds ih =>
    unfold readFileBlocks
    rw [FsM.bind_gets, FsM.bind_eq (readInodeBlock_eq hs _), FsM.bind_modify]
    exact ih _ _ _ (by exact hs)

section Looking

variable {s : FsState} (hs : s.disk.Perfect) (path : List UInt8)
include hs

theorem fsReadFile_same (buffer : Memory) (maxSize : UInt32) :
    Same s (fsReadFile path buffer maxSize s).2 := by
  unfold fsReadFile
  rw [FsM.bind_eq (findInodeByPath_eq hs path)]
  split <;> [exact Same.refl s; rw [FsM.bind_gets]]
  split <;> [exact Same.refl s; skip]
  obtain ⟨sec, h⟩ := readFileBlocks_state ((s.resolve (comps path)).getD noNumber) _ 0 _ buffer hs
  exact h ▸ Same.sectorBuffer s sec

theorem fsListDir_same (buffer : Memory) (maxSize : Int) :
    Same s (fsListDir path buffer maxSize s).2 := by
  unfold fsListDir
  rw [FsM.bind_eq (findInodeByPath_eq hs path)]
  split <;> [exact Same.refl s; rw [FsM.bind_gets]]
  split <;> [exact Same.refl s; skip]
  split <;> [exact Same.refl s; rw [FsM.bind_eq (readDirBlock_eq hs _)]]
  exact Same.refl s

theorem inodeExists_same (type : UInt8) : Same s (inodeExists type path s).2 := by
  unfold inodeExists
  rw [FsM.bind_eq (findInodeByPath_eq hs path)]
  split <;> [exact Same.refl s; skip]
  split <;> exact Same.refl s

end Looking

/-! ## Runs -/

/-- The superblock `b` holds the username and the hashed password. -/
structure Holds (username password : List UInt8) (b : Superblock) : Prop where
  username : b.username.cstr = username
  hash : b.passwordHash = passwordHash password

theorem Holds.settings {username password : List UInt8} {s : FsState} :
    Holds username password s.settings ↔ Holds username password s.superblock :=
  ⟨fun h => ⟨h.username, h.hash⟩, fun h => ⟨h.username, h.hash⟩⟩

structure Credentials (username password : List UInt8) (s : FsState) : Prop where
  inMemory : Holds username password s.superblock
  onDisk : Holds username password s.storedSuperblock

variable {username password : List UInt8}

theorem Credentials.change {made gone : UInt32 → Prop} {s s' : FsState} (hI : Inv s)
    (hC : Credentials username password s) (h : Change made gone s s') :
    Credentials username password s' := by
  have hset := Changes.settings hI (.single h)
  have hmem : Holds username password s'.superblock :=
    Holds.settings.mp (hset ▸ Holds.settings.mpr hC.inMemory)
  refine ⟨hmem, ?_⟩
  cases h with
  | same h => exact (stored_congr h.low).1 ▸ hC.onDisk
  | linked _ L =>
    rcases L.storedSuperblock with h | h <;> rw [h]
    · exact hC.onDisk
    · exact hmem
  | removed _ R => exact R.storedSuperblock ▸ hC.onDisk

structure Usable (username password : List UInt8) (s : FsState) : Prop where
  inv : Inv s
  synced : Synced s
  credentials : Credentials username password s

theorem Usable.changes {made gone : UInt32 → Prop} {s s' : FsState}
    (h : Usable username password s) (hc : Changes made gone s s') :
    Usable username password s' := by
  obtain ⟨hI, hS, hC⟩ := hc.preserves
    (P := fun t => Synced t ∧ Credentials username password t)
    (fun _ _ hI hP ht => ⟨hP.1.change hI ht, hP.2.change hI ht⟩) h.inv ⟨h.synced, h.credentials⟩
  exact ⟨hI, hS, hC⟩

theorem Usable.same {s s' : FsState} (h : Usable username password s) (hs : Same s s') :
    Usable username password s' :=
  h.changes (show Changes nothing nothing s s' from .single (.same hs))

/-- **Whatever is done, the credentials stay.** -/
theorem Usable.step {s : FsState} (h : Usable username password s) (use : FsUse) :
    Usable username password (use.step s) := by
  have hs := h.inv.perfect
  cases use with
  | change op => exact h.changes (op.changes h.inv)
  | read path buffer maxSize => exact h.same (fsReadFile_same hs path buffer maxSize)
  | list path buffer maxSize => exact h.same (fsListDir_same hs path buffer maxSize)
  | ask type path => exact h.same (inodeExists_same hs path type)
  | reboot m =>
    refine ⟨(h.synced.reboot_agree m h.inv).inv h.inv, h.synced.after_reboot m h.inv, ?_, ?_⟩
    · exact (reboot_superblock m hs).symm ▸ h.credentials.onDisk
    · exact (reboot_stored m hs).1.symm ▸ h.credentials.onDisk

theorem fsInstall_usable (hostname username password : CStr) (hu : username.val.length < 64)
    {t : FsState} (ht : t.disk.Perfect) :
    Usable username password (fsInstall hostname username password t) := by
  obtain ⟨hS, hstored⟩ := Installed.sound ⟨hostname, username, password, t, ht, rfl⟩
  have hset := fsInstall_settings hostname password username ht
  have hmem : Holds username password (fsInstall hostname username password t).superblock := by
    refine Holds.settings.mp ?_
    rw [hset]
    exact ⟨CArray.cstr_strcpy _ username.2 hu, rfl⟩
  generalize fsInstall _ _ _ _ = s at hS hstored hmem ⊢
  exact ⟨hS.inv, hS.synced, hmem, hstored ▸ hmem⟩

/-- **The credentials outlive every use of the file system.** -/
theorem Used.credentials {hostname username password : CStr} (hu : username.val.length < 64)
    {t s : FsState} (ht : t.disk.Perfect) (h : Used (fsInstall hostname username password t) s) :
    Credentials username password s := by
  have hinstall := fsInstall_usable hostname username password hu ht
  generalize fsInstall _ _ _ _ = installed at h hinstall
  refine (h.invariant (P := Usable username password) (fun s hs => ?_)
    fun _ use h _ => h.step use).credentials
  rw [hs]
  exact hinstall

end EphemeralOS
