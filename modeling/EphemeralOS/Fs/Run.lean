import EphemeralOS.Lib.Run
import EphemeralOS.Fs.Install
import EphemeralOS.Fs.Stable

/-!
# Runs of the file system

A run starts where `fs_install` ends and goes on with any calls of
`fs_create_dir`, `fs_create_file` and `fs_delete_file` (`Reachable`). In every
state it reaches the invariant holds, the counters are right, and memory and
disk agree (`Reachable.sound`).
-/

namespace EphemeralOS

open Path Directory Run

/-- A call that changes the file system. -/
inductive FsOp
  | createDir (path : CStr)
  | createFile (path : CStr) (data : Memory) (size : UInt32)
  | deleteFile (path : CStr)

namespace FsOp

def run : FsOp → FsM Int
  | createDir path => fsCreateDir path
  | createFile path data size => fsCreateFile path data size
  | deleteFile path => fsDeleteFile path

def step (op : FsOp) (s : FsState) : FsState := (op.run s).2

theorem step_createDir (path : CStr) (s : FsState) :
    (createDir path).step s = (fsCreateDir path s).2 := rfl

theorem step_createFile (path : CStr) (data : Memory) (size : UInt32) (s : FsState) :
    (createFile path data size).step s = (fsCreateFile path data size s).2 := rfl

/-- The sizes of the files the call may make. -/
def makes : FsOp → UInt32 → Prop
  | createFile _ _ size => (· = size)
  | _ => nothing

/-- What the call's path leads to, before the call or once missing parent directories have been
created. -/
def leadsTo (s : FsState) : FsOp → UInt32 → Prop
  | createDir path | createFile path _ _ => fun i =>
    (findInodeByPath path s).1 = i ∨
      (findInodeByPath path (fsCreateDir (splitPath path).1 s).2).1 = i
  | deleteFile path => fun i => (findInodeByPath path s).1 = i

end FsOp

theorem CStr.comps_noNul (path : CStr) : ∀ c ∈ comps path, 0 ∉ c := fun _ hc h0 =>
  path.property (mem_of_mem_components hc 0 h0)

theorem CStr.parent_noNul (path : CStr) : ∀ c ∈ comps (splitPath path).1, 0 ∉ c := by
  rcases comps_cases path with h | ⟨ds, c, h⟩
  · rw [splitPath_root h]
    intro c hc
    cases hc
  · rw [splitPath_concat h, comps_parent h]
    exact fun d hd => path.comps_noNul d (by rw [h]; simp [hd])

theorem findInodeByPath_of_resolve {s : FsState} (hI : Inv s) {path : List UInt8} {i : UInt32}
    (h : s.resolve (comps path) = some i) : (findInodeByPath path s).1 = i := by
  rw [findInodeByPath_eq hI.perfect, h]
  rfl

/-- **Every call is a sequence of changes.** It deletes only what its path leads to. -/
theorem FsOp.changes {s : FsState} (hI : Inv s) (op : FsOp) :
    Changes op.makes (op.leadsTo s) s (op.step s) := by
  cases op with
  | createDir path =>
    exact (fsCreateDir_changes hI path.comps_noNul).mono (fun _ h => h.elim) fun _ h => h.elim
  | createFile path data size =>
    refine (fsCreateFile_changes hI path.comps_noNul data size).mono (fun _ h => h) fun f hf => ?_
    exact .inr (findInodeByPath_of_resolve
      ((fsCreateDir_changes hI path.parent_noNul).preserves (P := fun _ => True)
        (fun _ _ _ _ _ => trivial) hI trivial).1 hf)
  | deleteFile path =>
    exact (fsDeleteFile_changes hI path).mono (fun _ h => h.elim)
      fun f hf => findInodeByPath_of_resolve hI hf

/-! ## Installation -/

/-- The end of `fs_install`. -/
def Installed (s : FsState) : Prop :=
  ∃ (hostname username password : CStr) (t : FsState), t.disk.Perfect ∧
    s = fsInstall hostname username password t

theorem createDirs_changes {s : FsState} (hI : Inv s) {paths : List (List UInt8)}
    (h0 : ∀ path ∈ paths, ∀ c ∈ comps path, 0 ∉ c) :
    Changes nothing nothing s (createDirs paths s) := by
  induction paths generalizing s with
  | nil => exact .refl
  | cons path paths ih =>
    have h := fsCreateDir_changes hI (h0 path List.mem_cons_self)
    have hI' := (h.preserves (P := fun _ => True) (fun _ _ _ _ _ => trivial) hI trivial).1
    exact h.trans (ih hI' fun p hp => h0 p (List.mem_cons_of_mem _ hp))

structure Sound (s : FsState) : Prop where
  inv : Inv s
  counters : Counters s
  synced : Synced s

theorem Sound.changes {made gone : UInt32 → Prop} {s s' : FsState} (h : Sound s)
    (hc : Changes made gone s s') : Sound s' := by
  obtain ⟨hI, hC, hS⟩ := hc.preserves (P := fun t => Counters t ∧ Synced t)
    (fun _ _ hI hP ht => ⟨hP.1.change hI ht, hP.2.change hI ht⟩) h.inv ⟨h.counters, h.synced⟩
  exact ⟨hI, hC, hS⟩

theorem installDirs_noNul (username : CStr) :
    ∀ path ∈ installDirs username, ∀ c ∈ comps path, 0 ∉ c := by
  have happend : ∀ {a b : List UInt8}, 0 ∉ a → 0 ∉ b → 0 ∉ a ++ b := fun ha hb h =>
    (List.mem_append.mp h).elim ha hb
  have hhome : (0 : UInt8) ∉ ascii "/home/" ++ username := happend (by decide +kernel) username.2
  have h : ∀ path ∈ installDirs username, (0 : UInt8) ∉ path := by
    simp only [installDirs, List.forall_mem_cons, List.not_mem_nil, false_imp_iff, implies_true,
      and_true]
    refine ⟨by decide +kernel, by decide +kernel, by decide +kernel, by decide +kernel,
      by decide +kernel, hhome, happend hhome (by decide +kernel),
      happend hhome (by decide +kernel)⟩
  exact fun path hp c hc h0 => h path hp (mem_of_mem_components hc 0 h0)

theorem install_bin (hostname username password : List UInt8) {t : FsState} (ht : t.disk.Perfect) :
    ∃ s, Fresh s ∧ s.settings = (installRoot hostname username password t).settings ∧
      fsCreateDir (ascii "/bin") (installRoot hostname username password t) = (0, s) := by
  obtain ⟨s', hrun, F, hset⟩ := (installRoot_base hostname username password ht).bin
  exact ⟨s', F, hset, hrun⟩

theorem installDirs_cons (username : List UInt8) :
    installDirs username = ascii "/bin" :: (installDirs username).tail := rfl

theorem fsInstall_eq {hostname username password : List UInt8} {s t : FsState}
    (h : fsCreateDir (ascii "/bin") (installRoot hostname username password t) = (0, s)) :
    fsInstall hostname username password t =
      syncBlockBitmap (syncInodeTable (syncSuperblock (createDirs (installDirs username).tail s))) := by
  unfold fsInstall
  rw [installDirs_cons, createDirs, h, List.tail_cons]

theorem sync_agree (s : FsState) :
    Agree s (syncBlockBitmap (syncInodeTable (syncSuperblock s))) where
  root := by simp
  table := fun _ _ => by simp
  bits := fun _ _ => by unfold FsState.bit; simp
  data := fun _ _ => by simp
  faults := by simp

theorem Sound.sync {s s' : FsState} (h : Sound s)
    (hs' : s' = syncBlockBitmap (syncInodeTable (syncSuperblock s))) :
    Sound s' ∧ s'.storedSuperblock = s'.superblock := by
  obtain ⟨h1, h2, h3⟩ := sync_stored s
  rw [← hs'] at h1 h2 h3
  have hsuper : s'.superblock = s.superblock := by rw [hs']; simp
  have htable : s'.inodeTable = s.inodeTable := by rw [hs']; simp
  have hbitmap : s'.blockBitmap = s.blockBitmap := by rw [hs']; simp
  have hagree : Agree s s' := hs' ▸ sync_agree s
  refine ⟨⟨hagree.inv h.inv, ⟨?_, ?_⟩, .of_stored ?_ ?_ ?_⟩, h1.trans hsuper.symm⟩
  · rw [hsuper, clearBlocks_congr hbitmap, h.counters.blocks]
  · rw [hsuper, freeNumbers_congr htable, h.counters.inodes]
  · rw [h1]; exact h.inv.shape.root
  · exact h2.trans (tableObject_congr htable.symm)
  · exact h3.trans (bitmapObject_congr hbitmap.symm)

/-- An installation: directories made after `/bin`, and the last three syncs. -/
theorem Installed.changes {s : FsState} (h : Installed s) : ∃ s0 s1, Fresh s0 ∧
    Changes nothing nothing s0 s1 ∧ s = syncBlockBitmap (syncInodeTable (syncSuperblock s1)) := by
  obtain ⟨hostname, username, password, t, ht, hs⟩ := h
  obtain ⟨s0, F, -, hrun⟩ := install_bin hostname username password ht
  exact ⟨s0, _, F, createDirs_changes F.inv fun path hp =>
    installDirs_noNul username path (List.mem_of_mem_tail hp), hs.trans (fsInstall_eq hrun)⟩

theorem Installed.sound {s : FsState} (h : Installed s) :
    Sound s ∧ s.storedSuperblock = s.superblock := by
  obtain ⟨s0, s1, F, hc, hs⟩ := h.changes
  exact (Sound.changes ⟨F.inv, F.counters, F.synced⟩ hc).sync hs

theorem Changes.settings {made gone : UInt32 → Prop} {s s' : FsState} (hI : Inv s)
    (h : Changes made gone s s') : s'.settings = s.settings := by
  refine (h.preserves (P := fun t => t.settings = s.settings) (fun t t' _ ht hc => ?_) hI rfl).2
  rw [← ht]
  cases hc with
  | same h => exact settings_congr _ _ h.superblock
  | linked _ L => exact settings_congr _ _ L.superblock
  | removed _ R => exact settings_congr _ _ R.superblock

theorem fsInstall_settings (hostname password : List UInt8) (username : CStr) {t : FsState}
    (ht : t.disk.Perfect) : (fsInstall hostname username password t).settings =
      { (installTables hostname username password t).settings with installed := 1 } := by
  obtain ⟨s0, F, hset, hrun⟩ := install_bin hostname username password ht
  have hdirs : Changes nothing nothing s0 (createDirs (installDirs username).tail s0) :=
    createDirs_changes F.inv fun path hp =>
      installDirs_noNul username path (List.mem_of_mem_tail hp)
  have hsync : (syncBlockBitmap (syncInodeTable (syncSuperblock
      (createDirs (installDirs username).tail s0)))).settings =
      (createDirs (installDirs username).tail s0).settings := by
    unfold FsState.settings
    simp
  rw [fsInstall_eq hrun, hsync, hdirs.settings F.inv, hset]
  unfold FsState.settings
  rw [installRoot_superblock hostname username password ht]

theorem Installed.not_isFile {s : FsState} (h : Installed s) (i : UInt32) : ¬ s.IsFile i := by
  obtain ⟨s0, s1, F, hc, hs⟩ := h.changes
  have hnone : ∀ i, ¬ s1.IsFile i := (hc.preserves (P := fun t => ∀ i, ¬ t.IsFile i)
    (fun t t' _ hP ht i hi => ?_) F.inv fun i hi => hi.not_isDir (F.isDir hi.live)).2
  · intro hi
    refine hnone i ⟨hi.1, ?_⟩
    have := hi.2
    rwa [hs, syncBlockBitmap_inodeTable, syncInodeTable_inodeTable,
      syncSuperblock_inodeTable] at this
  · cases ht with
    | same h => exact hP i (h.agree.isFile_iff.mp hi)
    | linked hv L =>
      rcases L.isFile_iff.mp hi with ⟨-, hv'⟩ | hi
      · exact hv hv'
      · exact hP i hi
    | removed hf _ => exact hf

/-! ## Runs -/

/-- The states that calls allowed by `allowed` reach from the end of an installation. -/
abbrev ReachableBy (allowed : FsOp → FsState → Prop) : FsState → Prop :=
  Reached Installed FsOp.step allowed

abbrev Reachable : FsState → Prop := ReachableBy fun _ _ => True

theorem Sound.step {s : FsState} (h : Sound s) (op : FsOp) : Sound (op.step s) :=
  h.changes (op.changes h.inv)

/-- **The invariant of every run.** -/
theorem Reachable.sound {allowed : FsOp → FsState → Prop} {s : FsState}
    (h : ReachableBy allowed s) : Sound s :=
  h.invariant (fun _ h => h.sound.1) fun _ op h _ => h.step op

/-! ## A sample installation -/

def blankState : FsState where
  superblock := Superblock.zero
  inodeTable := fun _ => Inode.zero
  blockBitmap := fun _ => 0
  sectorBuffer := Sector.zero
  disk := ⟨fun _ => Sector.zero, []⟩

def sampleHostname : CStr := ⟨ascii "box", by decide +kernel⟩

def sampleUsername : CStr := ⟨ascii "user", by decide +kernel⟩

def samplePassword : CStr := ⟨ascii "pw", by decide +kernel⟩

def sampleInstall : FsState := fsInstall (ascii "box") (ascii "user") (ascii "pw") blankState

theorem sampleInstall_eq : sampleInstall =
    fsInstall sampleHostname sampleUsername samplePassword blankState := rfl

theorem sampleInstall_installed : Installed sampleInstall :=
  ⟨sampleHostname, sampleUsername, samplePassword, blankState, rfl, sampleInstall_eq⟩

theorem sampleInstall_reachable {allowed : FsOp → FsState → Prop} :
    ReachableBy allowed sampleInstall := .start sampleInstall_installed

theorem sampleInstall_inv : Inv sampleInstall := sampleInstall_installed.sound.1.inv

def sampleEntries (j : Fin 15) : Option (List UInt8 × UInt32) :=
  [(ascii ".", 0), (ascii "..", 0), (ascii "bin", 1), (ascii "home", 2), (ascii "tmp", 3),
    (ascii "etc", 4), (ascii "var", 5)][(j : Nat)]?

theorem sampleInstall_root : sampleInstall.superblock.freeBlocks = 503 ∧
    sampleInstall.superblock.freeInodes = 191 ∧
    (List.finRange 15).map (sampleInstall.slots 0) = (List.finRange 15).map sampleEntries := by
  decide +kernel

theorem sampleInstall_slots (j : Fin 15) : sampleInstall.slots 0 j = sampleEntries j :=
  List.map_inj_left.mp sampleInstall_root.2.2 j (List.mem_finRange j)

theorem sampleInstall_lookup {c : List UInt8} (hc : c.length < fsMaxFilename) :
    sampleInstall.lookup 0 c = find sampleEntries c := by
  rw [sampleInstall_inv.lookup_eq sampleInstall_inv.usable_root hc]
  exact congrArg (find · c) (funext sampleInstall_slots)

theorem sampleInstall_clearBlocks : sampleInstall.clearBlocks.card = 503 := by
  rw [← sampleInstall_installed.sound.1.counters.blocks, sampleInstall_root.1]
  rfl

theorem sampleInstall_freeNumbers : sampleInstall.freeNumbers.card = 191 := by
  rw [← sampleInstall_installed.sound.1.counters.inodes, sampleInstall_root.2.1]
  rfl

def samplePath : CStr := ⟨ascii "/a", by decide +kernel⟩

def docPath : CStr := ⟨ascii "/doc", by decide +kernel⟩

theorem comps_samplePath : comps samplePath = [] ++ [ascii "a"] := by decide +kernel

theorem sampleInstall_lookup_a : sampleInstall.lookup 0 (ascii "a") = none := by
  rw [sampleInstall_lookup (by decide +kernel)]
  decide +kernel

def sampleData : Memory := fun a => UInt8.ofNat a

theorem sampleInstall_createFile (data : Memory) (size : UInt32) (hsize : size ≤ fsMaxFileSize) :
    ∃ s' n bs i, fsCreateFile samplePath data size sampleInstall = (0, s') ∧
      MadeFile sampleInstall s' n 0 (ascii "a") data size bs i ∧
      Linked sampleInstall s' n 0 (ascii "a") (fileInode 0 size bs) bs i := by
  refine fsCreateFile_fresh sampleInstall_inv samplePath.comps_noNul comps_samplePath
    (by decide +kernel) (congrArg some sampleInstall_inv.shape.root)
    sampleInstall_inv.shape.rootDir.1 sampleInstall_lookup_a data hsize ?_
  have hfree := sampleInstall_freeNumbers
  have hclear := sampleInstall_clearBlocks
  have hcount := toNat_blocksNeeded hsize
  rintro (h | h)
  · rw [h] at hfree
    cases hfree
  · omega

theorem sampleFile_lookup {s' : FsState} {n : UInt32} {v : Inode} {bs : List UInt32} {i : Fin 15}
    (L : Linked sampleInstall s' n 0 (ascii "a") v bs i) : s'.lookup 0 (ascii "a") = some n := by
  have hu := sampleInstall_inv.usable_root
  have hle : i ≤ 7 := L.slot_le (by rw [sampleInstall_slots]; rfl)
  exact L.lookup_new sampleInstall_inv hu (by rintro rfl; exact absurd hle (by decide))
    fun j _ => L.not_slot_of_free sampleInstall_inv hu sampleInstall_lookup_a j

theorem sampleFile_resolve {s' : FsState} {n : UInt32} {v : Inode} {bs : List UInt32} {i : Fin 15}
    (L : Linked sampleInstall s' n 0 (ascii "a") v bs i) :
    s'.resolve (comps samplePath) = some n := by
  rw [comps_samplePath, resolve_concat, resolve_nil, (L.inv sampleInstall_inv).shape.root,
    Option.bind_some, sampleFile_lookup L]

end EphemeralOS
