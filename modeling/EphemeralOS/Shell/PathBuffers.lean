import EphemeralOS.Shell.WorkingDir
import EphemeralOS.Fs.MakePath

/-!
# The shell's path buffers

`cmd_cd` and `fs_change_dir` build paths with `strcpy` and `strcat` in buffers
of 256 bytes. Nothing bounds what a relative argument makes of the working
directory, which is never normalised: each `cd .` adds two characters
(`cd_dot`), so the buffers overflow (`dots_overflow`). They hold what is stored
just when the working directory and each relative argument are short enough
together (`stores_fit_iff`).
-/

namespace EphemeralOS

open Path Directory Run

inductive PathBuffer
  | newPath
  | newDir
  | currentDir
  deriving DecidableEq

/-- The string in a buffer after a `strcpy`, a `strcat` or a NUL stored. -/
structure PathStore where
  buffer : PathBuffer
  string : List UInt8

/-- The string and its NUL have room. -/
def PathStore.Fits (store : PathStore) : Prop := store.string.length ≤ 255

/-- `new_path` as `fs_change_dir` puts it together. -/
def newPathStores (path currentDir : List UInt8) : List PathStore :=
  if path.head? = some slash then [⟨.newPath, path⟩]
  else if currentDir = [slash] then [⟨.newPath, [slash]⟩, ⟨.newPath, [slash] ++ path⟩]
  else [⟨.newPath, currentDir⟩, ⟨.newPath, currentDir ++ [slash]⟩,
    ⟨.newPath, currentDir ++ [slash] ++ path⟩]

/-- What `fs_change_dir` stores, its `current_dir` being the caller's `new_dir`. -/
def fsChangeDirStores (path currentDir : List UInt8) (s : FsState) : List PathStore :=
  if path = ascii ".." then
    if currentDir = [slash] then []
    else
      let last := lastSlash currentDir 0 0
      if last = 0 then [⟨.newDir, [slash]⟩] else [⟨.newDir, currentDir.take last⟩]
  else
    let newPath := joinPath currentDir path
    newPathStores path currentDir ++ if (fsDirExists newPath s).1 then [⟨.newDir, newPath⟩] else []

/-- What `cmd_cd` stores for its one argument. -/
def cmdCdStores (path : CStr) (σ : ShellState) : List PathStore :=
  let result := (fsChangeDir path σ.currentDir σ.fs).1
  ⟨.newDir, σ.currentDir⟩ :: fsChangeDirStores path σ.currentDir σ.fs ++
    if result.1 = 0 then [⟨.currentDir, result.2⟩] else []

/-- What `shell_init` stores in `current_dir`. -/
def shellInitStores (s : FsState) : List PathStore :=
  let userHome := ascii "/home/" ++ s.superblock.username.cstr
  ⟨.currentDir, ascii "/"⟩ :: if (fsDirExists userHome s).1 then [⟨.currentDir, userHome⟩] else []

/-- `cd path`. -/
def cdStep (path : CStr) : ShellState → ShellState := (Command.cd [path]).step

/-- What one `cd` after another stores. -/
def cdStores : List CStr → ShellState → List PathStore
  | [], _ => []
  | path :: paths, σ => cmdCdStores path σ ++ cdStores paths (cdStep path σ)

def Room (path : CStr) (σ : ShellState) : Prop :=
  path.val = ascii ".." ∨ path.val.head? = some slash ∨ σ.currentDir = [slash] ∨
    σ.currentDir.length + path.val.length ≤ 254

/-! ## One `cd` -/

theorem newPathStores_fit_iff {path currentDir : List UInt8} (hpath : path.length ≤ 63) :
    (∀ store ∈ newPathStores path currentDir, store.Fits) ↔
      path.head? = some slash ∨ currentDir = [slash] ∨ currentDir.length + path.length ≤ 254 := by
  unfold newPathStores PathStore.Fits
  split
  · next h =>
    simp only [List.forall_mem_singleton, h, true_or, iff_true]
    omega
  next habs =>
  split
  · next h =>
    simp only [List.forall_mem_cons, List.length_append, List.length_singleton, h, true_or, or_true,
      iff_true]
    exact ⟨by omega, by omega, fun _ h => absurd h List.not_mem_nil⟩
  next hroot =>
  simp only [List.forall_mem_cons, List.length_append, List.length_singleton, habs, hroot, false_or]
  refine ⟨fun h => by omega, fun h => ⟨by omega, by omega, by omega, ?_⟩⟩
  exact fun _ h => absurd h List.not_mem_nil

theorem joinPath_mem (path currentDir : List UInt8) :
    ⟨.newPath, joinPath currentDir path⟩ ∈ newPathStores path currentDir := by
  unfold newPathStores joinPath
  split <;> [exact List.mem_singleton_self _; skip]
  split <;> simp

/-- **`fs_change_dir` stays within the buffers just when there is room.** -/
theorem fsChangeDirStores_fit_iff {path : CStr} {σ : ShellState} (hpath : path.val.length ≤ 63)
    (hcurrent : σ.currentDir.length ≤ 255) :
    (∀ store ∈ fsChangeDirStores path σ.currentDir σ.fs, store.Fits) ↔ Room path σ := by
  unfold fsChangeDirStores Room
  split
  · next h =>
    simp only [h, true_or, iff_true]
    split <;> [exact fun _ h => absurd h List.not_mem_nil; skip]
    split
    · exact List.forall_mem_singleton.mpr (show 1 ≤ 255 by omega)
    · refine List.forall_mem_singleton.mpr ?_
      rw [PathStore.Fits, List.length_take]
      omega
  next hup =>
  simp only [hup, false_or]
  rw [← newPathStores_fit_iff hpath, List.forall_mem_append]
  refine and_iff_left_of_imp fun h => ?_
  have hjoin := h _ (joinPath_mem path σ.currentDir)
  split
  · exact List.forall_mem_singleton.mpr hjoin
  · exact fun _ h => absurd h List.not_mem_nil

/-- What `fs_change_dir` leaves in `new_dir` is what it stored there last. -/
theorem fsChangeDir_stored (path currentDir : List UInt8) (s : FsState) :
    (fsChangeDir path currentDir s).1.2 = currentDir ∨
      ⟨.newDir, (fsChangeDir path currentDir s).1.2⟩ ∈ fsChangeDirStores path currentDir s := by
  unfold fsChangeDir fsChangeDirStores
  split
  · split <;> [exact .inl rfl; skip]
    dsimp only
    split <;> exact .inr (List.mem_singleton_self _)
  · dsimp only
    cases hex : fsDirExists (joinPath currentDir path) s with
    | mk found s' =>
      rw [FsM.bind_eq hex]
      cases found with
      | false => exact .inl rfl
      | true =>
        rw [if_pos rfl, if_pos rfl]
        exact .inr (List.mem_append_right _ (List.mem_singleton_self _))

theorem cdStep_currentDir (path : CStr) (σ : ShellState) : (cdStep path σ).currentDir =
    if (fsChangeDir path σ.currentDir σ.fs).1.1 = 0 then (fsChangeDir path σ.currentDir σ.fs).1.2
    else σ.currentDir := rfl

/-- **One `cd`**: its stores fit just when there is room, and then `current_dir` fits. -/
theorem cmdCdStores_fit_iff {path : CStr} {σ : ShellState} (hpath : path.val.length ≤ 63)
    (hcurrent : σ.currentDir.length ≤ 255) :
    ((∀ store ∈ cmdCdStores path σ, store.Fits) ↔ Room path σ) ∧
      (Room path σ → (cdStep path σ).currentDir.length ≤ 255) := by
  have hiff := fsChangeDirStores_fit_iff hpath hcurrent
  -- what goes to `current_dir` was there before, or has been stored in `new_dir`
  have hresult : Room path σ → (fsChangeDir path σ.currentDir σ.fs).1.2.length ≤ 255 := by
    intro hroom
    rcases fsChangeDir_stored path σ.currentDir σ.fs with h | h
    · rw [h]
      exact hcurrent
    · exact hiff.mpr hroom _ h
  refine ⟨?_, fun hroom => ?_⟩
  · unfold cmdCdStores
    rw [List.forall_mem_append, List.forall_mem_cons, hiff]
    refine ⟨fun h => h.1.2, fun hroom => ⟨⟨hcurrent, hroom⟩, ?_⟩⟩
    split
    · exact List.forall_mem_singleton.mpr (hresult hroom)
    · exact fun _ h => absurd h List.not_mem_nil
  · rw [cdStep_currentDir]
    split
    · exact hresult hroom
    · exact hcurrent

/-! ## Runs -/

/-- By induction on the arguments; `current_dir` fits as long as everything did. -/
theorem cdStores_fit_iff {paths : List CStr} (hpaths : ∀ path ∈ paths, path.val.length ≤ 63)
    {σ : ShellState} (hcurrent : σ.currentDir.length ≤ 255) :
    (∀ store ∈ cdStores paths σ, store.Fits) ↔ Every cdStep Room paths σ := by
  induction paths generalizing σ with
  | nil => exact ⟨fun _ => trivial, fun _ _ h => by cases h⟩
  | cons path paths ih =>
    rw [List.forall_mem_cons] at hpaths
    obtain ⟨hiff, hnext⟩ := cmdCdStores_fit_iff hpaths.1 hcurrent
    rw [cdStores, List.forall_mem_append, hiff, Every]
    exact and_congr_right fun hroom => ih hpaths.2 (hnext hroom)

theorem shellInit_currentDir (s : FsState) : (shellInit s).currentDir =
    if (fsDirExists (ascii "/home/" ++ s.superblock.username.cstr) s).1 = true
    then ascii "/home/" ++ s.superblock.username.cstr else ascii "/" := by
  cases hex : fsDirExists (ascii "/home/" ++ s.superblock.username.cstr) s with
  | mk found s' =>
    simp only [shellInit, hex]

theorem length_home (username : List UInt8) :
    (ascii "/home/" ++ username).length = 6 + username.length := by
  rw [List.length_append, show (ascii "/home/").length = 6 by decide +kernel]

/-- **The buffers hold what a run of `cd` commands stores just when each relative argument has room
after the working directory.** -/
theorem stores_fit_iff {s : FsState} (huser : s.superblock.username.cstr.length ≤ 27)
    {paths : List CStr} (hpaths : ∀ path ∈ paths, path.val.length ≤ 63) :
    (∀ store ∈ shellInitStores s ++ cdStores paths (shellInit s), store.Fits) ↔
      Every cdStep Room paths (shellInit s) := by
  have hlen := length_home s.superblock.username.cstr
  have hroot : (ascii "/").length ≤ 255 := by decide +kernel
  have hinit : (∀ store ∈ shellInitStores s, store.Fits) ∧
      (shellInit s).currentDir.length ≤ 255 := by
    rw [shellInit_currentDir, shellInitStores]
    split
    · refine ⟨List.forall_mem_cons.mpr ⟨hroot, List.forall_mem_singleton.mpr ?_⟩, ?_⟩
      · show (ascii "/home/" ++ s.superblock.username.cstr).length ≤ 255
        omega
      · omega
    · exact ⟨List.forall_mem_singleton.mpr hroot, hroot⟩
  rw [List.forall_mem_append, and_iff_right hinit.1, cdStores_fit_iff hpaths hinit.2]

/-- Into the documents and back. -/
def visitDocuments : List CStr :=
  [⟨ascii "documents", by decide +kernel⟩, ⟨ascii "..", by decide +kernel⟩]

theorem visitDocuments_fits :
    (∀ store ∈ shellInitStores sampleInstall ++ cdStores visitDocuments (shellInit sampleInstall),
      store.Fits) ∧ Every cdStep Room visitDocuments (shellInit sampleInstall) := by
  have hroom : Every cdStep Room visitDocuments (shellInit sampleInstall) := by
    refine ⟨.inr (.inr (.inr ?_)), .inl rfl, trivial⟩
    rw [sampleShell.2]
    decide +kernel
  have huser : sampleInstall.superblock.username.cstr.length ≤ 27 := by
    rw [sampleInstall_username]
    decide +kernel
  exact ⟨(stores_fit_iff huser (by decide +kernel)).mpr hroom, hroom⟩

/-! ## `cd .` -/

/-- The argument `.`. -/
def dot : CStr := ⟨ascii ".", by decide +kernel⟩

/-- In a directory other than the root `cd .` succeeds, and adds two characters. -/
theorem cd_dot {σ : ShellState} (hI : Inv σ.fs) {e : UInt32}
    (hres : σ.fs.resolve (comps σ.currentDir) = some e) (he : σ.fs.UsableDir e)
    (hroot : σ.currentDir ≠ [slash]) :
    cdStep dot σ = { σ with currentDir := σ.currentDir ++ [slash] ++ ascii "." } ∧
      σ.fs.resolve (comps (σ.currentDir ++ [slash] ++ ascii ".")) = some e := by
  have hcomps :
      comps (σ.currentDir ++ [slash] ++ ascii ".") = comps σ.currentDir ++ [ascii "."] := by
    rw [List.append_assoc]
    exact components_append_sep σ.currentDir (by decide +kernel)
  have hlookup : σ.fs.lookup e (ascii ".") = some e := by
    rw [hI.lookup_eq he (by decide +kernel), find_eq_some_iff]
    exact ⟨0, (hI.entries e he).dot, fun j hj => absurd hj (Fin.not_lt_zero j)⟩
  have hres' : σ.fs.resolve (comps (σ.currentDir ++ [slash] ++ ascii ".")) = some e := by
    rw [hcomps, resolve_concat, hres]
    exact hlookup
  have hjoin : joinPath σ.currentDir (ascii ".") = σ.currentDir ++ [slash] ++ ascii "." := by
    unfold joinPath
    rw [if_neg (by decide +kernel), if_neg hroot]
  have hex : (fsDirExists (joinPath σ.currentDir (ascii ".")) σ.fs).1 = true := by
    rw [hjoin, fsDirExists_iff hI.perfect, findInodeByPath_of_resolve hI hres']
    exact he.isDir
  have hrun : fsChangeDir dot σ.currentDir σ.fs =
      ((0, σ.currentDir ++ [slash] ++ ascii "."), σ.fs) := by
    have hup : dot.val ≠ ascii ".." := by decide +kernel
    unfold fsChangeDir
    simp only [if_neg hup]
    rw [FsM.bind_eq (fsDirExists_state hI.perfect _), show dot.val = ascii "." from rfl, hex, hjoin]
    rfl
  refine ⟨?_, hres'⟩
  rw [cdStep, Command.step_cd, changeDir, hrun]
  rfl

/-- **Each `cd .` needs room for two more characters.** -/
theorem dots_room {σ : ShellState} (hI : Inv σ.fs) {e : UInt32}
    (hres : σ.fs.resolve (comps σ.currentDir) = some e) (he : σ.fs.UsableDir e)
    (hroot : σ.currentDir ≠ [slash]) (n : Nat)
    (h : Every cdStep Room (List.replicate n dot) σ) :
    n = 0 ∨ σ.currentDir.length + 2 * n ≤ 255 := by
  induction n generalizing σ with
  | zero => exact .inl rfl
  | succ n ih =>
    obtain ⟨hroom, hrest⟩ := h
    obtain ⟨hstep, hres'⟩ := cd_dot hI hres he hroot
    rw [hstep] at hrest
    have hlen : (σ.currentDir ++ [slash] ++ ascii ".").length = σ.currentDir.length + 2 := by
      simp [ascii]
    have hroom' : σ.currentDir.length + 1 ≤ 254 := by
      rcases hroom with h | h | h | h
      · exact absurd h (by decide +kernel)
      · exact absurd h (by decide +kernel)
      · exact absurd h hroot
      · exact h
    have hroot' : σ.currentDir ++ [slash] ++ ascii "." ≠ [slash] := by
      intro h
      have := congrArg List.length h
      rw [hlen, List.length_singleton] at this
      omega
    have hmore := @ih { σ with currentDir := σ.currentDir ++ [slash] ++ ascii "." }
      hI hres' he hroot' hrest
    simp only [hlen] at hmore
    omega

theorem sampleInstall_home : ∃ e,
    sampleInstall.resolve (comps (ascii "/home/user")) = some e ∧ sampleInstall.UsableDir e := by
  have hI := sampleInstall_inv
  have hdir := sampleShell.1.ok.isDir
  rw [sampleShell.2, shellInit_fs hI.perfect] at hdir
  obtain ⟨e, hres, he⟩ := hI.isDir_find_iff.mp hdir
  refine ⟨e, hres, hI.usable he ?_⟩
  rintro rfl
  -- the parent of `/bin` is the root, that of the home is not
  have hbin : sampleInstall.lookup 0 (ascii "bin") = some 1 := by
    rw [sampleInstall_lookup (by decide +kernel)]
    decide +kernel
  have hhome : sampleInstall.lookup 0 (ascii "home") = some 2 := by
    rw [sampleInstall_lookup (by decide +kernel)]
    decide +kernel
  have hcomps : comps (ascii "/home/user") = ([] ++ [ascii "home"]) ++ [ascii "user"] := by
    decide +kernel
  rw [hcomps, resolve_concat, resolve_concat, resolve_nil, hI.shape.root, Option.bind_some, hhome,
    Option.bind_some] at hres
  have h0 := hI.parent_of_lookup hbin (by decide +kernel)
  rw [hI.parent_of_lookup hres (by decide +kernel)] at h0
  exact absurd h0 (by decide)

/-- **`cd .` overflows the buffers**, after 123 times in the home of the sample installation. -/
theorem dots_overflow : ¬ ∀ (s : FsState) (paths : List CStr), Reachable s →
    s.superblock.username.cstr.length ≤ 27 →
    (∀ path ∈ paths, 1 ≤ path.val.length ∧ path.val.length ≤ 63) →
    ∀ store ∈ shellInitStores s ++ cdStores paths (shellInit s), store.Fits := by
  intro hall
  obtain ⟨e, hres, he⟩ := sampleInstall_home
  have huser : sampleInstall.superblock.username.cstr.length ≤ 27 := by
    rw [sampleInstall_username]
    decide +kernel
  have hdot : ∀ path ∈ List.replicate 123 dot, 1 ≤ path.val.length ∧ path.val.length ≤ 63 := by
    intro path hpath
    rw [List.eq_of_mem_replicate hpath]
    decide +kernel
  have hfs := shellInit_fs sampleInstall_inv.perfect
  have hdir := sampleShell.2
  have hlen : (shellInit sampleInstall).currentDir.length = 10 := by
    rw [hdir]
    decide +kernel
  have hfit := (cdStores_fit_iff (fun path hpath => (hdot path hpath).2)
    (show (shellInit sampleInstall).currentDir.length ≤ 255 by omega)).mp fun store hstore =>
      hall sampleInstall _ sampleInstall_reachable huser hdot store (List.mem_append_right _ hstore)
  have hroot : (shellInit sampleInstall).currentDir ≠ [slash] := by
    rw [hdir]
    decide +kernel
  have := dots_room (by rw [hfs]; exact sampleInstall_inv) (by rw [hfs, hdir]; exact hres)
    (by rw [hfs]; exact he) hroot 123 hfit
  omega

end EphemeralOS
