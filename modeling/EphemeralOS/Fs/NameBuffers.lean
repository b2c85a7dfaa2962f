import EphemeralOS.Fs.Walk

/-!
# The name buffers

`split_path` copies the two parts of a path to buffers of its caller: the parent
to `parent_path[256]`, the last component to a name of `FS_MAX_FILENAME` bytes.
The copies stop at the end of the string, and the caller measures the name only
afterwards. What is stored during a call, in which order and how far, is listed
here; it stays inside the buffers exactly for paths of short components
(`name_buffers_hold_iff`).
-/

namespace EphemeralOS

open Path

/-- The local buffers of `split_path`, of the lookup and of their callers. -/
inductive NameBuffer
  | normalized
  | parentPath
  | name
  deriving DecidableEq

def NameBuffer.size : NameBuffer → Nat
  | normalized => 256
  | parentPath => 256
  | name => 28

structure NameStore where
  buffer : NameBuffer
  index : Nat
  deriving DecidableEq

def Held (stores : List NameStore) : Prop := ∀ w ∈ stores, w.index < w.buffer.size

instance (stores : List NameStore) : Decidable (Held stores) :=
  inferInstanceAs (Decidable (∀ w ∈ stores, _))

def NameBuffer.stores (buffer : NameBuffer) (indices : List Nat) : List NameStore :=
  indices.map (⟨buffer, ·⟩)

/-- `strcpy` of a string to the start of a buffer, with its NUL. -/
def strcpyIndices (src : List UInt8) : List Nat := List.range (src.length + 1)

/-- The indices of `normalized` that the loop of `normalize_path` stores at, `j` being the next. -/
def normalizeLoopIndices : List UInt8 → Nat → Bool → List Nat
  | [], _, _ => []
  | c :: path, j, lastWasSlash =>
    if c = slash then
      if !lastWasSlash && decide (j > 0) then j :: normalizeLoopIndices path (j + 1) true
      else if j = 0 then j :: normalizeLoopIndices path (j + 1) true
      else normalizeLoopIndices path j lastWasSlash
    else j :: normalizeLoopIndices path (j + 1) false

/-- The indices that `normalize_path` stores at. -/
def normalizeIndices (path : List UInt8) : List Nat :=
  let absolute := decide (path.head? = some slash)
  let start := if absolute then [] else [slash]
  let out := normalizeLoop path start absolute
  let out := if out.length > 1 ∧ out.getLast? = some slash then out.dropLast else out
  List.range start.length ++ normalizeLoopIndices path start.length absolute ++ [out.length] ++
    if out.length = 0 then [0, 1] else []

/-- What `find_inode_by_path` stores in its buffer. -/
def findStores (path : List UInt8) : List NameStore :=
  NameBuffer.normalized.stores (normalizeIndices path)

/-- What `split_path` stores. -/
def splitStores (path : List UInt8) : List NameStore :=
  let normalized := normalizePath path
  NameBuffer.normalized.stores (normalizeIndices path) ++
  if normalized = [slash] then
    NameBuffer.parentPath.stores (strcpyIndices [slash]) ++ NameBuffer.name.stores [0]
  else
    let last := lastSlash normalized 0 0
    if last = 0 then
      NameBuffer.parentPath.stores (strcpyIndices [slash]) ++
        NameBuffer.name.stores (strcpyIndices (normalized.drop (last + 1)))
    else
      NameBuffer.parentPath.stores (List.range last ++ [last]) ++
        NameBuffer.name.stores (strcpyIndices (normalized.drop (last + 1)))

/-- What `createDirDepth` stores. -/
def createDirStores : Nat → List UInt8 → FsState → List NameStore
  | 0, _, _ => []
  | depth + 1, path, s =>
    let (parentPath, dirName) := splitPath path
    splitStores path ++
    if dirName.length = 0 ∨ dirName.length ≥ fsMaxFilename then [] else
    findStores path ++
    (findInodeByPath path).after (fun existing s =>
      if existing ≠ noNumber then [] else
      findStores parentPath ++
      (findInodeByPath parentPath).after (fun parentInode s =>
        if parentInode = noNumber ∧ parentPath ≠ [slash] then
          createDirStores depth parentPath s ++
          (createDirDepth depth parentPath).after (fun result _ =>
            if result ≠ 0 then [] else findStores parentPath) s
        else []) s) s

/-- What `fs_create_dir` stores. -/
def fsCreateDirStores (path : List UInt8) (s : FsState) : List NameStore :=
  createDirStores (path.length + 1) path s

/-- What `fs_delete_file` stores. -/
def fsDeleteFileStores (path : List UInt8) (s : FsState) : List NameStore :=
  let (parentPath, _) := splitPath path
  splitStores path ++ findStores parentPath ++
  (findInodeByPath parentPath).after (fun parentInode _ =>
    if parentInode = noNumber then [] else findStores path) s

/-- What `fs_create_file` stores from line 647 on. -/
def replaceFileStores (path : List UInt8) (parentInode : UInt32) (s : FsState) : List NameStore :=
  if (s.inodeTable parentInode).type ≠ inodeTypeDir then [] else
  findStores path ++
  (findInodeByPath path).after (fun existing s =>
    if existing ≠ noNumber then fsDeleteFileStores path s else []) s

/-- What `fs_create_file` stores. -/
def fsCreateFileStores (path : List UInt8) (size : UInt32) (s : FsState) : List NameStore :=
  if size > fsMaxFileSize then [] else
  let (parentPath, fileName) := splitPath path
  splitStores path ++
  if fileName.length = 0 ∨ fileName.length ≥ fsMaxFilename then [] else
  findStores parentPath ++
  (findInodeByPath parentPath).after (fun parentInode s =>
    if parentInode = noNumber then
      fsCreateDirStores parentPath s ++
      (fsCreateDir parentPath).after (fun result s =>
        if result ≠ 0 then [] else
        findStores parentPath ++
        (findInodeByPath parentPath).after (fun parentInode s =>
          if parentInode = noNumber then [] else replaceFileStores path parentInode s) s) s
    else replaceFileStores path parentInode s) s

/-! ## How far they go -/

theorem held_nil : Held [] := fun _ h => nomatch h

theorem held_append {a b : List NameStore} : Held (a ++ b) ↔ Held a ∧ Held b := by
  simp only [Held, List.mem_append, or_imp, forall_and]

theorem held_stores {buffer : NameBuffer} {indices : List Nat} :
    Held (buffer.stores indices) ↔ ∀ i ∈ indices, i < buffer.size := by
  simp only [Held, NameBuffer.stores, List.mem_map, forall_exists_index, and_imp,
    forall_apply_eq_imp_iff₂]

theorem held_strcpy {buffer : NameBuffer} {src : List UInt8} :
    Held (buffer.stores (strcpyIndices src)) ↔ src.length < buffer.size := by
  rw [held_stores, strcpyIndices]
  constructor
  · exact fun h => h _ (List.mem_range.mpr (Nat.lt_succ_self _))
  · exact fun h i hi => Nat.lt_of_le_of_lt (Nat.lt_succ_iff.mp (List.mem_range.mp hi)) h

theorem length_le_normalizeLoop : ∀ (path out : List UInt8) (lastWasSlash : Bool),
    out.length ≤ (normalizeLoop path out lastWasSlash).length
  | [], _, _ => Nat.le_refl _
  | c :: path, out, lastWasSlash => by
    have hgrow : ∀ (b : UInt8) (flag : Bool),
        out.length ≤ (normalizeLoop path (out ++ [b]) flag).length := fun b flag =>
      Nat.le_trans (by simp) (length_le_normalizeLoop path (out ++ [b]) flag)
    rw [normalizeLoop]
    split
    · split
      · exact hgrow slash true
      · split
        · exact hgrow slash true
        · exact length_le_normalizeLoop path out lastWasSlash
    · exact hgrow c false

/-- The loop fills `normalized` from where it is to where it ends. -/
theorem mem_normalizeLoopIndices {i : Nat} : ∀ (path out : List UInt8) (lastWasSlash : Bool),
    i ∈ normalizeLoopIndices path out.length lastWasSlash ↔
      out.length ≤ i ∧ i < (normalizeLoop path out lastWasSlash).length
  | [], out, _ => by
    simp only [normalizeLoopIndices, normalizeLoop, List.not_mem_nil, false_iff]
    omega
  | c :: path, out, lastWasSlash => by
    have hgrow : ∀ (b : UInt8) (flag : Bool),
        i ∈ out.length :: normalizeLoopIndices path (out.length + 1) flag ↔
          out.length ≤ i ∧ i < (normalizeLoop path (out ++ [b]) flag).length := by
      intro b flag
      have ih := mem_normalizeLoopIndices (i := i) path (out ++ [b]) flag
      have hle := length_le_normalizeLoop path (out ++ [b]) flag
      rw [List.length_append, List.length_singleton] at ih hle
      rw [List.mem_cons, ih]
      omega
    rw [normalizeLoopIndices, normalizeLoop]
    split
    · split
      · exact hgrow slash true
      · split
        · exact hgrow slash true
        · exact mem_normalizeLoopIndices path out lastWasSlash
    · exact hgrow c false

/-- `normalize_path` stores the normal form and its NUL, and nothing behind them. -/
theorem normalizeIndices_extent (path : List UInt8) :
    (∀ i ∈ normalizeIndices path, i ≤ (normalizePath path).length) ∧
      (normalizePath path).length ∈ normalizeIndices path := by
  unfold normalizeIndices normalizePath
  dsimp only
  generalize decide (path.head? = some slash) = absolute
  generalize hstart : (if absolute = true then [] else [slash]) = start
  have hloop := fun i => mem_normalizeLoopIndices (i := i) path start absolute
  have hle := length_le_normalizeLoop path start absolute
  generalize normalizeLoop path start absolute = out at hloop hle
  -- the loop may have stored one slash more than stays
  have hstrip : ∃ stripped, (if out.length > 1 ∧ out.getLast? = some slash then out.dropLast
      else out) = stripped ∧ out.length ≤ stripped.length + 1 := by
    refine ⟨_, rfl, ?_⟩
    split
    · rw [List.length_dropLast]
      omega
    · exact Nat.le_succ _
  obtain ⟨stripped, hs, hlen⟩ := hstrip
  simp only [hs, List.mem_append, List.mem_range, hloop, List.mem_singleton]
  by_cases h0 : stripped.length = 0
  · simp only [if_pos h0, List.mem_cons, List.not_mem_nil, or_false, List.length_singleton]
    refine ⟨?_, .inr (.inr trivial)⟩
    rintro i (((h | h) | h) | h | h) <;> omega
  · simp only [if_neg h0, List.not_mem_nil, or_false]
    refine ⟨?_, .inr trivial⟩
    rintro i ((h | h) | h) <;> omega

theorem held_find (path : List UInt8) :
    Held (findStores path) ↔ (normalizePath path).length < 256 := by
  obtain ⟨hle, hmem⟩ := normalizeIndices_extent path
  rw [findStores, held_stores]
  exact ⟨fun h => h _ hmem, fun h i hi => Nat.lt_of_le_of_lt (hle i hi) h⟩

theorem lastSlash_le : ∀ (l : List UInt8) {i last : Nat}, last ≤ i →
    lastSlash l i last ≤ i + l.length
  | [], _, _, h => h
  | c :: l, i, last, h => by
    rw [lastSlash, List.length_cons]
    split
    · have := lastSlash_le l (show i ≤ i + 1 by omega)
      omega
    · have := lastSlash_le l (show last ≤ i + 1 by omega)
      omega

/-- **The copies of `split_path`** are held just when the normal form and the name are. -/
theorem held_split (path : List UInt8) : Held (splitStores path) ↔
    (normalizePath path).length < 256 ∧ (splitPath path).2.length < 28 := by
  have hfind := held_find path
  have hslash : Held (NameBuffer.parentPath.stores (strcpyIndices [slash])) :=
    held_strcpy.mpr (by decide)
  have hlast := lastSlash_le (normalizePath path) (Nat.le_refl 0)
  unfold splitStores splitPath
  rw [held_append, ← findStores, hfind]
  refine and_congr_right fun hn => ?_
  by_cases hroot : normalizePath path = [slash]
  · simp only [if_pos hroot, held_append, hslash, true_and]
    exact ⟨fun _ => by decide, fun _ => by decide⟩
  · simp only [if_neg hroot]
    generalize lastSlash (normalizePath path) 0 0 = last at hlast
    by_cases h0 : last = 0
    · simp only [if_pos h0, held_append, hslash, true_and]
      exact held_strcpy
    · have hparent : Held (NameBuffer.parentPath.stores (List.range last ++ [last])) := by
        rw [held_stores]
        intro i hi
        rw [List.mem_append, List.mem_range, List.mem_singleton] at hi
        change i < 256
        omega
      simp only [if_neg h0, held_append, hparent, true_and]
      exact held_strcpy

/-! ## Paths of short components -/

def ShortNames (path : List UInt8) : Prop :=
  (normalizePath path).length < 256 ∧ ∀ c ∈ comps path, c.length < 28

instance (path : List UInt8) : Decidable (ShortNames path) := inferInstanceAs (Decidable (_ ∧ _))

section Concat

variable {path : List UInt8} {cs : List (List UInt8)} {c : List UInt8}

theorem shortNames_concat (h : comps path = cs ++ [c]) : ShortNames path ↔
    (normalizePath path).length < 256 ∧ (∀ x ∈ cs, x.length < 28) ∧ c.length < 28 := by
  simp only [ShortNames, h, List.mem_append, List.mem_singleton, or_imp, forall_and, forall_eq]

theorem length_normal_parent (h : comps path = cs ++ [c]) :
    (normalizePath (canon slash cs)).length ≤ (normalizePath path).length := by
  rw [normalizePath_eq, normalizePath_eq, comps_parent h, h, canon_concat]
  unfold canon
  split
  · simp only [List.length_append, List.length_cons, List.length_nil]
    omega
  · simp

theorem name_ne_nil (h : comps path = cs ++ [c]) : c.length ≠ 0 := fun h0 =>
  (components_segment slash path c (by
    rw [show components slash path = cs ++ [c] from h]; simp)).1 (List.length_eq_zero_iff.mp h0)

theorem shortNames_parent (h : comps path = cs ++ [c]) (hn : (normalizePath path).length < 256) :
    ShortNames (canon slash cs) ↔ ∀ x ∈ cs, x.length < 28 := by
  have hle := length_normal_parent h
  rw [ShortNames, comps_parent h]
  exact ⟨fun hs => hs.2, fun hs => ⟨by omega, hs⟩⟩

theorem held_find_parent (h : comps path = cs ++ [c]) (hn : (normalizePath path).length < 256) :
    Held (findStores (canon slash cs)) :=
  (held_find _).mpr (Nat.lt_of_le_of_lt (length_normal_parent h) hn)

end Concat

/-- The creators store more only after the name has been measured. -/
theorem held_measured {path parent name : List UInt8} (h : splitPath path = (parent, name))
    (stores : List NameStore) :
    Held (splitStores path ++
        if name.length = 0 ∨ name.length ≥ fsMaxFilename then [] else stores) ↔
      (normalizePath path).length < 256 ∧ name.length < 28 ∧ (name.length ≠ 0 → Held stores) := by
  rw [held_append, held_split, h, and_assoc]
  refine and_congr_right fun _ => and_congr_right fun hshort => ?_
  have hmax : ¬ name.length ≥ fsMaxFilename := Nat.not_le.mpr hshort
  by_cases h0 : name.length = 0
  · rw [if_pos (.inl h0)]
    exact ⟨fun _ hne => absurd h0 hne, fun _ => held_nil⟩
  · rw [if_neg (not_or.mpr ⟨h0, hmax⟩)]
    exact ⟨fun h _ => h, fun h => h h0⟩

theorem held_measured_root {path : List UInt8} (h : comps path = []) (stores : List NameStore) :
    Held (splitStores path ++ if ([] : List UInt8).length = 0 ∨
      ([] : List UInt8).length ≥ fsMaxFilename then [] else stores) ↔ ShortNames path := by
  rw [held_measured (splitPath_root h), ShortNames, h]
  exact ⟨fun hs => ⟨hs.1, fun _ hc => nomatch hc⟩,
    fun hs => ⟨hs.1, by decide, fun h0 => absurd rfl h0⟩⟩

/-- Otherwise the names of the parent are left to the stores that follow. -/
theorem held_measured_concat {path : List UInt8} {cs : List (List UInt8)} {c : List UInt8}
    (h : comps path = cs ++ [c]) {stores : List NameStore}
    (hrest : (normalizePath path).length < 256 → c.length < 28 →
      (Held stores ↔ ∀ x ∈ cs, x.length < 28)) :
    Held (splitStores path ++ if c.length = 0 ∨ c.length ≥ fsMaxFilename then [] else stores) ↔
      ShortNames path := by
  rw [held_measured (splitPath_concat h), shortNames_concat h]
  refine and_congr_right fun hn => ?_
  constructor
  · rintro ⟨hc, hstores⟩
    exact ⟨(hrest hn hc).mp (hstores (name_ne_nil h)), hc⟩
  · rintro ⟨hcs, hc⟩
    exact ⟨hc, fun _ => (hrest hn hc).mpr hcs⟩

/-- **`fs_create_dir` goes through the components one by one**, unless it finds them, and then they
are short. -/
theorem held_createDir : ∀ (depth : Nat) (path : List UInt8) (s : FsState),
    (comps path).length < depth → (Held (createDirStores depth path s) ↔ ShortNames path)
  | 0, _, _, h => by omega
  | depth + 1, path, s, hdepth => by
    rcases List.eq_nil_or_concat (comps path) with h | ⟨cs, c, h⟩
    · rw [createDirStores, splitPath_root h]
      exact held_measured_root h _
    rw [List.concat_eq_append] at h
    rw [createDirStores, splitPath_concat h]
    refine held_measured_concat h fun hn _ => ?_
    rw [held_append, and_iff_right ((held_find path).mpr hn)]
    simp only [FsM.after]
    -- what is found has short names
    by_cases hfound : (findInodeByPath path s).1 = noNumber
    case neg =>
      have hshort := comps_short_of_find s hfound
      rw [h] at hshort
      rw [if_pos hfound]
      exact ⟨fun _ x hx => hshort x (List.mem_append_left _ hx), fun _ => held_nil⟩
    rw [if_neg (not_not.mpr hfound), held_append, and_iff_right (held_find_parent h hn)]
    generalize (findInodeByPath path s).2 = s1
    by_cases hparent : (findInodeByPath (canon slash cs) s1).1 = noNumber
    case neg =>
      have hshort := comps_short_of_find s1 hparent
      rw [comps_parent h] at hshort
      rw [if_neg fun hp => hparent hp.1]
      exact ⟨fun _ => hshort, fun _ => held_nil⟩
    by_cases hroot : canon slash cs = [slash]
    · have hcs : cs = [] := by
        rw [← comps_parent h, hroot]
        rfl
      rw [if_neg fun hp => hp.2 hroot, hcs]
      exact ⟨fun _ x hx => absurd hx List.not_mem_nil, fun _ => held_nil⟩
    rw [if_pos ⟨hparent, hroot⟩, held_append]
    generalize (findInodeByPath (canon slash cs) s1).2 = s2
    have hlt : (comps (canon slash cs)).length < depth := by
      rw [comps_parent h]
      rw [h, List.length_append, List.length_singleton] at hdepth
      omega
    rw [held_createDir depth _ s2 hlt, shortNames_parent h hn, and_iff_left_iff_imp]
    intro _
    split
    · exact held_nil
    · exact held_find_parent h hn

theorem held_fsCreateDir (path : List UInt8) (s : FsState) :
    Held (fsCreateDirStores path s) ↔ ShortNames path :=
  held_createDir _ path s (Nat.lt_succ_of_le (length_components slash path))

theorem held_fsDeleteFile (path : List UInt8) (s : FsState) : Held (fsDeleteFileStores path s) ↔
    (normalizePath path).length < 256 ∧ (splitPath path).2.length < 28 := by
  have hparent : (normalizePath path).length < 256 →
      (normalizePath (splitPath path).1).length < 256 := fun hn => by
    rcases List.eq_nil_or_concat (comps path) with h | ⟨cs, c, h⟩
    · rw [splitPath_root h]
      decide
    · rw [List.concat_eq_append] at h
      rw [splitPath_concat h]
      exact Nat.lt_of_le_of_lt (length_normal_parent h) hn
  simp only [fsDeleteFileStores, FsM.after]
  rw [held_append, held_append, held_split, and_assoc, and_iff_left_iff_imp]
  rintro ⟨hn, -⟩
  refine ⟨(held_find _).mpr (hparent hn), ?_⟩
  split
  · exact held_nil
  · exact (held_find path).mpr hn

theorem held_replaceFile {path : List UInt8} (hn : (normalizePath path).length < 256)
    (hname : (splitPath path).2.length < 28) (parentInode : UInt32) (s : FsState) :
    Held (replaceFileStores path parentInode s) := by
  simp only [replaceFileStores, FsM.after]
  split
  · exact held_nil
  · rw [held_append]
    refine ⟨(held_find path).mpr hn, ?_⟩
    split
    · exact (held_fsDeleteFile path _).mpr ⟨hn, hname⟩
    · exact held_nil

theorem held_fsCreateFile (path : List UInt8) (size : UInt32) (s : FsState) :
    Held (fsCreateFileStores path size s) ↔ size > fsMaxFileSize ∨ ShortNames path := by
  unfold fsCreateFileStores
  by_cases hsize : size > fsMaxFileSize
  · rw [if_pos hsize]
    exact ⟨fun _ => .inl hsize, fun _ => held_nil⟩
  rw [if_neg hsize, or_iff_right hsize]
  rcases List.eq_nil_or_concat (comps path) with h | ⟨cs, c, h⟩
  · rw [splitPath_root h]
    exact held_measured_root h _
  rw [List.concat_eq_append] at h
  rw [splitPath_concat h]
  refine held_measured_concat h fun hn hc => ?_
  have hname : (splitPath path).2.length < 28 := by rwa [splitPath_concat h]
  rw [held_append, and_iff_right (held_find_parent h hn)]
  simp only [FsM.after]
  by_cases hparent : (findInodeByPath (canon slash cs) s).1 = noNumber
  case neg =>
    have hshort := comps_short_of_find s hparent
    rw [comps_parent h] at hshort
    rw [if_neg hparent]
    exact ⟨fun _ => hshort, fun _ => held_replaceFile hn hname _ _⟩
  rw [if_pos hparent, held_append, held_fsCreateDir, shortNames_parent h hn, and_iff_left_iff_imp]
  intro _
  split
  · exact held_nil
  · rw [held_append]
    refine ⟨held_find_parent h hn, ?_⟩
    split
    · exact held_nil
    · exact held_replaceFile hn hname _ _

theorem fsCreateDir_long {path : List UInt8} (h : 28 ≤ (splitPath path).2.length) (s : FsState) :
    (fsCreateDir path s).1 = -1 := by
  show (createDirStep _ path s).1 = -1
  unfold createDirStep
  simp only
  rw [if_pos (.inr h)]
  rfl

theorem fsCreateFile_long {path : List UInt8} (h : 28 ≤ (splitPath path).2.length) (data : Memory)
    (size : UInt32) (s : FsState) : (fsCreateFile path data size s).1 = -1 := by
  unfold fsCreateFile
  split
  · rfl
  · simp only
    rw [if_pos (.inr h)]
    rfl

/-- **The name buffers hold what is stored exactly for short names**; the creators reject a long
last component in any case. -/
theorem name_buffers_hold_iff (path : List UInt8) (data : Memory) (size : UInt32) (s : FsState) :
    (Held (fsCreateDirStores path s) ↔ ShortNames path) ∧
      (Held (fsCreateFileStores path size s) ↔ size > fsMaxFileSize ∨ ShortNames path) ∧
      (Held (fsDeleteFileStores path s) ↔
        (normalizePath path).length < 256 ∧ (splitPath path).2.length < 28) ∧
      (28 ≤ (splitPath path).2.length →
        (fsCreateDir path s).1 = -1 ∧ (fsCreateFile path data size s).1 = -1) :=
  ⟨held_fsCreateDir path s, held_fsCreateFile path size s, held_fsDeleteFile path s,
    fun h => ⟨fsCreateDir_long h s, fsCreateFile_long h data size s⟩⟩

/-- A name of 28 characters is copied before it is measured. -/
theorem long_name_overruns :
    ¬ (∀ (path : List UInt8) (size : UInt32) (s : FsState), path.length ≤ 255 →
      Held (fsCreateDirStores path s) ∧ Held (fsCreateFileStores path size s) ∧
        Held (fsDeleteFileStores path s)) ∧
      ⟨.name, 28⟩ ∈ splitStores (slash :: List.replicate 28 97) := by
  refine ⟨fun h => ?_, by decide⟩
  have hheld := (h (slash :: List.replicate 28 97) 0 blankState (by decide)).1
  rw [held_fsCreateDir] at hheld
  exact absurd hheld (by decide)

end EphemeralOS
