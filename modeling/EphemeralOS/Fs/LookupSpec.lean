import EphemeralOS.Lib.Directory
import EphemeralOS.Fs.Ops

/-!
# What the lookups compute

`normalize_path` and `split_path` in terms of the components of a path
(`normalizePath_eq`, `splitPath_eq`), the directory a data block holds as an
array of slots (`slotsOf`), and `find_inode_by_path` on a perfect disk as a
walk through directories (`findInodeByPath_eq`).
-/

namespace EphemeralOS

open Path Directory

abbrev comps (path : List UInt8) : List (List UInt8) := components slash path

theorem normalizeLoop_eq :
    ∀ (path : List UInt8) (done : List (List UInt8)) (cur : List UInt8), slash ∉ cur →
      ∃ done' cur', slash ∉ cur' ∧
        normalizeLoop path (joined slash done ++ slash :: cur) (decide (cur = [])) =
          joined slash done' ++ slash :: cur' ∧
        done' ++ (if cur' = [] then [] else [cur']) = done ++ componentsFrom slash cur path
  | [], done, cur, hcur => ⟨done, cur, hcur, rfl, rfl⟩
  | c :: path, done, cur, hcur => by
    have hlen : (joined slash done ++ slash :: cur).length > 0 :=
      List.length_pos_of_ne_nil (by simp)
    by_cases hc : c = slash
    · subst hc
      by_cases h : cur = []
      · subst h
        obtain ⟨done', cur', h1, h2, h3⟩ := normalizeLoop_eq path done [] (by simp)
        refine ⟨done', cur', h1, ?_, ?_⟩
        · rw [normalizeLoop, if_pos rfl, if_neg (by simp), if_neg (by omega)]
          exact h2
        · rw [h3, componentsFrom, if_pos rfl]; rfl
      · obtain ⟨done', cur', h1, h2, h3⟩ := normalizeLoop_eq path (done ++ [cur]) [] (by simp)
        refine ⟨done', cur', h1, ?_, ?_⟩
        · have hnew : (!decide (cur = []) &&
              decide ((joined slash done ++ slash :: cur).length > 0)) = true := by
            rw [decide_eq_true hlen, decide_eq_false h]; rfl
          rw [normalizeLoop, if_pos rfl, if_pos hnew, ← h2]
          simp
        · rw [h3, componentsFrom, if_pos rfl, if_neg h, List.append_assoc]
    · obtain ⟨done', cur', h1, h2, h3⟩ :=
        normalizeLoop_eq path done (cur ++ [c]) (by simp [hcur, Ne.symm hc])
      refine ⟨done', cur', h1, ?_, ?_⟩
      · rw [normalizeLoop, if_neg hc, ← h2]
        simp
      · rw [h3, componentsFrom, if_neg hc]

/-- **`normalize_path` gives the canonical path of the components.** -/
theorem normalizePath_eq (path : List UInt8) : normalizePath path = canon slash (comps path) := by
  -- after the first byte the loop is in a state `normalizeLoop_eq` covers
  obtain ⟨done, cur, hcur, hloop, hcs⟩ : ∃ done cur, slash ∉ cur ∧
      normalizeLoop path (if decide (path.head? = some slash) then [] else [slash])
        (decide (path.head? = some slash)) = joined slash done ++ slash :: cur ∧
      done ++ (if cur = [] then [] else [cur]) = comps path := by
    cases path with
    | nil => exact ⟨[], [], by simp, rfl, rfl⟩
    | cons c path =>
      by_cases hc : c = slash
      · subst hc
        obtain ⟨done, cur, h1, h2, h3⟩ := normalizeLoop_eq path [] [] (by simp)
        exact ⟨done, cur, h1, h2, h3⟩
      · obtain ⟨done, cur, h1, h2, h3⟩ := normalizeLoop_eq path [] [c] (by simp [Ne.symm hc])
        refine ⟨done, cur, h1, ?_, ?_⟩
        · rw [← h2]; simp [hc, normalizeLoop]
        · rw [h3, comps, components, componentsFrom, if_neg hc]; rfl
  -- dropping a trailing slash
  have hstrip : (if (joined slash done ++ slash :: cur).length > 1 ∧
      (joined slash done ++ slash :: cur).getLast? = some slash
      then (joined slash done ++ slash :: cur).dropLast else joined slash done ++ slash :: cur) =
        canon slash (comps path) := by
    rw [← hcs]
    rcases List.eq_nil_or_concat cur with rfl | ⟨cur, b, rfl⟩
    · by_cases hd : done = []
      · subst hd; rfl
      · have hlen : (joined slash done).length > 0 :=
          List.length_pos_of_ne_nil (joined_ne_nil hd)
        rw [if_pos ⟨by simp; omega, by simp⟩, List.dropLast_concat]
        simp [canon, hd]
    · rw [List.concat_eq_append] at hcur ⊢
      have hb : b ≠ slash := fun e => hcur (by simp [e])
      have hlast : (joined slash done ++ slash :: (cur ++ [b])).getLast? = some b := by
        rw [← List.cons_append, ← List.append_assoc, List.getLast?_append]; simp
      rw [hlast, if_neg (by simp [hb]), if_neg (by simp), canon_concat]
  have hlen : (canon slash (comps path)).length ≠ 0 := by
    unfold canon
    split
    · simp
    · next h => exact fun e => joined_ne_nil h (List.length_eq_zero_iff.mp e)
  simp only [normalizePath, hloop, hstrip]
  rw [if_neg hlen]

theorem lastSlash_of_not_mem {r : List UInt8} :
    ∀ {i last : Nat}, slash ∉ r → lastSlash r i last = last := by
  induction r with
  | nil => intros; rfl
  | cons c r ih =>
    intro i last h
    rw [List.mem_cons, not_or] at h
    rw [lastSlash, if_neg (Ne.symm h.1), ih h.2]

theorem lastSlash_append {l : List UInt8} :
    ∀ {r : List UInt8} {i last : Nat}, slash ∉ r →
      lastSlash (l ++ slash :: r) i last = i + l.length := by
  induction l with
  | nil => intro r i last h; simp [lastSlash, lastSlash_of_not_mem h]
  | cons c l ih => intro r i last h; rw [List.cons_append, lastSlash, ih h, List.length_cons]; omega

theorem splitPath_root {path : List UInt8} (h : comps path = []) :
    splitPath path = ([slash], []) := by
  simp [splitPath, normalizePath_eq, h]

/-- **`split_path` separates the last component.** -/
theorem splitPath_concat {path : List UInt8} {cs : List (List UInt8)} {c : List UInt8}
    (h : comps path = cs ++ [c]) : splitPath path = (canon slash cs, c) := by
  have hc : Segment slash c := components_segment slash path c (by
    rw [show components slash path = cs ++ [c] from h]; simp)
  have hn : normalizePath path = joined slash cs ++ slash :: c := by
    rw [normalizePath_eq, h, canon_concat]
  have hlast : lastSlash (normalizePath path) 0 0 = (joined slash cs).length := by
    rw [hn, lastSlash_append hc.2, Nat.zero_add]
  have hne : normalizePath path ≠ [slash] := by
    intro e
    have := congrArg List.length (hn.symm.trans e)
    simp only [List.length_append, List.length_cons, List.length_nil] at this
    exact hc.1 (List.length_eq_zero_iff.mp (by omega))
  have hdrop : (normalizePath path).drop ((joined slash cs).length + 1) = c := by
    rw [hn, ← List.drop_drop, List.drop_left]; rfl
  simp only [splitPath, if_neg hne, hlast, hdrop]
  by_cases hcs : cs = []
  · subst hcs; rfl
  · have : (joined slash cs).length ≠ 0 := by
      have hne : joined slash cs ≠ [] := joined_ne_nil hcs
      have := List.length_pos_of_ne_nil hne
      omega
    rw [if_neg this, hn, List.take_left, canon, if_neg hcs]

theorem comps_parent {path : List UInt8} {cs : List (List UInt8)} {c : List UInt8}
    (h : comps path = cs ++ [c]) : comps (canon slash cs) = cs :=
  components_canon fun d hd => components_segment slash path d (by
    rw [show components slash path = cs ++ [c] from h]; simp [hd])

/-! ## Directories -/

/-- The block numbers the readers and writers of data blocks accept. -/
def ValidBlock (b : UInt32) : Prop := b ≠ 0 ∧ b < fsMaxBlocks

instance (b : UInt32) : Decidable (ValidBlock b) := inferInstanceAs (Decidable (_ ∧ _))

/-- The slots in use of a directory block. -/
def slotsOf (d : DirBlock) : Slots 15 (List UInt8) UInt32 := fun i =>
  if (d i).inUse = 1 then some ((d i).name.cstr, (d i).inode) else none

namespace FsState

def data (s : FsState) (b : UInt32) : Sector := s.disk.sectors (fsDataStartSector + b.toNat)

def dirBlock (s : FsState) (d : UInt32) : DirBlock :=
  let b := (s.inodeTable d).blocks 0
  dirOfSector (if ValidBlock b then s.data b else Sector.zero)

/-- The slots of directory `d`. -/
def slots (s : FsState) (d : UInt32) : Slots 15 (List UInt8) UInt32 := slotsOf (s.dirBlock d)

/-- An inode that `find_inode_by_path` can go through. -/
def UsableDir (s : FsState) (d : UInt32) : Prop :=
  d < fsMaxInodes ∧ (s.inodeTable d).type = inodeTypeDir ∧ ValidBlock ((s.inodeTable d).blocks 0)

instance (s : FsState) (d : UInt32) : Decidable (s.UsableDir d) :=
  inferInstanceAs (Decidable (_ ∧ _ ∧ _))

/-- The inode that `component` names in directory `current`. -/
def lookup (s : FsState) (current : UInt32) (component : List UInt8) : Option UInt32 :=
  if component.length < fsMaxFilename ∧ s.UsableDir current then
    (Directory.find (s.slots current) component).filter fun i => i ≠ noNumber
  else none

/-- The inode a list of components leads to from the root. -/
def resolve (s : FsState) (cs : List (List UInt8)) : Option UInt32 :=
  walk s.lookup s.superblock.rootInode cs

end FsState

theorem find_slotsOf (d : DirBlock) (c : List UInt8) :
    Directory.find (slotsOf d) c =
      (firstSlot d fun e => e.inUse = 1 ∧ e.name.cstr = c).map fun i => (d i).inode := by
  have hp : (fun i => named c (slotsOf d i)) =
      fun i => decide ((d i).inUse = 1 ∧ (d i).name.cstr = c) := by
    funext i
    by_cases h : (d i).inUse = 1 <;> simp [slotsOf, named, h]
  have hf : (firstSlot d fun e => e.inUse = 1 ∧ e.name.cstr = c) =
      first fun i => named c (slotsOf d i) := by
    rw [hp]; rfl
  rw [hf, Directory.find]
  cases h : first fun i => named c (slotsOf d i) with
  | none => rfl
  | some i =>
    have hi := (first_eq_some_iff.mp h).1
    obtain ⟨e, he⟩ := named_iff.mp hi
    have hu : (d i).inUse = 1 := by
      by_contra hne
      rw [slotsOf, if_neg hne] at he
      cases he
    simp [slotsOf, hu]

theorem lookup_ne_noNumber {s : FsState} {d : UInt32} {c : List UInt8} {i : UInt32}
    (h : s.lookup d c = some i) : i ≠ noNumber := by
  unfold FsState.lookup at h
  split at h
  · simpa using (Option.filter_eq_some_iff.mp h).2
  · cases h

section Component

variable {s : FsState} {current : UInt32} {component : List UInt8}

/-- A long component is not searched for, nor a directory searched that cannot be read. -/
theorem findComponent_refused (h : ¬ (component.length < fsMaxFilename ∧ s.UsableDir current)) :
    findComponent current component s = (noNumber, s) := by
  unfold findComponent
  by_cases h1 : component.length ≥ fsMaxFilename
  · rw [if_pos h1]
    rfl
  by_cases h2 : current ≥ fsMaxInodes
  · rw [if_neg h1, if_pos h2]
    rfl
  rw [if_neg h1, if_neg h2, FsM.bind_gets]
  by_cases h3 : (s.inodeTable current).type ≠ inodeTypeDir
  · rw [if_pos h3]
    rfl
  by_cases h4 : (s.inodeTable current).blocks 0 = 0 ∨ (s.inodeTable current).blocks 0 ≥ fsMaxBlocks
  · rw [if_neg h3, if_pos h4]
    rfl
  rw [not_or] at h4
  exact absurd ⟨Nat.not_le.mp h1, UInt32.not_le.mp h2, not_not.mp h3, h4.1, UInt32.not_le.mp h4.2⟩ h

/-- Otherwise it is searched for in the block that is read. -/
theorem findComponent_read (h : component.length < fsMaxFilename ∧ s.UsableDir current)
    {b : DirBlock} {s' : FsState}
    (hread : readDirBlock ((s.inodeTable current).blocks 0) s = (b, s')) :
    findComponent current component s =
      (((firstSlot b fun e => e.inUse = 1 ∧ e.name.cstr = component).map
        fun i => (b i).inode).getD noNumber, s') := by
  obtain ⟨hlen, hlt, hdir, hne, hblock⟩ := h
  unfold findComponent
  rw [if_neg (Nat.not_le.mpr hlen), if_neg (UInt32.not_le.mpr hlt), FsM.bind_gets,
    if_neg (not_not.mpr hdir), if_neg (not_or.mpr ⟨hne, UInt32.not_le.mpr hblock⟩),
    FsM.bind_eq hread]
  cases firstSlot b fun e => e.inUse = 1 ∧ e.name.cstr = component <;> rfl

end Component

section Loop

variable {c c' : List UInt8} {cs : List (List UInt8)} (hc : Segment slash c)
include hc

theorem findLoop_last (rounds : Nat) (current : UInt32) :
    findLoop (rounds + 1) (c ++ joined slash []) current = findComponent current c := by
  have hne : c ++ joined slash [] ≠ [] := by simp [hc.1]
  funext s
  unfold findLoop
  rw [if_neg hne, takeWhile_segment hc.2, List.drop_left]
  generalize hfound : findComponent current c s = r
  rw [FsM.bind_eq hfound]
  split
  · next h => rw [← h]; rfl
  · rfl

/-- Another one is searched for, and the loop goes on behind it. -/
theorem findLoop_next (hc' : Segment slash c') (rounds : Nat) (current : UInt32) :
    findLoop (rounds + 1) (c ++ joined slash (c' :: cs)) current = (do
      let found ← findComponent current c
      if found = noNumber then return noNumber
      findLoop rounds (c' ++ joined slash cs) found) := by
  have hne : c ++ joined slash (c' :: cs) ≠ [] := by simp [hc.1]
  have hdrop : (joined slash (c' :: cs)).drop 1 = c' ++ joined slash cs := rfl
  have hhead : (joined slash (c' :: cs)).head? = some slash := rfl
  have hrest : c' ++ joined slash cs ≠ [] := by simp [hc'.1]
  conv_lhs => unfold findLoop
  rw [if_neg hne, takeWhile_segment hc.2]
  simp only [List.drop_left, hdrop, if_pos hhead, if_neg hrest]

theorem findInodeByPath_cons {path : List UInt8} (h : comps path = c :: cs) (s : FsState) :
    findInodeByPath path s = findLoop (canon slash (c :: cs)).length (c ++ joined slash cs)
      s.superblock.rootInode s := by
  have hne : canon slash (c :: cs) ≠ [slash] := by
    intro e
    have hlen := congrArg List.length e
    have hpos := List.length_pos_of_ne_nil hc.1
    simp only [canon_cons, List.length_append, List.length_cons, List.length_nil] at hlen
    omega
  simp only [findInodeByPath, FsM.bind_gets, normalizePath_eq, h]
  rw [if_neg hne]
  rfl

end Loop

section Perfect

variable {s : FsState} (hs : s.disk.Perfect)
include hs

theorem readInodeBlock_eq (b : UInt32) :
    readInodeBlock b s = (if ValidBlock b then s.data b else Sector.zero, s) := by
  unfold readInodeBlock
  by_cases hv : ValidBlock b
  · have h : ¬ (b = 0 ∨ b ≥ fsMaxBlocks) := fun h =>
      h.elim hv.1 fun h => absurd hv.2 (UInt32.not_lt.mpr h)
    rw [if_neg h, if_pos hv, Disk.read_perfect hs]
    rfl
  · have h : b = 0 ∨ b ≥ fsMaxBlocks := by
      by_contra h
      rw [not_or] at h
      exact hv ⟨h.1, UInt32.not_le.mp h.2⟩
    rw [if_pos h, if_neg hv]

theorem readDirBlock_eq (d : UInt32) :
    readDirBlock ((s.inodeTable d).blocks 0) s = (s.dirBlock d, s) := by
  unfold readDirBlock
  rw [FsM.bind_eq (readInodeBlock_eq hs _)]
  rfl

theorem findComponent_eq (current : UInt32) (component : List UInt8) :
    findComponent current component s = ((s.lookup current component).getD noNumber, s) := by
  by_cases hu : component.length < fsMaxFilename ∧ s.UsableDir current
  · rw [findComponent_read hu (readDirBlock_eq hs current), FsState.lookup, if_pos hu]
    simp only [FsState.slots, find_slotsOf]
    cases firstSlot (s.dirBlock current) fun e => e.inUse = 1 ∧ e.name.cstr = component with
    | none => rfl
    | some i =>
      by_cases hn : (s.dirBlock current i).inode = noNumber <;> simp [Option.filter, hn]
  · rw [findComponent_refused hu, FsState.lookup, if_neg hu]
    rfl

theorem findLoop_eq :
    ∀ (rounds : Nat) (c : List UInt8) (cs : List (List UInt8)) (current : UInt32),
      Segment slash c → (∀ d ∈ cs, Segment slash d) → (c ++ joined slash cs).length ≤ rounds →
      findLoop rounds (c ++ joined slash cs) current s =
        ((walk s.lookup current (c :: cs)).getD noNumber, s)
  | 0, c, cs, current, hc, _, hlen => by
    have := List.length_pos_of_ne_nil hc.1
    rw [List.length_append] at hlen
    omega
  | rounds + 1, c, [], current, hc, _, _ => by
    rw [findLoop_last hc, findComponent_eq hs, walk_cons]
    cases s.lookup current c <;> rfl
  | rounds + 1, c, c' :: cs, current, hc, hcs, hlen => by
    have hc' := hcs c' List.mem_cons_self
    rw [findLoop_next hc hc', FsM.bind_eq (findComponent_eq hs current c), walk_cons]
    cases hl : s.lookup current c with
    | none => rfl
    | some found =>
      have hlen' : (c' ++ joined slash cs).length ≤ rounds := by
        simp only [joined_cons, List.length_append, List.length_cons] at hlen ⊢
        omega
      rw [Option.getD_some, if_neg (lookup_ne_noNumber hl), Option.bind_some]
      exact findLoop_eq rounds c' cs found hc' (fun d hd => hcs d (List.mem_cons_of_mem _ hd)) hlen'

/-- **`find_inode_by_path` walks the components from the root.** -/
theorem findInodeByPath_eq (path : List UInt8) :
    findInodeByPath path s = ((s.resolve (comps path)).getD noNumber, s) := by
  have hseg : ∀ c ∈ comps path, Segment slash c := components_segment slash path
  cases hcs : comps path with
  | nil =>
    simp only [findInodeByPath, FsM.bind_gets, normalizePath_eq, hcs]
    rfl
  | cons c cs =>
    rw [hcs] at hseg
    have hc := hseg c List.mem_cons_self
    rw [findInodeByPath_cons hc hcs]
    exact findLoop_eq hs _ c cs _ hc (fun d hd => hseg d (List.mem_cons_of_mem _ hd)) (by simp)

end Perfect

end EphemeralOS
