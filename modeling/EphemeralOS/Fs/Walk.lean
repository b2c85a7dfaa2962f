import EphemeralOS.Fs.Faults
import EphemeralOS.Fs.Run

/-!
# Path resolution, component by component

What a path means: its components are what stands between the slashes, and
`find_inode_by_path` follows them from the root, one directory entry each, until
it meets an obstacle (`path_resolution`). Every step reads a block from the disk,
so step `k` sees the directory as the `k`-th read delivers it.
-/

namespace EphemeralOS

open Path Directory

def pathComponents (path : List UInt8) : List (List UInt8) :=
  (path.splitOn slash).filter (· ≠ [])

/-- `'/'`, followed by the components joined by `'/'`. -/
def absolutePath (cs : List (List UInt8)) : List UInt8 := slash :: [slash].intercalate cs

theorem comps_eq_pathComponents (path : List UInt8) : comps path = pathComponents path :=
  components_eq_splitOn slash path

theorem canon_eq_absolutePath (cs : List (List UInt8)) : canon slash cs = absolutePath cs :=
  canon_eq_intercalate slash cs

theorem normalizePath_normalizePath (path : List UInt8) :
    normalizePath (normalizePath path) = normalizePath path := by
  rw [normalizePath_eq path, normalizePath_eq, comps,
    components_canon (components_segment slash path)]

theorem splitPath_eq (path : List UInt8) : splitPath path =
    (canon slash (comps path).dropLast, (comps path).getLastD []) := by
  rcases List.eq_nil_or_concat (comps path) with h | ⟨cs, c, h⟩
  · rw [splitPath_root h, h]
    rfl
  · rw [List.concat_eq_append] at h
    rw [splitPath_concat h, h, List.dropLast_concat, List.getLastD_concat]

/-- The first entry in use of the name `c` is that of `n`. -/
def FirstEntry (b : DirBlock) (c : List UInt8) (n : UInt32) : Prop :=
  ∃ i, ((b i).inUse = 1 ∧ (b i).name.cstr = c) ∧ (b i).inode = n ∧
    ∀ j < i, ¬ ((b j).inUse = 1 ∧ (b j).name.cstr = c)

namespace FsState

variable (s : FsState)

/-- The state after `k` more reads. -/
def afterReads (k : Nat) : FsState := s.withFaults (s.disk.faults.drop k)

/-- The block of directory `d`, as the `k`-th read delivers it: zeros when that read fails. -/
def blockRead (k : Nat) (d : UInt32) : DirBlock :=
  (s.afterReads k).dirRead ((s.inodeTable d).blocks 0)

/-- What keeps the walk from going on from `d` to the component `c`. -/
inductive Obstacle (k : Nat) (d : UInt32) (c : List UInt8) : Prop
  | tooLong : 28 ≤ c.length → Obstacle k d c
  | notDir : ¬ (d < fsMaxInodes ∧ (s.inodeTable d).type = inodeTypeDir) → Obstacle k d c
  | badBlock : ¬ ValidBlock ((s.inodeTable d).blocks 0) → Obstacle k d c
  | noEntry : (∀ i, ¬ ((s.blockRead k d i).inUse = 1 ∧ (s.blockRead k d i).name.cstr = c)) →
      Obstacle k d c

/-- The walk along the components, from inode `d` and the `k`-th read on, ends at `e`. -/
inductive Leads : Nat → UInt32 → List (List UInt8) → UInt32 → Prop
  | here (k : Nat) (d : UInt32) : Leads k d [] d
  | step {k : Nat} {d n e : UInt32} {c : List UInt8} {cs : List (List UInt8)} :
      ¬ s.Obstacle k d c → FirstEntry (s.blockRead k d) c n → Leads (k + 1) n cs e →
      Leads k d (c :: cs) e

def Blocked (k : Nat) (d : UInt32) (cs : List (List UInt8)) : Prop :=
  ∃ before c after e, cs = before ++ c :: after ∧ s.Leads k d before e ∧
    s.Obstacle (k + before.length) e c

/-! ## The walk as a function -/

def stepTo (k : Nat) (d : UInt32) (c : List UInt8) : Option UInt32 :=
  if c.length < fsMaxFilename ∧ s.UsableDir d then
    (firstSlot (s.blockRead k d) fun e => e.inUse = 1 ∧ e.name.cstr = c).map
      fun i => (s.blockRead k d i).inode
  else none

def walkReads : Nat → UInt32 → List (List UInt8) → Option UInt32
  | _, d, [] => some d
  | k, d, c :: cs => (s.stepTo k d c).bind fun n => walkReads (k + 1) n cs

variable {s} {k : Nat} {d : UInt32} {c : List UInt8}

theorem stepTo_eq_none_iff : s.stepTo k d c = none ↔ s.Obstacle k d c := by
  unfold stepTo
  constructor
  · intro h
    by_cases hlen : 28 ≤ c.length
    · exact .tooLong hlen
    by_cases hdir : d < fsMaxInodes ∧ (s.inodeTable d).type = inodeTypeDir
    · by_cases hblock : ValidBlock ((s.inodeTable d).blocks 0)
      · rw [if_pos ⟨Nat.not_le.mp hlen, hdir.1, hdir.2, hblock⟩, Option.map_eq_none_iff] at h
        exact .noEntry fun i => of_decide_eq_false (first_eq_none_iff.mp h i)
      · exact .badBlock hblock
    · exact .notDir hdir
  · intro h
    cases h with
    | tooLong h => exact if_neg fun hc => absurd hc.1 (Nat.not_lt.mpr h)
    | notDir h => exact if_neg fun hc => h ⟨hc.2.1, hc.2.2.1⟩
    | badBlock h => exact if_neg fun hc => h hc.2.2.2
    | noEntry h =>
      split
      · rw [Option.map_eq_none_iff]
        exact first_eq_none_iff.mpr fun i => decide_eq_false (h i)
      · rfl

theorem stepTo_eq_some_iff {n : UInt32} :
    s.stepTo k d c = some n ↔ ¬ s.Obstacle k d c ∧ FirstEntry (s.blockRead k d) c n := by
  rw [← stepTo_eq_none_iff]
  unfold stepTo
  split
  · simp only [Option.map_eq_some_iff, Option.map_eq_none_iff]
    constructor
    · rintro ⟨i, hi, hn⟩
      obtain ⟨hp, hlt⟩ := first_eq_some_iff.mp hi
      refine ⟨fun h => ?_, i, of_decide_eq_true hp, hn, fun j hj => of_decide_eq_false (hlt j hj)⟩
      rw [hi] at h
      cases h
    · rintro ⟨-, i, hp, hn, hlt⟩
      exact ⟨i, first_eq_some_iff.mpr
        ⟨decide_eq_true hp, fun j hj => decide_eq_false (hlt j hj)⟩, hn⟩
  · exact ⟨fun h => (nomatch h), fun h => absurd rfl h.1⟩

theorem leads_iff {cs : List (List UInt8)} {e : UInt32} :
    s.Leads k d cs e ↔ s.walkReads k d cs = some e := by
  induction cs generalizing k d with
  | nil =>
    rw [walkReads, Option.some.injEq]
    constructor
    · rintro ⟨⟩
      rfl
    · rintro rfl
      exact .here k d
  | cons c cs ih =>
    simp only [walkReads, Option.bind_eq_some_iff, ← ih, stepTo_eq_some_iff]
    constructor
    · rintro ⟨⟩
      next n hfree hentry hrest => exact ⟨n, ⟨hfree, hentry⟩, hrest⟩
    · rintro ⟨n, ⟨hfree, hentry⟩, hrest⟩
      exact .step hfree hentry hrest

theorem blocked_iff {cs : List (List UInt8)} : s.Blocked k d cs ↔ s.walkReads k d cs = none := by
  induction cs generalizing k d with
  | nil =>
    refine ⟨?_, fun h => nomatch h⟩
    rintro ⟨before, c, after, e, h, -⟩
    exact absurd h.symm (by simp)
  | cons c cs ih =>
    rw [walkReads]
    cases hstep : s.stepTo k d c with
    | none => exact ⟨fun _ => rfl, fun _ => ⟨[], c, cs, d, rfl, .here k d,
        stepTo_eq_none_iff.mp hstep⟩⟩
    | some n =>
      rw [Option.bind_some, ← ih]
      have hfree := stepTo_eq_some_iff.mp hstep
      constructor
      · rintro ⟨before, c', after, e, heq, hleads, hobs⟩
        cases before with
        | nil =>
          cases hleads
          cases heq
          exact absurd hobs hfree.1
        | cons b before =>
          rw [List.cons_append, List.cons.injEq] at heq
          obtain ⟨rfl, heq⟩ := heq
          rw [leads_iff, walkReads, hstep, Option.bind_some, ← leads_iff] at hleads
          rw [List.length_cons, show k + (before.length + 1) = k + 1 + before.length by omega]
            at hobs
          exact ⟨before, c', after, e, heq, hleads, hobs⟩
      · rintro ⟨before, c', after, e, heq, hleads, hobs⟩
        refine ⟨c :: before, c', after, e, by rw [heq]; rfl, .step hfree.1 hfree.2 hleads, ?_⟩
        rwa [List.length_cons, show k + (before.length + 1) = k + 1 + before.length by omega]

theorem stepTo_noNumber : s.stepTo k noNumber c = none :=
  if_neg fun h => absurd h.2.1 (by decide)

theorem walkReads_short {cs : List (List UInt8)} {e : UInt32} (h : s.walkReads k d cs = some e) :
    ∀ c ∈ cs, c.length < fsMaxFilename := by
  induction cs generalizing k d with
  | nil => exact fun c hc => nomatch hc
  | cons c cs ih =>
    obtain ⟨n, hstep, hrest⟩ := Option.bind_eq_some_iff.mp h
    have hc : c.length < fsMaxFilename := by
      unfold stepTo at hstep
      split at hstep
      · next hu => exact hu.1
      · cases hstep
    rintro c' (_ | ⟨_, hc'⟩)
    · exact hc
    · exact ih hrest c' hc'

end FsState

/-! ## `find_inode_by_path` -/

section Find

open FsState

variable (s : FsState)

theorem readDirBlock_afterReads {block : UInt32} (hv : ValidBlock block) (k : Nat) :
    readDirBlock block (s.afterReads k) = ((s.afterReads k).dirRead block, s.afterReads (k + 1)) := by
  have htail : (s.disk.faults.drop k).tail = s.disk.faults.drop (k + 1) := List.tail_drop
  unfold readDirBlock readInodeBlock dirRead afterReads
  simp only [if_neg (validBlock_iff_not.mp hv), hv, true_and, ← htail]
  generalize s.disk.faults.drop k = fs
  rcases fs with _ | ⟨_ | _, fs⟩ <;> rfl

theorem findComponent_afterReads (k : Nat) (d : UInt32) (c : List UInt8) :
    ∃ k', findComponent d c (s.afterReads k) =
      ((s.stepTo k d c).getD noNumber, s.afterReads k') ∧ (s.stepTo k d c ≠ none → k' = k + 1) := by
  unfold stepTo
  by_cases hu : c.length < fsMaxFilename ∧ s.UsableDir d
  · have hafter : c.length < fsMaxFilename ∧ (s.afterReads k).UsableDir d := hu
    rw [if_pos hu]
    exact ⟨k + 1, findComponent_read hafter (readDirBlock_afterReads s hu.2.2.2 k), fun _ => rfl⟩
  · have hafter : ¬ (c.length < fsMaxFilename ∧ (s.afterReads k).UsableDir d) := hu
    rw [if_neg hu]
    exact ⟨k, findComponent_refused hafter, fun h => absurd rfl h⟩

theorem findLoop_afterReads :
    ∀ (rounds : Nat) (c : List UInt8) (cs : List (List UInt8)) (k : Nat) (d : UInt32),
      Segment slash c → (∀ x ∈ cs, Segment slash x) → (c ++ joined slash cs).length ≤ rounds →
      (findLoop rounds (c ++ joined slash cs) d (s.afterReads k)).1 =
        (s.walkReads k d (c :: cs)).getD noNumber
  | 0, c, cs, k, d, hc, _, hlen => by
    have := List.length_pos_of_ne_nil hc.1
    rw [List.length_append] at hlen
    omega
  | rounds + 1, c, [], k, d, hc, _, _ => by
    obtain ⟨k', hfind, -⟩ := findComponent_afterReads s k d c
    rw [findLoop_last hc, hfind, walkReads]
    cases s.stepTo k d c <;> rfl
  | rounds + 1, c, c' :: cs, k, d, hc, hcs, hlen => by
    have hc' := hcs c' List.mem_cons_self
    obtain ⟨k', hfind, hk'⟩ := findComponent_afterReads s k d c
    rw [findLoop_next hc hc', FsM.bind_eq hfind, walkReads]
    cases hstep : s.stepTo k d c with
    | none => rfl
    | some found =>
      rw [hk' (by rw [hstep]; exact Option.some_ne_none found), Option.getD_some, Option.bind_some]
      by_cases hno : found = noNumber
      · rw [if_pos hno, hno, walkReads, stepTo_noNumber]
        rfl
      · have hlen' : (c' ++ joined slash cs).length ≤ rounds := by
          simp only [joined_cons, List.length_append, List.length_cons] at hlen ⊢
          omega
        rw [if_neg hno]
        exact findLoop_afterReads rounds c' cs (k + 1) found hc'
          (fun x hx => hcs x (List.mem_cons_of_mem _ hx)) hlen'

/-- **`find_inode_by_path` is the walk along the components**, in any state and whichever reads
fail. -/
theorem findInodeByPath_walks (path : List UInt8) : (findInodeByPath path s).1 =
    (s.walkReads 0 s.superblock.rootInode (comps path)).getD noNumber := by
  have hseg : ∀ c ∈ comps path, Segment slash c := components_segment slash path
  cases hcs : comps path with
  | nil =>
    simp only [findInodeByPath, FsM.bind_gets, normalizePath_eq, hcs]
    rfl
  | cons c cs =>
    rw [hcs] at hseg
    have hc := hseg c List.mem_cons_self
    rw [findInodeByPath_cons hc hcs]
    exact findLoop_afterReads s _ c cs 0 _ hc (fun x hx => hseg x (List.mem_cons_of_mem _ hx))
      (by simp)

theorem comps_short_of_find {path : List UInt8} (h : (findInodeByPath path s).1 ≠ noNumber) :
    ∀ c ∈ comps path, c.length < fsMaxFilename := by
  rw [findInodeByPath_walks] at h
  cases hwalk : s.walkReads 0 s.superblock.rootInode (comps path) with
  | none => rw [hwalk] at h; exact absurd rfl h
  | some e => exact walkReads_short hwalk

/-- **Path resolution is component-wise**: the normal form, its two parts, and the walk. No number
is returned exactly if the walk meets an obstacle, or ends at the number that stands for none. -/
theorem path_resolution (path : List UInt8) :
    normalizePath path = absolutePath (pathComponents path) ∧
      normalizePath (normalizePath path) = normalizePath path ∧
      splitPath path =
        (absolutePath (pathComponents path).dropLast, (pathComponents path).getLastD []) ∧
      (∀ e, s.Leads 0 s.superblock.rootInode (pathComponents path) e →
        (findInodeByPath path s).1 = e) ∧
      ((findInodeByPath path s).1 = noNumber ↔
        s.Blocked 0 s.superblock.rootInode (pathComponents path) ∨
          s.Leads 0 s.superblock.rootInode (pathComponents path) noNumber) := by
  rw [← comps_eq_pathComponents]
  refine ⟨?_, normalizePath_normalizePath path, ?_, fun e he => ?_, ?_⟩
  · rw [normalizePath_eq, canon_eq_absolutePath]
  · rw [splitPath_eq, canon_eq_absolutePath]
  · rw [findInodeByPath_walks, leads_iff.mp he, Option.getD_some]
  · rw [findInodeByPath_walks, blocked_iff, leads_iff]
    cases s.walkReads 0 s.superblock.rootInode (comps path) with
    | none => exact ⟨fun _ => .inl rfl, fun _ => rfl⟩
    | some e => rw [Option.getD_some, Option.some.injEq]; simp

end Find

/-- A superblock can name that number as the root: then `/` resolves to it without a step. -/
theorem find_noNumber_unblocked :
    ¬ ∀ (s : FsState) (path : List UInt8), (findInodeByPath path s).1 = noNumber ↔
      s.Blocked 0 s.superblock.rootInode (pathComponents path) := by
  intro h
  have hfind := (h { blankState with
    superblock := { blankState.superblock with rootInode := noNumber } } [slash]).mp rfl
  rw [FsState.blocked_iff] at hfind
  cases hfind

end EphemeralOS
