import EphemeralOS.Fs.Run
import EphemeralOS.Fs.Stable

/-!
# Names

Both creators look a path up before they make anything, so a name they enter is
free, with two exceptions. Missing parents come with entries `.` and `..` that
the lookup did not see; a path is `Plain` when it has no such component after a
missing one. And a directory in the way of `fs_create_file` is not deleted. The
calls that avoid both (`FsOp.plain`) keep the names of every directory unique
(`names_unique_and_found`).
-/

namespace EphemeralOS

open Path Directory Run

/-- `.` or `..`. -/
def IsDots (c : List UInt8) : Prop := c = ascii "." ∨ c = ascii ".."

instance (c : List UInt8) : Decidable (IsDots c) := inferInstanceAs (Decidable (_ ∨ _))

/-- What comes before a `.` or `..` is there. -/
def Plain (s : FsState) (cs : List (List UInt8)) : Prop :=
  ∀ ds c es, cs = ds ++ c :: es → IsDots c → s.resolve ds ≠ none

theorem Plain.left {s : FsState} {ds es : List (List UInt8)} (h : Plain s (ds ++ es)) :
    Plain s ds := fun as c bs he => h as c (bs ++ es) (by rw [he]; simp)

theorem Plain.last {s : FsState} {ds : List (List UInt8)} {c : List UInt8} (h : Plain s (ds ++ [c]))
    (hnone : s.resolve ds = none) : ¬ IsDots c := fun hc => h ds c [] rfl hc hnone

theorem plain_of_no_dots {s : FsState} {cs : List (List UInt8)} (h : ∀ c ∈ cs, ¬ IsDots c) :
    Plain s cs := fun _ c _ he hc => absurd hc (h c (by rw [he]; simp))

/-! ## Free names -/

theorem dotSlots_named {self parent : UInt32} {j : Fin 15} {c : List UInt8} {e : UInt32}
    (h : dotSlots self parent j = some (c, e)) : IsDots c := by
  unfold dotSlots at h
  split at h
  · cases h
    exact .inl rfl
  split at h
  · cases h
    exact .inr rfl
  · cases h

theorem dotSlots_unique (self parent : UInt32) : UniqueNames (dotSlots self parent) := by
  have hne : ascii "." ≠ ascii ".." := by decide
  intro j k c e e' hj hk
  unfold dotSlots at hj hk
  split at hj
  · cases hj
    split at hk
    · next hj0 hk0 => rw [hj0, hk0]
    split at hk
    · cases hk
    · cases hk
  split at hj
  · cases hj
    split at hk
    · cases hk
    split at hk
    · next hj1 _ hk1 => rw [hj1, hk1]
    · cases hk
  · cases hj

theorem lookup_fresh {s : FsState} {p parent : UInt32} {c : List UInt8}
    (hp : s.UsableDir p → s.slots p = dotSlots p parent) (hc : ¬ IsDots c) : s.lookup p c = none := by
  cases hl : s.lookup p c with
  | none => rfl
  | some e =>
    obtain ⟨-, hu, hf⟩ := Inv.lookup_some hl
    obtain ⟨j, hj⟩ := exists_slot_of_find hf
    rw [hp hu] at hj
    exact absurd (dotSlots_named hj) hc

/-- Only the new inode is found under a name that was free. -/
theorem Linked.eq_of_lookup {s s' : FsState} {n p e : UInt32} {name : List UInt8} {v : Inode}
    {bs : List UInt32} {i : Fin 15} (hI : Inv s) (L : Linked s s' n p name v bs i)
    (hfree : s.lookup p name = none) (h : s'.lookup p name = some e) : e = n := by
  obtain ⟨-, hu', hf⟩ := Inv.lookup_some h
  have hu : s.UsableDir p := (L.usable_iff.mp hu').resolve_left fun hn =>
    L.not_live (hn.1 ▸ L.parentDir.live)
  obtain ⟨j, hj⟩ := exists_slot_of_find hf
  rcases L.slot_cases hI hu hj with hold | ⟨-, -, -, he⟩
  · exact absurd hold (L.not_slot_of_free hI hu hfree j e)
  · exact he

section Free

variable {s s1 : FsState} {ds : List (List UInt8)} {c : List UInt8} {p : UInt32}

/-- The name is free in a parent that was there, and in one that is new. -/
theorem Mkdirs.lookup_none (M : Mkdirs s ds (some p) s1) (hP : Plain s (ds ++ [c]))
    (hnone : s.resolve (ds ++ [c]) = none)
    (hnew : s.resolve ds = none → ∃ parent, s1.UsableDir p → s1.slots p = dotSlots p parent) :
    s1.lookup p c = none := by
  cases hds : s.resolve ds with
  | some p' =>
    obtain ⟨hp, rfl⟩ := M.of_resolve hds
    cases hp
    rwa [resolve_concat, hds] at hnone
  | none =>
    obtain ⟨parent, hslots⟩ := hnew hds
    exact lookup_fresh hslots (hP.last hds)

/-- **A directory that a plain path was missing is new.** -/
theorem Mkdirs.fresh {cs : List (List UInt8)} {q : Option UInt32} (hI : Inv s)
    (M : Mkdirs s cs q s1) (hP : Plain s cs) (hnone : s.resolve cs = none) (hq : q = some p) :
    ∃ parent, s1.UsableDir p → s1.slots p = dotSlots p parent := by
  induction M generalizing p with
  | found h => exact absurd (hnone.symm.trans h) (by simp)
  | rejected | orphaned | refused => cases hq
  | @made ds c d n b i s1 s2 _ hname M hd hmade ih =>
    have hI1 := M.inv hI
    have L := hmade.isLinked hd hname
    have hfree := M.lookup_none hP hnone fun hds => ih hP.left hds rfl
    rw [resolve_concat, L.resolve_old hI1 hfree M.resolve] at hq
    obtain rfl := L.eq_of_lookup hI1 hfree hq
    exact ⟨d, fun _ => L.slots_new rfl⟩

theorem Mkdirs.name_free (hI : Inv s) (M : Mkdirs s ds (some p) s1) (hP : Plain s (ds ++ [c]))
    (hnone : s.resolve (ds ++ [c]) = none) : s1.lookup p c = none :=
  M.lookup_none hP hnone fun hds => M.fresh hI hP.left hds rfl

end Free

/-! ## Unique names -/

def NamesUnique (s : FsState) : Prop := ∀ d, s.UsableDir d → UniqueNames (s.slots d)

theorem Same.namesUnique {s s' : FsState} (hI : Inv s) (h : Same s s') (hU : NamesUnique s) :
    NamesUnique s' := by
  intro d hd
  have hd' := h.agree.usable_iff.mp hd
  rw [h.agree.slots hI hd']
  exact hU d hd'

theorem Linked.namesUnique {s s' : FsState} {n p : UInt32} {name : List UInt8} {v : Inode}
    {bs : List UInt32} {i : Fin 15} (hI : Inv s) (L : Linked s s' n p name v bs i)
    (hfree : s.lookup p name = none) (hU : NamesUnique s) : NamesUnique s' := by
  intro d hd
  rcases L.usable_iff.mp hd with ⟨rfl, hv⟩ | hd
  · rw [L.slots_new hv]
    exact dotSlots_unique d p
  · by_cases hdp : d = p
    · subst hdp
      rw [L.slots_parent hd]
      refine (UniqueNames.insert (hU d hd) ?_).remove 14
      rw [← hI.lookup_eq hd L.named.short, hfree]
    · rw [L.slots_ne hI hd hdp]
      exact hU d hd

theorem Removed.namesUnique {s s' : FsState} {f p : UInt32} {c : List UInt8} {j : Fin 15}
    (hI : Inv s) (R : Removed s s' f p c j) (hU : NamesUnique s) : NamesUnique s' := by
  intro d hd
  have hd' := R.usable_iff.mp hd
  intro k l a e e' hk hl
  exact hU d hd' k l a e e' ((R.slot_iff hI hd').mp hk).1 ((R.slot_iff hI hd').mp hl).1

theorem Mkdirs.namesUnique {s s' : FsState} {cs : List (List UInt8)} {q : Option UInt32}
    (hI : Inv s) (M : Mkdirs s cs q s') (hP : Plain s cs) (hU : NamesUnique s) : NamesUnique s' := by
  induction M with
  | found | rejected => exact hU
  | orphaned _ _ _ _ ih => exact ih hP.left
  | refused _ _ M hsame _ ih => exact hsame.namesUnique (M.inv hI) (ih hP.left)
  | made hnone hname M hd hmade ih =>
    exact (hmade.isLinked hd hname).namesUnique (M.inv hI) (M.name_free hI hP hnone) (ih hP.left)

/-- The name of a file is free when it is made, unless a directory has it. -/
theorem Cleared.lookup_none {s s1 : FsState} {p : UInt32} {c : List UInt8} (hI : Inv s)
    (hU : NamesUnique s) (hnot : ∀ e, s.lookup p c = some e → ¬ s.IsDir e) (C : Cleared s p c s1) :
    s1.lookup p c = none := by
  cases C with
  | kept h =>
    cases hl : s.lookup p c with
    | none => rfl
    | some e => exact absurd (h e hl) (hnot e hl)
  | @deleted _ f j hf R =>
    obtain ⟨hc, hu, hfind⟩ := Inv.lookup_some hf
    rw [(R.inv hI).lookup_eq (R.usable_iff.mpr hu) hc, find_eq_none_iff]
    intro k e hk
    obtain ⟨hks, hkj⟩ := (R.slot_iff hI hu).mp hk
    -- the one slot of that name was emptied
    obtain ⟨j', hj'⟩ := exists_slot_of_find hfind
    obtain ⟨-, rfl⟩ := hI.slot_file_unique hu hu R.file hj' R.slot
    exact hkj ⟨rfl, hU p hu k j' c e f hks hj'⟩

theorem Making.namesUnique {s s' : FsState} {p : UInt32} {c : List UInt8} {data : Memory}
    {size : UInt32} {r : Int} (hI : Inv s) (M : Making s p c data size r s')
    (hfree : s.lookup p c = none) (hU : NamesUnique s) : NamesUnique s' := by
  cases M with
  | failed hsame => exact hsame.namesUnique hI hU
  | made _ L => exact L.namesUnique hI hfree hU

theorem Cleared.namesUnique {s s' : FsState} {p : UInt32} {c : List UInt8} (hI : Inv s)
    (C : Cleared s p c s') (hU : NamesUnique s) : NamesUnique s' := by
  cases C with
  | deleted _ R => exact R.namesUnique hI hU
  | kept => exact hU

/-! ## Calls and installations -/

/-- The calls that enter only names that are free. -/
def FsOp.plain : FsOp → FsState → Prop
  | .createDir path, s => Plain s (comps path)
  | .createFile path _ _, s => Plain s (comps path) ∧ ¬ s.IsDir (findInodeByPath path s).1
  | .deleteFile _, _ => True

/-- What the name of a new file leads to is no directory, when the parent was there and when it is
new. -/
theorem Mkdirs.not_isDir_of_lookup {s s1 : FsState} (hI : Inv s) {ds : List (List UInt8)}
    {c : List UInt8} {p : UInt32} (M : Mkdirs s ds (some p) s1) (hP : Plain s (ds ++ [c]))
    (hnot : ¬ s.IsDir ((s.resolve (ds ++ [c])).getD noNumber)) {e : UInt32}
    (he : s1.lookup p c = some e) : ¬ s1.IsDir e := by
  cases hres : s.resolve (ds ++ [c]) with
  | none =>
    rw [M.name_free hI hP hres] at he
    cases he
  | some e' =>
    rw [hres, Option.getD_some] at hnot
    rw [resolve_concat] at hres
    obtain ⟨p', hp', hl⟩ := Option.bind_eq_some_iff.mp hres
    obtain ⟨hpp, rfl⟩ := M.of_resolve hp'
    cases hpp
    cases hl.symm.trans he
    exact hnot

theorem fsCreateFile_namesUnique {s : FsState} (hI : Inv s) (hU : NamesUnique s) (path : CStr)
    (data : Memory) (size : UInt32) (hP : Plain s (comps path))
    (hnot : ¬ s.IsDir (findInodeByPath path s).1) :
    NamesUnique (fsCreateFile path data size s).2 := by
  rcases fsCreateFile_cases hI path.comps_noNul data size with
    ⟨hrun, -⟩ | ⟨ds, c, q, s1, hpath, hc, hsize, M, -, ⟨rfl, hrun⟩ | ⟨p, rfl, hrun⟩⟩
  · rw [hrun]
    exact hU
  · rw [hrun]
    exact M.namesUnique hI (hpath ▸ hP).left hU
  have hI1 := M.inv hI
  have hU1 := M.namesUnique hI (hpath ▸ hP).left hU
  rcases replaceFile_cases hI1 hpath hc M.resolve data hsize with
    ⟨-, hrun'⟩ | ⟨-, s2, r, s', C, hM, hrun'⟩
  · rw [hrun, hrun']
    exact hU1
  rw [hrun, hrun']
  rw [findInodeByPath_eq hI.perfect, hpath] at hnot
  exact hM.namesUnique (C.inv hI1) (C.lookup_none hI1 hU1 fun e he =>
    M.not_isDir_of_lookup hI (hpath ▸ hP) hnot he) (C.namesUnique hI1 hU1)

theorem FsOp.namesUnique {s : FsState} (hI : Inv s) (hU : NamesUnique s) (op : FsOp)
    (hop : op.plain s) : NamesUnique (op.step s) := by
  cases op with
  | createDir path =>
    obtain ⟨r, q, s', hrun, M, -⟩ := fsCreateDir_mkdirs hI path.comps_noNul
    rw [FsOp.step_createDir, hrun]
    exact M.namesUnique hI hop hU
  | createFile path data size => exact fsCreateFile_namesUnique hI hU path data size hop.1 hop.2
  | deleteFile path =>
    show NamesUnique (fsDeleteFile path s).2
    rcases fsDeleteFile_cases hI path with hrun | ⟨s', f, p, c, j, hrun, -, R⟩
    · rw [hrun]
      exact hU
    · rw [hrun]
      exact R.namesUnique hI hU

def PlainDirs : List (List UInt8) → FsState → Prop
  | [], _ => True
  | path :: paths, s => Plain s (comps path) ∧ PlainDirs paths (fsCreateDir path s).2

def PlainlyInstalled (s : FsState) : Prop :=
  ∃ (hostname username password : CStr) (t : FsState), t.disk.Perfect ∧
    PlainDirs (installDirs username) (installRoot hostname username password t) ∧
    s = fsInstall hostname username password t

theorem PlainlyInstalled.installed {s : FsState} (h : PlainlyInstalled s) : Installed s := by
  obtain ⟨hostname, username, password, t, ht, -, hs⟩ := h
  exact ⟨hostname, username, password, t, ht, hs⟩

theorem createDirs_namesUnique {s : FsState} (hI : Inv s) {paths : List (List UInt8)}
    (h0 : ∀ path ∈ paths, ∀ c ∈ comps path, 0 ∉ c) (hP : PlainDirs paths s) (hU : NamesUnique s) :
    Inv (createDirs paths s) ∧ NamesUnique (createDirs paths s) := by
  induction paths generalizing s with
  | nil => exact ⟨hI, hU⟩
  | cons path paths ih =>
    obtain ⟨hplain, hP⟩ := hP
    obtain ⟨r, q, s', hrun, M, -⟩ := fsCreateDir_mkdirs hI (h0 path List.mem_cons_self)
    rw [createDirs]
    rw [hrun] at hP ⊢
    exact ih (M.inv hI) (fun p hp => h0 p (List.mem_cons_of_mem _ hp)) hP
      (M.namesUnique hI hplain hU)

theorem Fresh.namesUnique {s : FsState} (F : Fresh s) : NamesUnique s := by
  intro d hd
  obtain rfl := F.usable_iff.mp hd
  rw [F.slots]
  refine (dotSlots_unique 0 0).insert (find_eq_none_iff.mpr fun j e hj => ?_)
  rcases dotSlots_named hj with h | h <;> exact absurd h (by decide)

theorem PlainlyInstalled.namesUnique {s : FsState} (h : PlainlyInstalled s) : NamesUnique s := by
  obtain ⟨hostname, username, password, t, ht, hP, hs⟩ := h
  obtain ⟨s0, F, -, hrun⟩ := install_bin hostname username password ht
  rw [installDirs_cons] at hP
  replace hP := hP.2
  rw [hrun] at hP
  obtain ⟨hI1, hU1⟩ := createDirs_namesUnique F.inv (fun path hp =>
    installDirs_noNul username path (List.mem_of_mem_tail hp)) hP F.namesUnique
  have hagree := sync_agree (createDirs (installDirs username).tail s0)
  rw [← hs.trans (fsInstall_eq hrun)] at hagree
  intro d hd
  have hd' := hagree.usable_iff.mp hd
  rw [hagree.slots hI1 hd']
  exact hU1 d hd'

/-- The names that entries hold can be components of a path. -/
theorem Inv.slot_name {s : FsState} (hI : Inv s) {d : UInt32} (hd : s.UsableDir d) {j : Fin 15}
    {c : List UInt8} {e : UInt32} (h : s.slots d j = some (c, e)) :
    Segment slash c ∧ c.length < fsMaxFilename := by
  have hE := hI.entries d hd
  rcases lt_or_ge j 2 with hj | hj
  · have hcases : j = 0 ∨ j = 1 := by omega
    rcases hcases with rfl | rfl
    · rw [hE.dot] at h
      cases h
      exact ⟨by constructor <;> decide, by decide⟩
    · rw [hE.dotdot] at h
      cases h
      exact ⟨by constructor <;> decide, by decide⟩
  · have hname := (hE.entry j c e hj h).1
    exact ⟨hname.segment, hname.short⟩

/-- The path of an entry leads to what the entry does, when names are unique. -/
theorem NamesUnique.find_entry {s : FsState} (hI : Inv s) (hU : NamesUnique s) {path : List UInt8}
    {d : UInt32} (hd : (findInodeByPath path s).1 = d) (hu : s.UsableDir d) {j : Fin 15}
    {c : List UInt8} {e : UInt32} (hj : s.slots d j = some (c, e)) :
    (findInodeByPath (path ++ slash :: c) s).1 = e := by
  obtain ⟨hseg, hshort⟩ := hI.slot_name hu hj
  rw [findInodeByPath_eq hI.perfect] at hd ⊢
  rw [show comps (path ++ slash :: c) = comps path ++ [c] from components_snoc hseg, resolve_concat]
  cases hres : s.resolve (comps path) with
  | none =>
    rw [hres] at hd
    obtain rfl : noNumber = d := hd
    exact absurd hu.1 noNumber_not_lt
  | some d' =>
    rw [hres] at hd
    have hd : d' = d := hd
    subst hd
    rw [Option.bind_some, hI.lookup_eq hu hshort, find_of_unique (hU _ hu) hj]
    rfl

/-- **As long as only free names are entered, the names of every directory are unique, and every
entry is found.** -/
theorem names_unique_and_found {s : FsState} (h : Reached PlainlyInstalled FsOp.step FsOp.plain s) :
    NamesUnique s ∧ ∀ path d j c e, (findInodeByPath path s).1 = d → s.UsableDir d →
      s.slots d j = some (c, e) → (findInodeByPath (path ++ slash :: c) s).1 = e := by
  obtain ⟨hS, hU⟩ := h.invariant (P := fun t => Sound t ∧ NamesUnique t)
    (fun t ht => ⟨ht.installed.sound.1, ht.namesUnique⟩)
    fun t op ht hop => ⟨ht.1.step op, op.namesUnique ht.1.inv ht.2 hop⟩
  exact ⟨hU, fun path d j c e hd hu hj => hU.find_entry hS.inv hd hu hj⟩

theorem plainDirs_of_no_dots {s : FsState} {paths : List (List UInt8)}
    (h : ∀ path ∈ paths, ∀ c ∈ comps path, ¬ IsDots c) : PlainDirs paths s := by
  induction paths generalizing s with
  | nil => trivial
  | cons path paths ih =>
    exact ⟨plain_of_no_dots (h path List.mem_cons_self), ih fun p hp => h p (List.mem_cons_of_mem _ hp)⟩

theorem sampleInstall_plain : PlainlyInstalled sampleInstall := by
  refine ⟨sampleHostname, sampleUsername, samplePassword, blankState, rfl,
    plainDirs_of_no_dots ?_, rfl⟩
  show ∀ path ∈ installDirs (ascii "user"), ∀ c ∈ comps path, ¬ IsDots c
  decide +kernel

theorem sampleFile_plain (size : UInt32) :
    (FsOp.createFile samplePath sampleData size).plain sampleInstall := by
  have hI := sampleInstall_inv
  have hfree : sampleInstall.resolve (comps samplePath) = none := by
    rw [comps_samplePath, resolve_concat, resolve_nil, Option.bind_some, hI.shape.root,
      sampleInstall_lookup_a]
  refine ⟨plain_of_no_dots (by decide +kernel), ?_⟩
  rw [findInodeByPath_eq hI.perfect, hfree]
  exact fun hd => noNumber_not_lt hd.1

theorem sampleInstall_names_unique : NamesUnique sampleInstall ∧
    ∀ path d j c e, (findInodeByPath path sampleInstall).1 = d → sampleInstall.UsableDir d →
      sampleInstall.slots d j = some (c, e) →
        (findInodeByPath (path ++ slash :: c) sampleInstall).1 = e :=
  names_unique_and_found (.start sampleInstall_plain)

def FsOp.short : FsOp → FsState → Prop
  | .createDir path, _ | .createFile path _ _, _ | .deleteFile path, _ =>
    (splitPath path).2.length ≤ 27

/-- A file written to `/home` is entered next to the directory. -/
theorem home_entered_twice : ¬ ∀ s, ReachableBy FsOp.short s → NamesUnique s := by
  intro hall
  have hI := sampleInstall_inv
  have hu := hI.usable_root
  let path : CStr := ⟨ascii "/home", by decide +kernel⟩
  have hslot : sampleInstall.slots 0 3 = some (ascii "home", 2) := by rw [sampleInstall_slots]; rfl
  have hlookup : sampleInstall.lookup 0 (ascii "home") = some 2 := by
    rw [sampleInstall_lookup (by decide +kernel)]
    decide +kernel
  obtain ⟨s1, r, s', C, M, hrun⟩ := fsCreateFile_at hI path.comps_noNul
    (show comps (ascii "/home") = [] ++ [ascii "home"] by decide +kernel) (by decide +kernel)
    (congrArg some hI.shape.root) hI.shape.rootDir.1 sampleData (UInt32.zero_le)
  have hreach : ReachableBy FsOp.short s' := by
    have hshort : (FsOp.createFile path sampleData 0).short sampleInstall :=
      show (splitPath (ascii "/home")).2.length ≤ 27 by decide +kernel
    have := sampleInstall_reachable.next hshort
    rwa [FsOp.step_createFile, hrun] at this
  cases C with
  | deleted hf R =>
    rw [hlookup] at hf
    cases hf
    exact sampleInstall_installed.not_isFile 2 R.file
  | kept =>
    cases M with
    | failed _ hroom =>
      rcases hroom with h | h
      · have := sampleInstall_freeNumbers
        rw [h] at this
        cases this
      · exact absurd h (Nat.not_lt_zero _)
    | @made _ n bs i M L =>
      have hi : i ≤ 7 := M.slot_le (by rw [sampleInstall_slots]; rfl)
      have hold := L.slot_old hI hu hslot
      have hnew : s'.slots 0 i = some (ascii "home", n) := by
        rw [L.slots_parent hu, Function.update_of_ne (by rintro rfl; exact absurd hi (by decide)),
          Function.update_self]
      have heq := hall s' hreach 0 (L.usable_iff.mpr (.inr hu)) 3 i _ _ _ hold hnew
      rw [← heq] at L
      have := L.empty
      rw [hslot] at this
      cases this

end EphemeralOS
