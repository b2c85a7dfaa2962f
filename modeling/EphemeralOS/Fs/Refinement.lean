import EphemeralOS.Fs.Reboot
import EphemeralOS.Fs.TreeCalls
import EphemeralOS.Lib.Simulation

/-!
# The file system refines the tree

Every run of plain calls, of the readers and of reboots answers as the tree
does, and leaves the state whose tree the calls on the tree leave
(`file_system_refines_tree`). Plain are the calls that put no `.` or `..` behind
what is not there yet and write no file over a directory (`TreeCall.plain`);
others may enter a name twice, which no tree has.
-/

namespace EphemeralOS

open Path Directory Run

section Readers

variable {s : FsState} (hI : Inv s)
include hI

theorem look_eq_some {path : List FileName} {i : UInt32} (h : s.resolve path = some i) :
    s.tree.look path = some (s.nodeOf i) := by
  rw [hI.look_eq, h]
  rfl

theorem fsDirExists_tree (path : List UInt8) :
    s.tree.dirExists (comps path) = (fsDirExists path s).1 := by
  rw [Bool.eq_iff_iff, fsDirExists_iff hI.perfect, findInodeByPath_eq hI.perfect,
    Tree.dirExists_iff]
  cases hr : s.resolve (comps path) with
  | none =>
    rw [hI.look_eq, hr]
    exact iff_of_false (by simp) fun h => noNumber_not_lt h.1
  | some i =>
    rw [look_eq_some hI hr]
    simp only [Option.some.injEq, exists_eq_left', Option.getD_some]
    exact nodeOf_isDirectory_iff hI (hI.resolve_live hr)

theorem fsFileExists_tree (path : List UInt8) :
    s.tree.fileExists (comps path) = (fsFileExists path s).1 := by
  rw [Bool.eq_iff_iff, fsFileExists_iff hI.perfect, findInodeByPath_eq hI.perfect,
    Tree.fileExists_iff]
  cases hr : s.resolve (comps path) with
  | none =>
    rw [hI.look_eq, hr]
    exact iff_of_false (by simp) fun h => noNumber_not_lt h.1
  | some i =>
    rw [look_eq_some hI hr]
    simp only [Option.some.injEq, exists_eq_left', Option.getD_some]
    rw [nodeOf_isDirectory_iff hI (hI.resolve_live hr)]
    exact ⟨(hI.shape.types i (hI.resolve_live hr)).resolve_right, fun h => h.not_isDir⟩

theorem fsReadFile_tree (path : List UInt8) (buffer : Memory) (maxSize : UInt32) :
    s.tree.readFile (comps path) buffer maxSize.toNat = (fsReadFile path buffer maxSize s).1 := by
  unfold Tree.readFile
  by_cases hfile : ∃ i, s.resolve (comps path) = some i ∧ s.IsFile i
  case neg =>
    rw [fsReadFile_fails hI fun i hr hf => hfile ⟨i, hr, hf⟩, hI.look_eq]
    cases hr : s.resolve (comps path) with
    | none => rfl
    | some i =>
      rw [Option.map_some]
      split
      · next hn =>
        exact absurd ⟨i, hr, isFile_of_nodeOf hI (hI.resolve_live hr) (Option.some.inj hn)⟩ hfile
      · rfl
  obtain ⟨i, hr, hf⟩ := hfile
  rw [look_eq_some hI hr, nodeOf_file hf, fsReadFile_file hI hr hf]
  unfold FsState.fileContent FsState.content
  simp only
  rw [toInt_size (hI.files i hf).1]
  congr 1
  funext a
  rw [store_apply, ← List.map_take, List.length_map, List.length_take, List.length_range]
  by_cases ha : a < min (min (s.inodeTable i).size.toNat maxSize.toNat) (12 * 512)
  · rw [if_pos (by omega), if_pos ha, Nat.sub_zero, List.getD_eq_getElem _ _ (by simp; omega)]
    simp
  · rw [if_neg (by omega), if_neg ha]

/-! ## Listings -/

def FsState.entryOrder (s : FsState) (d : UInt32) : List FileName :=
  ((List.finRange 15).filter fun j => 2 ≤ j ∧ s.slots d j ≠ none).map (s.slotName d)

variable (hU : NamesUnique s) {pos : List FileName} {d : UInt32} (hp : PlaceOf s pos d)
  (hu : s.UsableDir d)

omit hI in
theorem mem_entrySlots {j : Fin 15} :
    j ∈ s.entrySlots d ↔ 2 ≤ j ∧ s.slots d j ≠ none := by simp [FsState.entrySlots]

include hU hp hu

theorem entryOrder_names (c : FileName) : c ∈ s.entryOrder d ↔ c ∈ s.tree.names pos := by
  rw [names_eq hI hU hu hp]
  simp only [FsState.entryOrder, List.mem_map, List.mem_filter, List.mem_finRange, true_and,
    decide_eq_true_eq, Set.mem_image, Finset.mem_coe, mem_entrySlots]

omit hI hp in
theorem nodup_entryOrder : (s.entryOrder d).Nodup := by
  refine List.Nodup.map_on (fun j hj k hk hjk => ?_) ((List.nodup_finRange 15).filter _)
  have hj' := (of_decide_eq_true (List.mem_filter.mp hj).2).2
  have hk' := (of_decide_eq_true (List.mem_filter.mp hk).2).2
  obtain ⟨⟨c, e⟩, hjs⟩ := Option.ne_none_iff_exists'.mp hj'
  obtain ⟨⟨c', e'⟩, hks⟩ := Option.ne_none_iff_exists'.mp hk'
  rw [slotName_eq hjs, slotName_eq hks] at hjk
  subst hjk
  exact hU d hu j k c e e' hjs hks

theorem listingLines_eq :
    s.listingLines d = ((s.entryOrder d).filter Listable).map (s.tree.line pos) := by
  have hslot : ∀ j, (s.dirBlock d j).inUse = 1 →
      s.slots d j = some ((s.dirBlock d j).name.cstr, (s.dirBlock d j).inode) :=
    fun j h => slotsOf_eq_some.mpr ⟨h, rfl, rfl⟩
  -- the slots with a line are entries with a printable name
  have hfilter : ((List.finRange 15).filter fun j =>
      decide ((s.dirBlock d j).inUse = 1 ∧ Listable (s.dirBlock d j).name.cstr)) =
      (((List.finRange 15).filter fun j => decide (2 ≤ j ∧ s.slots d j ≠ none)).filter fun j =>
        decide (Listable (s.slotName d j))) := by
    rw [List.filter_filter]
    refine List.filter_congr fun j _ => ?_
    rw [Bool.eq_iff_iff, Bool.and_eq_true, decide_eq_true_eq, decide_eq_true_eq, decide_eq_true_eq]
    constructor
    · rintro ⟨huse, hlist⟩
      rw [slotName_eq (hslot j huse), hslot j huse]
      refine ⟨hlist, ?_, by simp⟩
      by_contra hj
      have hcases : j = 0 ∨ j = 1 := by omega
      have hsame := hslot j huse
      rcases hcases with rfl | rfl
      · rw [(hI.entries d hu).dot] at hsame
        exact hlist.1 (congrArg Prod.fst (Option.some.inj hsame)).symm
      · rw [(hI.entries d hu).dotdot] at hsame
        exact hlist.2.1 (congrArg Prod.fst (Option.some.inj hsame)).symm
    · rintro ⟨hlist, -, hne⟩
      obtain ⟨⟨c, e⟩, hj⟩ := Option.ne_none_iff_exists'.mp hne
      obtain ⟨huse, hc, -⟩ := slotsOf_eq_some.mp hj
      rw [slotName_eq hj, ← hc] at hlist
      exact ⟨huse, hlist⟩
  unfold FsState.listingLines FsState.listLines FsState.entryOrder
  rw [hfilter, List.filter_map, List.map_map]
  refine List.map_congr_left fun j hj => ?_
  obtain ⟨hj2, hne⟩ := of_decide_eq_true (List.mem_filter.mp (List.mem_filter.mp hj).1).2
  obtain ⟨⟨c, e⟩, hjs⟩ := Option.ne_none_iff_exists'.mp hne
  obtain ⟨-, hc, he⟩ := slotsOf_eq_some.mp hjs
  have hname : s.slotName d j = c := slotName_eq hjs
  have hmem : c ∈ s.tree.names pos := by
    rw [names_eq hI hU hu hp]
    exact ⟨j, Finset.mem_coe.mpr (mem_entrySlots.mpr ⟨hj2, hne⟩), hname⟩
  obtain ⟨v, hv⟩ := Option.ne_none_iff_exists'.mp hmem
  obtain ⟨e', hplace, -⟩ := node_eq_some hv
  obtain ⟨d', hd', -, hl⟩ := placeOf_concat.mp hplace
  obtain rfl : d = d' := Option.some.inj (hp.2.symm.trans hd'.2)
  obtain rfl : e = e' := Option.some.inj ((lookup_of_slot hI hU hu hj2 hjs).symm.trans hl)
  rw [Function.comp_apply, hname, FsState.listLine, Tree.line, hc, he]
  by_cases hdir : s.IsDir e
  · rw [if_pos hdir, if_pos ((hI.isDirectory_iff hplace).mpr hdir)]
  · rw [if_neg hdir, if_neg (mt (hI.isDirectory_iff hplace).mp hdir)]

omit hU hp in
theorem fsListDir_lines {path : List UInt8} (hpath : s.resolve (comps path) = some d)
    {maxSize : Int} (hmax : 1 ≤ maxSize) : ∃ k, ((firstLines (s.listingLines d) k).length : Int) <
        maxSize ∧ (512 ≤ maxSize → (s.listingLines d).length ≤ k) ∧
      ∀ buffer, LeavesText maxSize (firstLines (s.listingLines d) k) buffer
        (fsListDir path buffer maxSize s).1 := by
  have hlists : Lists maxSize (s.listingLines d) 0 fun buffer =>
      listEntries s (s.dirBlock d) maxSize (List.finRange 15) buffer 0 :=
    listEntries_lists (fun i hi => (entry_name hI hu hi).1) (List.finRange 15) 0 (by omega)
  obtain ⟨k, -, hlt, hall, hlisted⟩ := hlists
  have htotal := length_listing hI hu
  rw [Nat.cast_zero, Int.zero_add] at hlt
  refine ⟨k, hlt, fun h => (hall (by omega)).ge, fun buffer => ?_⟩
  obtain ⟨hcount, hstands, hkept⟩ := hlisted (buffer.store 0 [0])
  simp only [Nat.zero_add] at hcount hstands hkept
  rw [fsListDir_dir hI hpath hu, FsState.listing, hcount]
  -- the NUL behind the text is stored last
  have hnul := Memory.stands_store (listEntries s (s.dirBlock d) maxSize (List.finRange 15)
    (buffer.store 0 [0]) 0).1 (firstLines (s.listingLines d) k).length [0]
  refine ⟨rfl, Memory.stands_append.mpr ⟨hstands.store (.inr (by omega)), ?_⟩, fun a ha => ?_⟩
  · rwa [Nat.zero_add]
  · simp only [store_apply, List.length_singleton]
    rw [if_neg (by omega), hkept a (.inr ha), store_apply, List.length_singleton, if_neg (by omega)]

end Readers

/-- What a listing may leave: a text of the directory that the path leads to, or -1. -/
def Tree.ListsPath (t : Tree) (path : List FileName) (buffer : Memory) (maxSize : Int)
    (result : Int × Memory) : Prop :=
  (∃ pos text, t.find path = some pos ∧ t.node pos = some .dir ∧ t.Lists pos maxSize text ∧
    LeavesText maxSize text buffer result) ∨
  (t.look path ≠ some .dir ∧ result = (-1, buffer.store 0 [0]))

theorem fsListDir_tree {s : FsState} (hI : Inv s) (hU : NamesUnique s) (path : List UInt8)
    (buffer : Memory) {maxSize : Int} (hmax : 1 ≤ maxSize) :
    s.tree.ListsPath (comps path) buffer maxSize (fsListDir path buffer maxSize s).1 := by
  by_cases hdir : ∃ d, s.resolve (comps path) = some d ∧ s.UsableDir d
  · obtain ⟨d, hr, hu⟩ := hdir
    obtain ⟨pos, hfind, hp⟩ := hI.find_of_resolve hr
    obtain ⟨k, hlt, hall, hleaves⟩ := fsListDir_lines hI hu hr hmax
    have hlines := listingLines_eq hI hU hp hu
    refine .inl ⟨pos, _, hfind, ?_, ⟨s.entryOrder d, nodup_entryOrder hU hu,
      entryOrder_names hI hU hp hu, k, congrArg (firstLines · k) hlines, hlt, fun h => ?_⟩,
      hleaves buffer⟩
    · rw [hp.node, nodeOf_usable hu]
    · have := hall h
      rwa [hlines, List.length_map] at this
  · refine .inr ⟨fun hlook => ?_, fsListDir_fails hI (fun d hr hu => hdir ⟨d, hr, hu⟩) buffer maxSize⟩
    rw [hI.look_eq] at hlook
    obtain ⟨d, hr, hnode⟩ := Option.map_eq_some_iff.mp hlook
    exact hdir ⟨d, hr, (nodeOf_eq_dir_iff hI (hI.resolve_live hr)).mp hnode⟩

/-! ## The installation -/

theorem Fresh.tree_eq {s : FsState} (F : Fresh s) : s.tree = Tree.rootAndBin := by
  have hI := F.inv
  have hlookup : ∀ {d e : UInt32} {c : FileName}, ¬ IsDots c → s.lookup d c = some e →
      d = 0 ∧ c = ascii "bin" ∧ e = 1 := by
    intro d e c hc hl
    obtain rfl := F.usable_iff.mp (Inv.lookup_some hl).2.1
    obtain ⟨j, hj2, hj⟩ := hI.entry_of_lookup hl hc
    rw [F.slots] at hj
    by_cases hj' : j = 2
    · rw [hj', Function.update_self] at hj
      cases hj
      exact ⟨rfl, rfl, rfl⟩
    · rw [Function.update_of_ne hj', dotSlots_of_two_le hj2] at hj
      cases hj
  have hbin : s.lookup 0 (ascii "bin") = some 1 := by
    have hslot : s.slots 0 2 = some (ascii "bin", 1) := by rw [F.slots, Function.update_self]
    exact lookup_of_slot hI F.namesUnique hI.usable_root (by decide) hslot
  have hroot : PlaceOf s [] 0 := placeOf_nil hI
  have hplace : PlaceOf s [ascii "bin"] 1 :=
    placeOf_concat.mpr ⟨0, hroot, by decide +kernel, hbin⟩
  refine Tree.ext_node (fun pos v => ?_) ?_ ?_
  · unfold Tree.rootAndBin
    simp only
    by_cases h0 : pos = []
    · rw [if_pos h0, h0, hroot.node, nodeOf_usable hI.usable_root]
    rw [if_neg h0]
    by_cases h1 : pos = [ascii "bin"]
    · have hbare : s.nodeOf 1 = .bare := by
        rw [nodeOf_dir hI.shape.bin.1, if_neg fun hv => hv.1 hI.shape.bin.2]
      rw [if_pos h1, h1, hplace.node, hbare]
    rw [if_neg h1]
    refine iff_of_false (fun hv => ?_) (by simp)
    obtain ⟨i, hi, -⟩ := node_eq_some hv
    obtain ⟨qs, c, rfl⟩ := (List.eq_nil_or_concat' pos).resolve_left h0
    obtain ⟨d, hd, hc, hl⟩ := placeOf_concat.mp hi
    obtain ⟨rfl, rfl, -⟩ := hlookup hc hl
    rw [hd.inj hI hroot] at h1
    exact h1 rfl
  · rw [tree_inodes, ← F.counters.inodes, F.freeInodes]
    rfl
  · rw [tree_blocks, ← F.counters.blocks, F.freeBlocks]
    rfl

theorem createDirs_tree {s : FsState} (hI : Inv s) (hU : NamesUnique s) {paths : List (List UInt8)}
    (h0 : ∀ path ∈ paths, ∀ c ∈ comps path, 0 ∉ c) (hP : PlainDirs paths s) :
    (createDirs paths s).tree =
      paths.foldl (fun t path => (t.createDir (comps path)).2) s.tree := by
  induction paths generalizing s with
  | nil => rfl
  | cons path paths ih =>
    have h0' := h0 path List.mem_cons_self
    obtain ⟨r, q, s', hrun, M, -⟩ := fsCreateDir_mkdirs hI h0'
    have htree := fsCreateDir_tree hI hU h0' hP.1
    rw [createDirs, List.foldl_cons, htree]
    have hP2 := hP.2
    rw [hrun] at hP2 ⊢
    exact ih (M.inv hI) (M.namesUnique hI hP.1 hU)
      (fun p hp => h0 p (List.mem_cons_of_mem _ hp)) hP2

/-- **The tree of an installation** is that of its directories. -/
theorem fsInstall_tree (hostname username password : CStr) {t : FsState} (ht : t.disk.Perfect)
    (hP : PlainDirs (installDirs username) (installRoot hostname username password t)) :
    (fsInstall hostname username password t).tree = Tree.installed username := by
  obtain ⟨s0, F, -, hrun⟩ := install_bin hostname username password ht
  rw [installDirs_cons] at hP
  replace hP := hP.2
  rw [hrun] at hP
  have h0 : ∀ path ∈ (installDirs username).tail, ∀ c ∈ comps path, 0 ∉ c := fun path hp =>
    installDirs_noNul username path (List.mem_of_mem_tail hp)
  have hI1 := (createDirs_namesUnique F.inv h0 hP F.namesUnique).1
  rw [fsInstall_eq hrun, (sync_agree _).tree_eq hI1, createDirs_tree F.inv F.namesUnique h0 hP,
    F.tree_eq]
  rfl

/-! ## Runs -/

/-- A call of the file system, or a reboot. -/
inductive TreeCall
  | change (op : FsOp)
  | dirExists (path : List UInt8)
  | fileExists (path : List UInt8)
  | readFile (path : List UInt8) (buffer : Memory) (maxSize : UInt32)
  | listDir (path : List UInt8) (buffer : Memory) (maxSize : Int)
  | reboot (m : FsState)

inductive Answer
  | code (r : Int)
  | found (b : Bool)
  | filled (result : Int × Memory)
  | nothing

/-- A call that changes the file system, on the tree. -/
noncomputable def FsOp.onTree : FsOp → Tree → Int × Tree
  | createDir path, t => t.createDir (comps path)
  | createFile path data size, t => t.createFile (comps path) data size.toNat
  | deleteFile path, t => t.deleteFile (comps path)

namespace TreeCall

def run : TreeCall → FsState → Answer × FsState
  | change op, s => (.code (op.run s).1, (op.run s).2)
  | dirExists path, s => (.found (fsDirExists path s).1, s)
  | fileExists path, s => (.found (fsFileExists path s).1, s)
  | readFile path buffer maxSize, s => (.filled (fsReadFile path buffer maxSize s).1, s)
  | listDir path buffer maxSize, s => (.filled (fsListDir path buffer maxSize s).1, s)
  | reboot m, s => (.nothing, EphemeralOS.reboot m s)

/-- The calls that enter only free names; a listing has room for a NUL. -/
def plain : TreeCall → FsState → Prop
  | change op, s => op.plain s
  | listDir _ _ maxSize, _ => 1 ≤ maxSize
  | _, _ => True

/-- What the tree allows the call to return, and the tree afterwards. -/
def allows : Simulation.Spec Tree TreeCall Answer := fun t e o t' =>
  match e with
  | change op => o = .code (op.onTree t).1 ∧ t' = (op.onTree t).2
  | dirExists path => o = .found (t.dirExists (comps path)) ∧ t' = t
  | fileExists path => o = .found (t.fileExists (comps path)) ∧ t' = t
  | readFile path buffer maxSize =>
    o = .filled (t.readFile (comps path) buffer maxSize.toNat) ∧ t' = t
  | listDir path buffer maxSize =>
    (∃ result, o = .filled result ∧ t.ListsPath (comps path) buffer maxSize result) ∧ t' = t
  | reboot _ => o = .nothing ∧ t' = t

end TreeCall

theorem FsOp.onTree_eq {s : FsState} (hI : Inv s) (hU : NamesUnique s) (op : FsOp)
    (hop : op.plain s) : op.onTree s.tree = ((op.run s).1, (op.run s).2.tree) := by
  cases op with
  | createDir path => exact fsCreateDir_tree hI hU path.comps_noNul hop
  | createFile path data size => exact fsCreateFile_tree hI hU path.comps_noNul data size hop.1 hop.2
  | deleteFile path => exact fsDeleteFile_tree hI hU path

/-- The tree is that of the state, and the state is one that plain calls lead to. -/
structure RefinesTree (s : FsState) (t : Tree) : Prop where
  inv : Inv s
  synced : Synced s
  unique : NamesUnique s
  tree : s.tree = t

/-- **One call.** -/
theorem RefinesTree.call {s : FsState} {t : Tree} (h : RefinesTree s t) (e : TreeCall)
    (he : e.plain s) : ∃ t', TreeCall.allows t e (e.run s).1 t' ∧ RefinesTree (e.run s).2 t' := by
  obtain ⟨hI, hS, hU, rfl⟩ := h
  cases e with
  | change op =>
    have hstep := op.onTree_eq hI hU he
    refine ⟨(op.onTree s.tree).2, ⟨by rw [hstep]; rfl, rfl⟩, ?_, ?_, op.namesUnique hI hU he, ?_⟩
    · exact ((op.changes hI).preserves (P := Synced) (fun _ _ hI hS ht => hS.change hI ht) hI hS).1
    · exact ((op.changes hI).preserves (P := Synced) (fun _ _ hI hS ht => hS.change hI ht) hI hS).2
    · rw [hstep]
      rfl
  | dirExists path =>
    exact ⟨s.tree, ⟨by rw [fsDirExists_tree hI]; rfl, rfl⟩, hI, hS, hU, rfl⟩
  | fileExists path =>
    exact ⟨s.tree, ⟨by rw [fsFileExists_tree hI]; rfl, rfl⟩, hI, hS, hU, rfl⟩
  | readFile path buffer maxSize =>
    exact ⟨s.tree, ⟨by rw [fsReadFile_tree hI]; rfl, rfl⟩, hI, hS, hU, rfl⟩
  | listDir path buffer maxSize =>
    exact ⟨s.tree, ⟨⟨_, rfl, fsListDir_tree hI hU path buffer he⟩, rfl⟩, hI, hS, hU, rfl⟩
  | reboot m =>
    have hagree := hS.reboot_agree m hI
    have hunique : NamesUnique (EphemeralOS.reboot m s) := fun d hd => by
      have hd' := hagree.usable_iff.mp hd
      rw [hagree.slots hI hd']
      exact hU d hd'
    simp only [TreeCall.run]
    exact ⟨s.tree, ⟨rfl, rfl⟩, hagree.inv hI, hS.after_reboot m hI, hunique, hagree.tree_eq hI⟩

theorem fsInstall_refinesTree (hostname username password : CStr) {t : FsState}
    (ht : t.disk.Perfect)
    (hP : PlainDirs (installDirs username) (installRoot hostname username password t)) :
    RefinesTree (fsInstall hostname username password t) (Tree.installed username) := by
  have hplain : PlainlyInstalled (fsInstall hostname username password t) :=
    ⟨hostname, username, password, t, ht, hP, rfl⟩
  have hsound := hplain.installed.sound.1
  exact ⟨hsound.inv, hsound.synced, hplain.namesUnique, fsInstall_tree hostname username password ht hP⟩

/-- **The file system is a tree.** From an installation on, every run of plain calls, readers and
reboots gives the answers that the tree allows, and ends in the tree that the calls make of the
installed directories. -/
theorem file_system_refines_tree (hostname username password : CStr) {t : FsState}
    (ht : t.disk.Perfect)
    (hP : PlainDirs (installDirs username) (installRoot hostname username password t))
    {es : List TreeCall}
    (hes : Simulation.Allowed TreeCall.run TreeCall.plain es
      (fsInstall hostname username password t)) :
    Simulation.Runs TreeCall.allows (Tree.installed username) es
      (Simulation.answers TreeCall.run es (fsInstall hostname username password t)).1
      (Simulation.answers TreeCall.run es (fsInstall hostname username password t)).2.tree := by
  have hR := fsInstall_refinesTree hostname username password ht hP
  have hcall : ∀ (e : TreeCall) (s : FsState) (t : Tree), RefinesTree s t → e.plain s →
      ∃ t', TreeCall.allows t e (e.run s).1 t' ∧ RefinesTree (e.run s).2 t' :=
    fun e s t h he => h.call e he
  obtain ⟨t', hruns, hend⟩ := Simulation.Runs.simulate hcall hR hes
  rw [hend.tree]
  exact hruns

/-- A file is written, the machine restarted, and the file looked for. -/
def sampleCalls : List TreeCall :=
  [.change (.createFile samplePath sampleData 5), .reboot blankState, .fileExists samplePath]

theorem sampleInstall_refines : Simulation.Runs TreeCall.allows (Tree.installed sampleUsername)
    sampleCalls (Simulation.answers TreeCall.run sampleCalls sampleInstall).1
    (Simulation.answers TreeCall.run sampleCalls sampleInstall).2.tree :=
  file_system_refines_tree sampleHostname sampleUsername samplePassword (t := blankState) rfl
    (plainDirs_of_no_dots (show ∀ path ∈ installDirs (ascii "user"), ∀ c ∈ comps path, ¬ IsDots c by
      decide +kernel))
    (show Simulation.Allowed TreeCall.run TreeCall.plain sampleCalls sampleInstall from
      ⟨sampleFile_plain 5, trivial, trivial, trivial⟩)

end EphemeralOS
