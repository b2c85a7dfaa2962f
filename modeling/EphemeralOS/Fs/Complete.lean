import EphemeralOS.Fs.Permanent
import Mathlib.Data.Fintype.Card

/-!
# A complete installation

`fs_install` ignores the results of the `fs_create_dir` calls it makes. All its
directories are there at the end just when the username fits an entry
(`install_complete_iff`): there is room, and no directory is full (`Inv.exists_slot`).
-/

namespace EphemeralOS

open Path Directory Run

/-- **A full directory takes an inode for every entry.** So while enough inodes are free, every
directory has a slot left. -/
theorem Inv.exists_slot {s : FsState} (hI : Inv s) {p : UInt32} (hu : s.UsableDir p)
    (hroom : 187 < s.freeNumbers.card) : ∃ j, j ≠ 14 ∧ s.slots p j = none := by
  by_contra hno
  have hfull : ∀ j, j ≠ 14 → s.slots p j ≠ none := fun j hj hn => hno ⟨j, hj, hn⟩
  have hslot : ∀ k : Fin 12, ∃ x : List UInt8 × UInt32, s.slots p ⟨k + 2, by omega⟩ = some x :=
    fun k => Option.ne_none_iff_exists'.mp (hfull _ (Fin.ne_of_val_ne (by
      show (k : Nat) + 2 ≠ 14
      omega)))
  choose entry hentry using hslot
  have htwo : ∀ k : Fin 12, (2 : Fin 15) ≤ ⟨k + 2, by omega⟩ := fun k =>
    Fin.le_def.mpr (Nat.le_add_left 2 k)
  have hE := hI.entries p hu
  have hprop := fun k => hE.entry _ _ _ (htwo k) (hentry k)
  have hinj : Function.Injective fun k => (entry k).2 := fun k l hkl => by
    have hk : s.slots p ⟨k + 2, by omega⟩ = some ((entry k).1, (entry l).2) := by
      rw [hentry k, ← show (entry k).2 = (entry l).2 from hkl]
    have h := Fin.mk.inj (hE.distinct _ _ _ _ _ (htwo k) (htwo l) hk (hentry l))
    exact Fin.ext (by omega)
  -- these inodes, and the root's, are not free
  have hsub : insert 0 (Finset.univ.image fun k => (entry k).2) ∪ s.freeNumbers ⊆ (indices 200).toFinset := by
    intro i hi
    rw [List.mem_toFinset, mem_inodes]
    rcases Finset.mem_union.mp hi with hi | hi
    · rcases Finset.mem_insert.mp hi with rfl | hi
      · decide
      · obtain ⟨k, -, rfl⟩ := Finset.mem_image.mp hi
        exact (hprop k).2.1.1
    · exact (mem_freeNumbers.mp hi).1
  have hdisj : Disjoint (insert 0 (Finset.univ.image fun k => (entry k).2)) s.freeNumbers := by
    rw [Finset.disjoint_left]
    intro i hi hfree
    have hfree := (mem_freeNumbers.mp hfree).2
    rcases Finset.mem_insert.mp hi with rfl | hi
    · exact hI.shape.rootDir.1.live.2 hfree
    · obtain ⟨k, -, rfl⟩ := Finset.mem_image.mp hi
      exact (hprop k).2.1.2 hfree
  have hzero : (0 : UInt32) ∉ Finset.univ.image (fun k => (entry k).2) := fun h => by
    obtain ⟨k, -, hk⟩ := Finset.mem_image.mp h
    exact (hprop k).2.2.1 hk
  have hcard := Finset.card_le_card hsub
  rw [Finset.card_union_of_disjoint hdisj, Finset.card_insert_of_notMem hzero,
    Finset.card_image_of_injective _ hinj, Finset.card_univ, Fintype.card_fin,
    card_indices (by omega)] at hcard
  omega

/-! ## Making one directory after another -/

/-- What an installation keeps while `k` directories are still to be made. -/
structure Roomy (s : FsState) (k : Nat) : Prop where
  inv : Inv s
  dirs : ∀ i, s.Live i → s.IsDir i
  inodes : 187 + k ≤ s.freeNumbers.card
  blocks : k ≤ s.clearBlocks.card
  bin : ∀ d, s.UsableDir d → ∀ j c, s.slots d j = some (c, 1) → d = 0 ∧ c = ascii "bin"

def UsableAt (s : FsState) (cs : List (List UInt8)) : Prop :=
  ∃ e, s.resolve cs = some e ∧ s.UsableDir e

theorem KeepsDirs.usableAt {s s' : FsState} (hI : Inv s) (hI' : Inv s') (h : KeepsDirs s s')
    {cs : List (List UInt8)} (hu : UsableAt s cs) : UsableAt s' cs := by
  obtain ⟨e, hres, he⟩ := hu
  obtain ⟨hres', he'⟩ := h cs e hres he.isDir
  exact ⟨e, hres', hI'.usable he' fun h1 => hI.not_usable_bin (h1 ▸ he)⟩

namespace Roomy

variable {s : FsState} {k : Nat}

theorem linked (R : Roomy s (k + 1)) {s' : FsState} {n p : UInt32} {name : List UInt8} {v : Inode}
    {b : UInt32} {i : Fin 15} (L : Linked s s' n p name v [b] i) (hv : v.type = inodeTypeDir)
    (hp : s.UsableDir p) : Roomy s' k where
  inv := L.inv R.inv
  dirs j hj := by
    rcases L.live_iff.mp hj with rfl | hj
    · exact L.isDir_iff.mpr (.inl ⟨rfl, hv⟩)
    · exact L.isDir_iff.mpr (.inr (R.dirs j hj))
  inodes := by
    have := L.card_freeNumbers
    have := R.inodes
    omega
  blocks := by
    have := L.card_clearBlocks
    have := R.blocks
    rw [List.length_singleton] at *
    omega
  bin d hd j c hj := by
    have h1 := R.inv.shape.bin.1.live
    rcases L.usable_iff.mp hd with ⟨rfl, -⟩ | hd
    · rw [L.slots_new hv] at hj
      unfold dotSlots at hj
      split at hj
      · cases hj
        exact absurd h1 L.not_live
      split at hj
      · cases hj
        exact absurd hp R.inv.not_usable_bin
      · cases hj
    · rcases L.slot_cases R.inv hd hj with hj | ⟨-, -, -, rfl⟩
      · exact R.bin d hd j c hj
      · exact absurd h1 L.not_live

theorem mono (R : Roomy s (k + 1)) : Roomy s k where
  inv := R.inv
  dirs := R.dirs
  inodes := by have := R.inodes; omega
  blocks := by have := R.blocks; omega
  bin := R.bin

/-- **One directory**: `fs_create_dir` finds it or makes it. -/
theorem createDir (R : Roomy s (k + 1)) {path : List UInt8} {ds : List (List UInt8)}
    {c : List UInt8} (hpath : comps path = ds ++ [c]) (hc : NameOk c) (hds : UsableAt s ds)
    (hb : c = ascii "bin" → s.resolve ds ≠ some 0) :
    Roomy (fsCreateDir path s).2 k ∧ KeepsDirs s (fsCreateDir path s).2 ∧
      UsableAt (fsCreateDir path s).2 (ds ++ [c]) := by
  have hI := R.inv
  obtain ⟨p, hp, hu⟩ := hds
  cases hl : s.lookup p c with
  | some e =>
    have hres : s.resolve (comps path) = some e := by rw [hpath, resolve_concat, hp]; exact hl
    rw [fsCreateDir_existing hI hpath hres]
    refine ⟨R.mono, .refl s, e, hpath ▸ hres, hI.usable (R.dirs e (hI.lookup_live hl)) ?_⟩
    rintro rfl
    obtain ⟨j, hj⟩ := exists_slot_of_find (Inv.lookup_some hl).2.2
    obtain ⟨rfl, hbin⟩ := R.bin p hu j c hj
    exact hb hbin hp
  | none =>
    rw [fsCreateDir_at hI hpath hc.short hp hl]
    rcases makeDir_cases (hI.ready hu.isDir.live) c with
      ⟨s', hrun, -, hwhy⟩ | ⟨-, s', n, b, i, hrun, M⟩
    · -- there is room
      have hinodes := R.inodes
      have hblocks := R.blocks
      rcases hwhy with h | h | h
      · exact absurd hu.2.1 h
      · rw [h, Finset.card_empty] at hinodes
        omega
      · omega
    · rw [hrun]
      have L := M.isLinked hu.isDir hc
      obtain ⟨j, hj, hnone⟩ := hI.exists_slot hu (by have := R.inodes; omega)
      have hi : i ≠ 14 := fun h14 => by
        have := M.slot_le hnone
        omega
      exact ⟨R.linked L rfl hu, L.keepsDirs hI hl, n, L.resolve_new hI hp hu hi hl,
        L.usable_iff.mpr (.inl ⟨rfl, rfl⟩)⟩

end Roomy

/-- A name other than `.` and `..` does not lead to the root. -/
theorem Inv.lookup_ne_root {s : FsState} (hI : Inv s) {d : UInt32} {c : List UInt8}
    (hc : ¬ IsDots c) : s.lookup d c ≠ some 0 := fun hl => by
  obtain ⟨-, hu, hf⟩ := Inv.lookup_some hl
  obtain ⟨j, hj⟩ := exists_slot_of_find hf
  have hE := hI.entries d hu
  rcases lt_or_ge j 2 with h2 | h2
  · have hcases : j = 0 ∨ j = 1 := by omega
    rcases hcases with rfl | rfl
    · rw [hE.dot] at hj
      cases hj
      exact hc (.inl rfl)
    · rw [hE.dotdot] at hj
      injection hj with hj
      exact hc (.inr (congrArg Prod.fst hj).symm)
  · exact (hE.entry j c 0 h2 hj).2.2.1 rfl

/-- Every path's parent is there or comes first; `bin` is not a name in the root. -/
def ParentsFirst : List (List (List UInt8)) → List (List UInt8) → Prop
  | _, [] => True
  | made, path :: paths => (∃ ds c, comps path = ds ++ [c] ∧ NameOk c ∧ ds ∈ made ∧
      (c = ascii "bin" → ∃ es a, ds = es ++ [a] ∧ ¬ IsDots a)) ∧
    ParentsFirst (comps path :: made) paths

/-- **All the directories**, parents first. -/
theorem Roomy.createDirs {s : FsState} {paths : List (List UInt8)} {made : List (List (List UInt8))}
    (R : Roomy s paths.length) (hmade : ∀ cs ∈ made, UsableAt s cs) (hP : ParentsFirst made paths) :
    Inv (createDirs paths s) ∧ KeepsDirs s (createDirs paths s) ∧
      ∀ cs, (cs ∈ made ∨ ∃ path ∈ paths, comps path = cs) → UsableAt (createDirs paths s) cs := by
  induction paths generalizing s made with
  | nil => exact ⟨R.inv, .refl s, fun cs h => hmade cs (h.resolve_right (by simp))⟩
  | cons path paths ih =>
    obtain ⟨⟨ds, c, hpath, hc, hds, hbin⟩, hP⟩ := hP
    obtain ⟨R', hkeep, hnew⟩ := R.createDir hpath hc (hmade ds hds) fun hb hroot => by
      obtain ⟨es, a, rfl, ha⟩ := hbin hb
      rw [resolve_concat] at hroot
      obtain ⟨d, -, hl⟩ := Option.bind_eq_some_iff.mp hroot
      exact R.inv.lookup_ne_root ha hl
    rw [← hpath] at hnew
    obtain ⟨hI', hkeep', hall⟩ := ih R' (fun cs hcs => by
      rcases List.mem_cons.mp hcs with rfl | hcs
      · exact hnew
      · exact hkeep.usableAt R.inv R'.inv (hmade cs hcs)) hP
    refine ⟨hI', hkeep.trans hkeep', fun cs h => hall cs ?_⟩
    rcases h with h | ⟨path', hp, rfl⟩
    · exact .inl (List.mem_cons_of_mem _ h)
    · rcases List.mem_cons.mp hp with rfl | hp
      · exact .inl List.mem_cons_self
      · exact .inr ⟨path', hp, rfl⟩

/-! ## The installation -/

theorem Fresh.roomy {s : FsState} (F : Fresh s) : Roomy s 7 where
  inv := F.inv
  dirs _ hi := F.isDir hi
  inodes := by
    rw [← F.counters.inodes, F.freeInodes]
    decide
  blocks := by
    rw [← F.counters.blocks, F.freeBlocks]
    decide
  bin d hd j c hj := by
    obtain rfl := F.usable_iff.mp hd
    refine ⟨rfl, ?_⟩
    rcases lt_or_ge j 2 with h2 | h2
    · have hcases : j = 0 ∨ j = 1 := by omega
      rcases hcases with rfl | rfl
      · rw [F.entriesOf.dot] at hj
        cases hj
      · rw [F.entriesOf.dotdot, F.inode_root] at hj
        injection hj with hj
        exact absurd (congrArg Prod.snd hj) (show rootInode.parentInode ≠ 1 by decide)
    · exact (F.slot_cases h2 hj).2.1

section User

variable {username : List UInt8} (hseg : Segment slash username)
include hseg

theorem comps_home : comps (ascii "/home/" ++ username) = [ascii "home"] ++ [username] := by
  rw [show ascii "/home/" = ascii "/home" ++ [slash] by decide +kernel, List.append_assoc,
    show [slash] ++ username = slash :: username from rfl]
  refine (components_snoc hseg).trans ?_
  rw [show components slash (ascii "/home") = [ascii "home"] by decide +kernel]

theorem comps_below_home {c : List UInt8} (hc : Segment slash c) :
    comps (ascii "/home/" ++ username ++ slash :: c) =
      ([ascii "home"] ++ [username]) ++ [c] := by
  rw [← comps_home hseg]
  exact components_snoc hc

theorem installDirs_parentsFirst (h0 : 0 ∉ username) (hlen : username.length ≤ 27) :
    ParentsFirst [[]] (installDirs username).tail := by
  have hname : ∀ c ∈ [ascii "home", ascii "tmp", ascii "etc", ascii "var", ascii "documents",
      ascii "downloads"], (c ≠ [] ∧ slash ∉ c) ∧ 0 ∉ c ∧ c.length < fsMaxFilename ∧
        c ≠ ascii "bin" := by decide +kernel
  have hok : ∀ c ∈ [ascii "home", ascii "tmp", ascii "etc", ascii "var", ascii "documents",
      ascii "downloads"], NameOk c := fun c hc =>
    ⟨(hname c hc).1, (hname c hc).2.1, (hname c hc).2.2.1⟩
  have hbin : ∀ c ∈ [ascii "home", ascii "tmp", ascii "etc", ascii "var", ascii "documents",
      ascii "downloads"], ∀ P, c = ascii "bin" → P := fun c hc P h =>
    absurd h (hname c hc).2.2.2
  have hdocs : ascii "/documents" = slash :: ascii "documents" := by decide +kernel
  have hdown : ascii "/downloads" = slash :: ascii "downloads" := by decide +kernel
  have hdots : ¬ IsDots (ascii "home") := by decide +kernel
  refine ⟨⟨[], ascii "home", by decide +kernel, hok _ (by simp), by simp, hbin _ (by simp) _⟩,
    ⟨[], ascii "tmp", by decide +kernel, hok _ (by simp), by simp, hbin _ (by simp) _⟩,
    ⟨[], ascii "etc", by decide +kernel, hok _ (by simp), by simp, hbin _ (by simp) _⟩,
    ⟨[], ascii "var", by decide +kernel, hok _ (by simp), by simp, hbin _ (by simp) _⟩,
    ⟨[ascii "home"], username, comps_home hseg, ⟨hseg, h0, Nat.lt_succ_of_le hlen⟩, ?_,
      fun _ => ⟨[], ascii "home", rfl, hdots⟩⟩,
    ⟨_, ascii "documents", by rw [hdocs]; exact comps_below_home hseg (hok _ (by simp)).segment,
      hok _ (by simp), ?_, hbin _ (by simp) _⟩,
    ⟨_, ascii "downloads", by rw [hdown]; exact comps_below_home hseg (hok _ (by simp)).segment,
      hok _ (by simp), ?_, hbin _ (by simp) _⟩, trivial⟩
  · simp [show comps (ascii "/home") = [ascii "home"] by decide +kernel]
  · simp [comps_home hseg]
  · simp [comps_home hseg]

end User

/-- **With a username that fits an entry every directory is there.** -/
theorem fsInstall_complete (hostname password : CStr) {username : CStr} {t : FsState}
    (ht : t.disk.Perfect) (hseg : Segment slash username.val) (hlen : username.val.length ≤ 27) :
    ∀ path ∈ installDirs username, (fsInstall hostname username password t).IsDir
      (findInodeByPath path (fsInstall hostname username password t)).1 := by
  obtain ⟨s0, F, -, hrun⟩ := install_bin hostname username password ht
  have hroot : ∀ cs ∈ [[]], UsableAt s0 cs := fun cs hcs => by
    rw [List.mem_singleton.mp hcs]
    exact ⟨0, congrArg some F.root, F.usable_iff.mpr rfl⟩
  obtain ⟨hI, hkeep, hall⟩ := F.roomy.createDirs hroot
    (installDirs_parentsFirst hseg username.2 hlen)
  have hagree := sync_agree (createDirs (installDirs username).tail s0)
  have hI' := hagree.inv hI
  rw [fsInstall_eq hrun]
  intro path hpath
  rw [hI'.isDir_find_iff]
  rw [installDirs_cons] at hpath
  rcases List.mem_cons.mp hpath with rfl | hpath
  · -- `/bin` was there before
    have hbin : s0.resolve (comps (ascii "/bin")) = some 1 := by
      rw [comps_bin, resolve_concat, resolve_nil, F.root, Option.bind_some,
        F.inv.lookup_eq (F.usable_iff.mpr rfl) (by decide +kernel), F.slots]
      decide +kernel
    obtain ⟨hres, hdir⟩ := hkeep _ _ hbin F.inv.shape.bin.1
    exact ⟨1, (hagree.resolve hI _).trans hres, hagree.isDir_iff.mpr hdir⟩
  · obtain ⟨e, hres, hu⟩ := hall _ (.inr ⟨path, hpath, rfl⟩)
    exact ⟨e, (hagree.resolve hI _).trans hres, hagree.isDir_iff.mpr hu.isDir⟩

theorem home_missing {s : FsState} (hI : Inv s) {username : List UInt8}
    (hseg : Segment slash username) (hlen : 27 < username.length) :
    ¬ s.IsDir (findInodeByPath (ascii "/home/" ++ username) s).1 := by
  rw [hI.isDir_find_iff, comps_home hseg, resolve_long hlen]
  simp

end EphemeralOS
