import EphemeralOS.Fs.Read

/-!
# Paths across a change

What a creation or a deletion does to the lookups: a name entered where it was
free hides nothing, so every path that led somewhere still leads there
(`Linked.resolve_old`), and the new inode is found unless it went to the last
slot (`Linked.resolve_new`, `Linked.resolve_lost`). A deletion keeps every path
to a directory (`Removed.resolve_dir`).
-/

namespace EphemeralOS

open Directory

theorem resolve_append {s : FsState} (ds es : List (List UInt8)) :
    s.resolve (ds ++ es) = (s.resolve ds).bind fun p => walk s.lookup p es :=
  List.foldlM_append

/-- On the way to a directory there are directories only. -/
theorem Inv.isDir_on_way {s : FsState} {y e : UInt32} (he : s.IsDir e) {es : List (List UInt8)}
    (h : walk s.lookup y es = some e) : s.IsDir y := by
  cases es with
  | nil => cases h; exact he
  | cons c es =>
    obtain ⟨z, hz, _⟩ := Option.bind_eq_some_iff.mp h
    exact (lookup_some hz).2.1.isDir

theorem last_ne {s : FsState} {d : UInt32} {j : Fin 15} {x : List UInt8 × UInt32}
    (h : s.slots d j = some x) : j ≠ 14 := fun e => by
  rw [e, slots_last_none] at h
  cases h

/-! ## Creations -/

namespace Linked

variable {s s' : FsState} {n p : UInt32} {name : List UInt8} {v : Inode} {bs : List UInt32}
  {i : Fin 15} (hI : Inv s) (L : Linked s s' n p name v bs i)
include hI L

theorem find_ne {d : UInt32} (hd : s.UsableDir d) {c : List UInt8} (h : d = p → c ≠ name) :
    find (s'.slots d) c = find (s.slots d) c := by
  refine find_congr fun j e => ⟨fun hj => ?_, fun hj => L.slot_old hI hd hj⟩
  rcases L.slot_cases hI hd hj with hj | ⟨hdp, -, hc, -⟩
  · exact hj
  · exact absurd hc (h hdp)

theorem lookup_ne {d : UInt32} (hd : s.UsableDir d) {c : List UInt8} (hc : c.length < fsMaxFilename)
    (h : d = p → c ≠ name) : s'.lookup d c = s.lookup d c := by
  rw [(L.inv hI).lookup_eq (L.usable_iff.mpr (.inr hd)) hc, hI.lookup_eq hd hc, L.find_ne hI hd h]

theorem lookup_old (hfree : s.lookup p name = none) {d : UInt32} {c : List UInt8} {e : UInt32}
    (h : s.lookup d c = some e) : s'.lookup d c = some e := by
  obtain ⟨hc, hd, -⟩ := Inv.lookup_some h
  rw [L.lookup_ne hI hd hc, h]
  rintro rfl rfl
  rw [hfree] at h
  cases h

/-- **A name entered where it was free hides nothing.** -/
theorem resolve_old (hfree : s.lookup p name = none) {cs : List (List UInt8)} {e : UInt32}
    (h : s.resolve cs = some e) : s'.resolve cs = some e := by
  have hroot : s'.superblock.rootInode = s.superblock.rootInode := by rw [L.superblock]
  unfold FsState.resolve at h ⊢
  rw [hroot]
  exact walk_of_agree h fun _ _ _ _ _ _ _ hxy _ => L.lookup_old hI hfree hxy

/-- The new inode is found under its name, unless it is in the last slot or hidden. -/
theorem lookup_new (hp : s.UsableDir p) (hi : i ≠ 14)
    (hfirst : ∀ j, j < i → ∀ e, s.slots p j ≠ some (name, e)) : s'.lookup p name = some n := by
  rw [(L.inv hI).lookup_eq (L.usable_iff.mpr (.inr hp)) L.named.short, L.slots_parent hp]
  rw [find_update_of_ne (i := 14), find_insert hfirst]
  · rw [Function.update_of_ne (Ne.symm hi), slots_last_none]
    simp
  · simp

theorem not_slot_of_free (hp : s.UsableDir p) (hfree : s.lookup p name = none) (j : Fin 15)
    (e : UInt32) : s.slots p j ≠ some (name, e) := by
  rw [hI.lookup_eq hp L.named.short] at hfree
  exact find_eq_none_iff.mp hfree j e

theorem resolve_new {ds : List (List UInt8)} (hds : s.resolve ds = some p) (hp : s.UsableDir p)
    (hi : i ≠ 14) (hfree : s.lookup p name = none) : s'.resolve (ds ++ [name]) = some n := by
  rw [resolve_concat, L.resolve_old hI hfree hds]
  exact L.lookup_new hI hp hi fun j _ => L.not_slot_of_free hI hp hfree j

omit hI in
/-- A directory whose only free slot was the last one keeps its slots. -/
theorem slots_lost (hp : s.UsableDir p) (hi : i = 14) : s'.slots p = s.slots p := by
  rw [L.slots_parent hp, hi, Function.update_idem, ← slots_last_none s p, Function.update_eq_self]

/-- An entry that goes to the last slot, or to a directory without a block, is lost. -/
theorem resolve_lost {ds : List (List UInt8)} (hds : s.resolve ds = some p)
    (hi : s.UsableDir p → i = 14) (hfree : s.lookup p name = none) :
    s'.resolve (ds ++ [name]) = none := by
  rw [resolve_concat, L.resolve_old hI hfree hds]
  show s'.lookup p name = none
  by_cases hp : s.UsableDir p
  · rw [(L.inv hI).lookup_eq (L.usable_iff.mpr (.inr hp)) L.named.short,
      L.slots_lost hp (hi hp), ← hI.lookup_eq hp L.named.short, hfree]
  · have hp' : ¬ s'.UsableDir p := fun h => by
      rcases L.usable_iff.mp h with ⟨rfl, -⟩ | h
      · exact L.not_live L.parentDir.live
      · exact hp h
    unfold FsState.lookup
    rw [if_neg fun h => hp' h.2]

end Linked

theorem Created.slot_le {s s' : FsState} {n p : UInt32} {name : List UInt8} {v : Inode}
    {bs : List UInt32} {i : Fin 15} (C : Created s s' n p name v bs i) {j : Fin 15}
    (hj : s.slots p j = none) : i ≤ j := by
  by_contra h
  exact C.before j (lt_of_not_ge h) hj

/-! ## Deletions -/

namespace Removed

variable {s s' : FsState} {f p : UInt32} {c : List UInt8} {j : Fin 15} (hI : Inv s)
  (R : Removed s s' f p c j)
include hI R

theorem lookup_old {d : UInt32} {c' : List UInt8} {e : UInt32} (h : s.lookup d c' = some e)
    (he : e ≠ f) : s'.lookup d c' = some e := by
  obtain ⟨hc, hd, hfind⟩ := Inv.lookup_some h
  obtain ⟨k, hk, hfirst⟩ := find_eq_some_iff.mp hfind
  rw [(R.inv hI).lookup_eq (R.usable_iff.mpr hd) hc, find_eq_some_iff]
  refine ⟨k, (R.slot_iff hI hd).mpr ⟨hk, ?_⟩, fun l hl e' hl' =>
    hfirst l hl e' ((R.slot_iff hI hd).mp hl').1⟩
  rintro ⟨rfl, rfl⟩
  rw [R.slot] at hk
  cases hk
  exact he rfl

/-- **A deletion keeps every path to a directory.** -/
theorem resolve_dir {cs : List (List UInt8)} {e : UInt32} (h : s.resolve cs = some e)
    (he : s.IsDir e) : s'.resolve cs = some e := by
  have hroot : s'.superblock.rootInode = s.superblock.rootInode := by rw [R.superblock]
  unfold FsState.resolve at h ⊢
  rw [hroot]
  refine walk_of_agree h fun _ _ es x y _ _ hxy hy => R.lookup_old hI hxy ?_
  exact R.ne_of_isDir (Inv.isDir_on_way he hy)

end Removed

section Overwrite

variable {s s1 s' : FsState} (hI : Inv s) {f p n : UInt32} {c : List UInt8} {j i : Fin 15}
  {v : Inode} {bs : List UInt32} (R : Removed s s1 f p c j) (L : Linked s1 s' n p c v bs i)
  (hf : s.lookup p c = some f)
include hI R L hf

/-- A file entered where one of the same name was deleted: paths to directories are kept. -/
theorem Removed.resolve_dir_overwrite {cs : List (List UInt8)} {e : UInt32}
    (h : s.resolve cs = some e) (he : s.IsDir e) : s'.resolve cs = some e := by
  have hI1 := R.inv hI
  have hroot : s'.superblock.rootInode = s.superblock.rootInode :=
    (L.inv hI1).shape.root.trans hI.shape.root.symm
  unfold FsState.resolve at h ⊢
  rw [hroot]
  -- no step on the way to a directory goes by the entry that is replaced
  refine walk_of_agree h fun _ c' es x y _ _ hxy hy => ?_
  have hyf := R.ne_of_isDir (Inv.isDir_on_way he hy)
  obtain ⟨hc', hx, -⟩ := Inv.lookup_some hxy
  rw [L.lookup_ne hI1 (R.usable_iff.mpr hx) hc', R.lookup_old hI hxy hyf]
  rintro rfl rfl
  rw [hf] at hxy
  cases hxy
  exact hyf rfl

theorem Removed.resolve_overwrite {ds : List (List UInt8)} (hds : s.resolve ds = some p) :
    s'.resolve (ds ++ [c]) = some n := by
  have hI1 := R.inv hI
  obtain ⟨_, hp, hfind⟩ := Inv.lookup_some hf
  have hp' := R.resolve_dir_overwrite hI L hf hds hp.isDir
  rw [resolve_concat, hp']
  -- the new file is at or before the slot the old one left
  obtain ⟨j', hj', hfirst⟩ := find_eq_some_iff.mp hfind
  obtain ⟨-, rfl⟩ := hI.slot_file_unique hp hp R.file hj' R.slot
  have hij : i ≤ j' := L.slot_le (by rw [R.unlinked, Function.update_self])
  refine L.lookup_new hI1 (R.usable_iff.mpr hp) ?_ fun l hl e hle => ?_
  · rintro rfl
    have := last_ne hj'
    omega
  · exact hfirst l (lt_of_lt_of_le hl hij) e ((R.slot_iff hI hp).mp hle).1

end Overwrite

theorem Cleared.resolve_dir {s s' : FsState} (hI : Inv s) {p : UInt32} {c : List UInt8}
    (C : Cleared s p c s') {cs : List (List UInt8)} {e : UInt32} (h : s.resolve cs = some e)
    (he : s.IsDir e) : s'.resolve cs = some e := by
  cases C with
  | deleted _ R => exact R.resolve_dir hI h he
  | kept => exact h

theorem Cleared.usable {s s' : FsState} {p : UInt32} {c : List UInt8} (C : Cleared s p c s')
    {d : UInt32} (hd : s.UsableDir d) : s'.UsableDir d := by
  cases C with
  | deleted _ R => exact R.usable_iff.mpr hd
  | kept => exact hd

end EphemeralOS
