import EphemeralOS.Lib.Mixed
import EphemeralOS.Fs.Loading
import EphemeralOS.Fs.Names
import EphemeralOS.Fs.Reboot

/-!
# A disk between two states

When power is lost during a change, each sector of the disk is as it was before
the change or as it would have been after it (`Torn`). The inode table lies
across its sectors, so an inode that was being written may be read in pieces;
but what the change keeps (`Keeps`) is on the disk in both versions, and a
machine restarted on such a disk has it (`Keeps.torn`).
-/

namespace EphemeralOS

open Binary Directory

def FsState.withSectors (s : FsState) (sectors : Nat → Sector) : FsState :=
  { s with disk := ⟨sectors, []⟩ }

theorem withSectors_perfect (s : FsState) (sectors : Nat → Sector) :
    (s.withSectors sectors).disk.Perfect := rfl

/-- Every sector is as in `s` or as in `s'`. -/
def Torn (s s' : FsState) (sectors : Nat → Sector) : Prop :=
  ∀ x, sectors x = s.disk.sectors x ∨ sectors x = s'.disk.sectors x

/-- What is in `s` but for the inodes `gone` is in `s'`: the inodes, the contents of the files, and
the entries of the directories. -/
structure Keeps (gone : UInt32 → Prop) (s s' : FsState) : Prop where
  root : s'.superblock.rootInode = s.superblock.rootInode
  inode : ∀ i, s.Live i → ¬ gone i → s'.inodeTable i = s.inodeTable i
  data : ∀ i, s.IsFile i → ¬ gone i → ∀ k, (s.inodeTable i).blocks k ≠ 0 →
    s'.data ((s.inodeTable i).blocks k) = s.data ((s.inodeTable i).blocks k)
  lookup : ∀ d c e, s.lookup d c = some e → ¬ gone e → s'.lookup d c = some e

namespace Keeps

variable {gone : UInt32 → Prop} {s s1 s2 : FsState}

theorem refl (gone : UInt32 → Prop) (s : FsState) : Keeps gone s s :=
  ⟨rfl, fun _ _ _ => rfl, fun _ _ _ _ _ => rfl, fun _ _ _ h _ => h⟩

theorem live (K : Keeps gone s s1) {i : UInt32} (hi : s.Live i) (hg : ¬ gone i) : s1.Live i :=
  ⟨hi.1, by rw [K.inode i hi hg]; exact hi.2⟩

theorem isFile (K : Keeps gone s s1) {i : UInt32} (hi : s.IsFile i) (hg : ¬ gone i) : s1.IsFile i :=
  ⟨hi.1, by rw [K.inode i hi.live hg]; exact hi.2⟩

theorem isDir (K : Keeps gone s s1) {i : UInt32} (hi : s.IsDir i) (hg : ¬ gone i) : s1.IsDir i :=
  ⟨hi.1, by rw [K.inode i hi.live hg]; exact hi.2⟩

theorem usable (K : Keeps gone s s1) {d : UInt32} (hd : s.UsableDir d) (hg : ¬ gone d) :
    s1.UsableDir d := by
  unfold FsState.UsableDir
  rw [K.inode d hd.isDir.live hg]
  exact hd

theorem trans (K : Keeps gone s s1) (K' : Keeps gone s1 s2) : Keeps gone s s2 where
  root := K'.root.trans K.root
  inode i hi hg := (K'.inode i (K.live hi hg) hg).trans (K.inode i hi hg)
  data i hi hg k hk := by
    have h := K'.data i (K.isFile hi hg) hg k
    rw [K.inode i hi.live hg] at h
    exact (h hk).trans (K.data i hi hg k hk)
  lookup d c e h hg := K'.lookup d c e (K.lookup d c e h hg) hg

theorem mono {gone' : UInt32 → Prop} (K : Keeps gone s s1) (h : ∀ i, gone i → gone' i) :
    Keeps gone' s s1 where
  root := K.root
  inode i hi hg := K.inode i hi fun e => hg (h i e)
  data i hi hg := K.data i hi fun e => hg (h i e)
  lookup d c e he hg := K.lookup d c e he fun h' => hg (h e h')

/-- **Paths to what is kept lead there**, no directory being gone. -/
theorem resolve (K : Keeps gone s s1) (hgone : ∀ i, gone i → ¬ s.IsDir i)
    {cs : List (List UInt8)} {e : UInt32} (h : s.resolve cs = some e) (he : ¬ gone e) :
    s1.resolve cs = some e := by
  unfold FsState.resolve at h ⊢
  rw [K.root]
  refine walk_of_agree h fun _ c es x y _ _ hxy hy => K.lookup x c y hxy fun hg => ?_
  cases es with
  | nil =>
    cases hy
    exact he hg
  | cons c' es =>
    obtain ⟨z, hz, -⟩ := Option.bind_eq_some_iff.mp hy
    exact hgone y hg (Inv.lookup_some hz).2.1.isDir

theorem fileByte (K : Keeps gone s s1) {i : UInt32} (hi : s.IsFile i) (hg : ¬ gone i) (a : Nat) :
    s1.fileByte (s.inodeTable i) a = s.fileByte (s.inodeTable i) a := by
  have hblock : ∀ b, (∃ k, (s.inodeTable i).blocks k = b) ∨ b = 0 →
      (if ValidBlock b then s1.data b else Sector.zero) =
        (if ValidBlock b then s.data b else Sector.zero) := by
    intro b hb
    split
    · next hv =>
      obtain ⟨k, rfl⟩ := hb.resolve_right hv.1
      exact K.data i hi hg k hv.1
    · rfl
  unfold FsState.fileByte
  simp only
  rw [hblock]
  split
  · exact .inl ⟨_, rfl⟩
  · exact .inr rfl

end Keeps

section Changes

variable {gone : UInt32 → Prop} {s s' : FsState}

theorem Same.keeps (hI : Inv s) (h : Same s s') : Keeps gone s s' where
  root := by rw [h.superblock]
  inode i hi _ := h.agree.inode hi
  data i hi _ k hk := h.data _ (hI.blockUsed hi.live hk).2
  lookup d c e he _ := by rw [h.agree.lookup hI, he]

theorem Linked.keeps {n p : UInt32} {name : List UInt8} {v : Inode} {bs : List UInt32} {i : Fin 15}
    (hI : Inv s) (L : Linked s s' n p name v bs i) (hfree : s.lookup p name = none) :
    Keeps gone s s' where
  root := by rw [L.superblock]
  inode j hj _ := L.inode_live hj
  data j hj _ k hk := by
    refine L.kept _ (L.not_mem (hI.blockUsed hj.live hk).2) fun e => ?_
    rw [(hI.block_inj hj.live L.parentDir.live hk e).1] at hj
    exact hj.not_isDir L.parentDir
  lookup d c e he _ := L.lookup_old hI hfree he

theorem Removed.keeps {f p : UInt32} {c : List UInt8} {j : Fin 15} (hI : Inv s)
    (R : Removed s s' f p c j) (hf : gone f) : Keeps gone s s' where
  root := by rw [R.superblock]
  inode i _ hg := R.inode_ne fun e => hg (e ▸ hf)
  data i hi _ k hk := by
    refine R.kept _ fun e => ?_
    rw [(hI.block_inj hi.live R.parentDir.isDir.live hk e).1] at hi
    exact hi.not_isDir R.parentDir.isDir
  lookup d c e he hg := R.lookup_old hI he fun e => hg (e ▸ hf)

end Changes

/-! ## Torn disks -/

theorem object_succ (d : Disk) (lba n : Nat) :
    d.object lba (n + 1) = d.object lba n ++ (d.sectors (lba + n)).val := by
  simp only [Disk.object, List.range_succ, List.flatMap_append, List.flatMap_cons, List.flatMap_nil,
    List.append_nil]

/-- The bytes of an object on a torn disk are mixed. -/
theorem mixed_object {d d' d'' : Disk}
    (h : ∀ x, d''.sectors x = d.sectors x ∨ d''.sectors x = d'.sectors x) (lba n : Nat) :
    Mixed (d.object lba n) (d'.object lba n) (d''.object lba n) := by
  induction n with
  | zero => exact .left _ _
  | succ n ih =>
    simp only [object_succ]
    refine .append (length_object _ _ _) (length_object _ _ _) (length_object _ _ _) ih ?_
    rcases h (lba + n) with e | e
    · rw [e]
      exact .left _ _
    · rw [e]
      exact .right _ _

theorem steady_inode : inodeLayout.Steady :=
  .record (.seq Layout.steady_byte (.seq (Layout.steady_pad 3) (.seq Layout.steady_word32
    (.seq (Layout.steady_word32.array 12) Layout.steady_word32)))) _ _ _ fun _ => rfl

theorem Synced.storedTable_live {s : FsState} (hS : Synced s) {i : UInt32} (hi : s.Live i) :
    s.storedTable ⟨i.toNat, lt_fsMaxInodes.mp hi.1⟩ = s.inodeTable i := by
  have h := hS.table ⟨i.toNat, lt_fsMaxInodes.mp hi.1⟩
  rw [FsState.tableObject] at h
  simp only [UInt32.ofNat_toNat] at h
  exact (Inode.eq_of_visible h.symm hi.2).symm

section Torn

variable {gone : UInt32 → Prop} {t t' : FsState} {sectors : Nat → Sector} (m : FsState)
  (hI : Inv t) (hS : Synced t) (hS' : Synced t') (K : Keeps gone t t') (h : Torn t t' sectors)
include hS hS' h

theorem Torn.inode {i : UInt32} (hi : t.Live i) (he : t'.inodeTable i = t.inodeTable i) :
    (reboot m (t.withSectors sectors)).inodeTable i = t.inodeTable i := by
  have hi' : t'.Live i := ⟨hi.1, by rw [he]; exact hi.2⟩
  have hstored : t'.storedTable ⟨i.toNat, lt_fsMaxInodes.mp hi.1⟩ =
      t.storedTable ⟨i.toNat, lt_fsMaxInodes.mp hi.1⟩ := by
    rw [hS.storedTable_live hi, hS'.storedTable_live hi', he]
  have hmix : Mixed (t.disk.object fsInodeTableSector (sectorsNeeded inodeTableLayout.size))
      (t'.disk.object fsInodeTableSector (sectorsNeeded inodeTableLayout.size))
      ((t.withSectors sectors).disk.object fsInodeTableSector
        (sectorsNeeded inodeTableLayout.size)) :=
    mixed_object (fun x => h x) _ _
  rw [reboot_inode m (withSectors_perfect t sectors) hi.1]
  exact (steady_inode.element hmix hstored).trans (hS.storedTable_live hi)

include hI K

/-- **What a change keeps is there after a restart on the torn disk.** -/
theorem Keeps.torn (hgone : ∀ i, gone i → ¬ t.IsDir i) :
    Keeps gone t (reboot m (t.withSectors sectors)) := by
  have hinode : ∀ i, t.Live i → ¬ gone i →
      (reboot m (t.withSectors sectors)).inodeTable i = t.inodeTable i := fun i hi hg =>
    h.inode m hS hS' hi (K.inode i hi hg)
  have hdisk : (reboot m (t.withSectors sectors)).disk = ⟨sectors, []⟩ :=
    reboot_disk m (withSectors_perfect t sectors)
  have hdata : ∀ b, (reboot m (t.withSectors sectors)).data b = t.data b ∨
      (reboot m (t.withSectors sectors)).data b = t'.data b := fun b => by
    unfold FsState.data
    rw [hdisk]
    exact h _
  refine ⟨?_, hinode, fun i hi hg k hk => ?_, fun d c e he hg => ?_⟩
  · rw [reboot_superblock m (withSectors_perfect t sectors), hI.shape.root]
    rcases h fsSuperblockSector with e | e
    · rw [storedSuperblock_congr (s := t) e, hS.root]
    · rw [storedSuperblock_congr (s := t') e, hS'.root]
  · exact (hdata _).elim id fun e => e.trans (K.data i hi hg k hk)
  · have he' := K.lookup d c e he hg
    obtain ⟨hc, hd, -⟩ := Inv.lookup_some he
    have hd' := (Inv.lookup_some he').2.1
    have hnot : ¬ gone d := fun hgd => hgone d hgd hd.isDir
    have hin := hinode d hd.isDir.live hnot
    have hu : (reboot m (t.withSectors sectors)).UsableDir d := by
      unfold FsState.UsableDir
      rw [hin]
      exact hd
    have hslots : (reboot m (t.withSectors sectors)).slots d = t.slots d ∨
        (reboot m (t.withSectors sectors)).slots d = t'.slots d := by
      rw [hu.slots_eq, hd.slots_eq, hd'.slots_eq, hin, K.inode d hd.isDir.live hnot]
      exact (hdata _).imp (fun e => by rw [e]) fun e => by rw [e]
    unfold FsState.lookup at he he' ⊢
    rw [if_pos ⟨hc, hu⟩]
    rw [if_pos ⟨hc, hd⟩] at he
    rw [if_pos ⟨hc, hd'⟩] at he'
    rcases hslots with e | e
    · rw [e, he]
    · rw [e, he']

end Torn

end EphemeralOS
