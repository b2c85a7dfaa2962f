import EphemeralOS.Fs.Invariant

/-!
# States that no operation tells apart

`Agree s s'`: the two states have the same bitmap, the same inodes up to stale
parent numbers of free ones, and the same data in the blocks in use. A rollback
ends in a state that agrees with the one it started from (`Same.agree`), and so
does a reboot. Agreeing states have the same directories, the same lookups, and
the same invariant (`Agree.inv`).
-/

namespace EphemeralOS

open Directory Ownership

structure Agree (s s' : FsState) : Prop where
  root : s'.superblock.rootInode = s.superblock.rootInode
  table : ∀ i, i < fsMaxInodes → (s'.inodeTable i).visible = (s.inodeTable i).visible
  bits : ∀ b, b < fsMaxBlocks → s'.bit b = s.bit b
  data : ∀ b, s.BlockUsed b → s'.data b = s.data b
  faults : s'.disk.faults = s.disk.faults

theorem Same.agree {s s' : FsState} (h : Same s s') : Agree s s' where
  root := by rw [h.superblock]
  table := fun i _ => h.table i
  bits := fun b _ => h.bits b
  data := fun b hb => h.data b hb.2
  faults := h.faults

namespace Agree

variable {s s' : FsState} (h : Agree s s')
include h

theorem type {i : UInt32} (hi : i < fsMaxInodes) : (s'.inodeTable i).type = (s.inodeTable i).type :=
  (Inode.visible_eq_iff.mp (h.table i hi)).1

theorem live_iff {i : UInt32} : s'.Live i ↔ s.Live i :=
  and_congr_right fun hi => by rw [h.type hi]

theorem isFile_iff {i : UInt32} : s'.IsFile i ↔ s.IsFile i :=
  and_congr_right fun hi => by rw [h.type hi]

theorem isDir_iff {i : UInt32} : s'.IsDir i ↔ s.IsDir i :=
  and_congr_right fun hi => by rw [h.type hi]

theorem inode {i : UInt32} (hi : s.Live i) : s'.inodeTable i = s.inodeTable i :=
  hi.visible_eq (h.table i hi.1)

theorem usable_iff {d : UInt32} : s'.UsableDir d ↔ s.UsableDir d := by
  unfold FsState.UsableDir
  refine and_congr_right fun hd => ?_
  rw [h.type hd, (Inode.visible_eq_iff.mp (h.table d hd)).2.2.1]

theorem blockUsed_iff {b : UInt32} : s'.BlockUsed b ↔ s.BlockUsed b :=
  and_congr_right fun hb => by rw [h.bits b hb.2]

theorem blockRef (x : UInt32 × Fin 12) : s'.blockRef x = s.blockRef x := by
  apply Option.ext
  intro b
  rw [FsState.blockRef_eq_some, FsState.blockRef_eq_some, h.live_iff]
  exact and_congr_right fun hx => by rw [h.inode hx]

theorem rooted {i : UInt32} (hi : s.Rooted i) (hl : s.Live i) : s'.Rooted i := by
  induction hi with
  | root => exact .root
  | child hd _ ih =>
    have hp := h.inode hl
    refine .child (by rw [hp]; exact h.isDir_iff.mpr hd) ?_
    rw [hp]
    exact ih hd.live

theorem dirBlock (hB : Blocks s) {d : UInt32} (hd : s.UsableDir d) :
    s'.dirBlock d = s.dirBlock d := by
  have hused : s.BlockUsed ((s.inodeTable d).blocks 0) := hB.blockUsed hd.isDir.live hd.2.2.1
  unfold FsState.dirBlock
  simp only [h.inode hd.isDir.live, h.data _ hused]

theorem blocks (hB : Blocks s) : Blocks s' where
  clean i hi hfree := by
    obtain ⟨htype, hsize, hblocks, _⟩ := Inode.visible_eq_iff.mp (h.table i hi)
    rw [htype] at hfree
    rw [hsize, hblocks]
    exact hB.clean i hi hfree
  block0 := by rw [h.bits 0 (by decide)]; exact hB.block0
  owned :=
    { used_iff := fun b => by
        rw [h.blockUsed_iff, hB.owned.used_iff]; simp only [h.blockRef]
      inj := fun x y b hx hy => by
        rw [h.blockRef] at hx hy; exact hB.owned.inj x y b hx hy }

variable (hI : Inv s)
include hI

theorem slots {d : UInt32} (hd : s.UsableDir d) : s'.slots d = s.slots d :=
  congrArg slotsOf (h.dirBlock hI.blocks hd)

theorem lookup (d : UInt32) (c : List UInt8) : s'.lookup d c = s.lookup d c := by
  unfold FsState.lookup
  by_cases hd : s.UsableDir d
  · simp only [h.usable_iff, h.slots hI hd]
  · rw [if_neg fun e => hd (h.usable_iff.mp e.2), if_neg fun e => hd e.2]

/-- **Every path leads to the same inode.** -/
theorem resolve (cs : List (List UInt8)) : s'.resolve cs = s.resolve cs := by
  have : s'.lookup = s.lookup := funext fun d => funext fun c => h.lookup hI d c
  unfold FsState.resolve
  rw [this, h.root]

/-- **The invariant does not tell agreeing states apart.** -/
theorem inv : Inv s' where
  perfect := h.faults.trans hI.perfect
  blocks := h.blocks hI.blocks
  shape :=
    { root := h.root.trans hI.shape.root
      types := fun i hi => by
        rw [h.isFile_iff, h.isDir_iff]; exact hI.shape.types i (h.live_iff.mp hi)
      rootDir := by
        rw [h.isDir_iff, h.inode hI.shape.rootDir.1.live]; exact hI.shape.rootDir
      bin := by rw [h.isDir_iff, h.inode hI.shape.bin.1.live]; exact hI.shape.bin
      dirs := fun d hd h1 => by
        have hd := h.isDir_iff.mp hd
        rw [h.inode hd.live]; exact hI.shape.dirs d hd h1
      parents := fun i hi => by
        have hi := h.live_iff.mp hi
        rw [h.isDir_iff, h.inode hi]; exact hI.shape.parents i hi
      rooted := fun i hi => by
        have hi := h.live_iff.mp hi
        exact h.rooted (hI.shape.rooted i hi) hi }
  entries := fun d hd => by
    have hd := h.usable_iff.mp hd
    have hslots := h.slots hI hd
    have hE := hI.entries d hd
    exact
      { dot := by rw [hslots]; exact hE.dot
        dotdot := by rw [hslots, h.inode hd.isDir.live]; exact hE.dotdot
        entry := fun j c e hj hs => by
          rw [hslots] at hs
          obtain ⟨hc, he, h0, hp⟩ := hE.entry j c e hj hs
          exact ⟨hc, h.live_iff.mpr he, h0, by rw [h.inode he]; exact hp⟩
        distinct := fun j k c c' e hj hk h1 h2 => by
          rw [hslots] at h1 h2; exact hE.distinct j k c c' e hj hk h1 h2
        order := fun j k c e e' hjk he he' h1 h2 => by
          rw [hslots] at h1 h2 ⊢
          simp only [h.isDir_iff]
          exact hE.order j k c e e' hjk (h.isFile_iff.mp he) (h.isFile_iff.mp he') h1 h2 }
  files := fun i hi => by
    have hi := h.isFile_iff.mp hi
    rw [h.inode hi.live]; exact hI.files i hi

end Agree

end EphemeralOS
