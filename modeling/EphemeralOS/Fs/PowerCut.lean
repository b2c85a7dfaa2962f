import EphemeralOS.Fs.Torn
import EphemeralOS.Fs.Writes

/-!
# Power cuts

Power may be lost after any of the sector transfers of a call (`CutAt`). Each
elementary change transfers a sector once at most, so the disk is then torn
between the states before and after one change (`Interrupted`), and a machine
restarted on it has everything but what the call deletes
(`Interrupted.keeps`).
-/

namespace EphemeralOS

open Path Directory

namespace FsW

variable {α β : Type}

theorem quiet_bind {m : FsM α} {s s' : FsState} {a : α} (h : m s = (a, s')) (f : α → FsW β) :
    (quiet m >>= f) s = f a s' := by
  refine (bind_apply (quiet m) f s).trans ?_
  simp only [quiet, h, List.nil_append]
  rfl

theorem writes_bind (w : FsW α) (f : α → FsW β) (s : FsState) :
    (w >>= f).writes s = w.writes s ++ (f (w.result s)).writes (w s).2 :=
  congrArg (fun r => r.1.2) (bind_apply w f s)

theorem writes_congr {w w' : FsW α} {s s' : FsState} (h : w s = w' s') :
    w.writes s = w'.writes s' := congrArg (fun r => r.1.2) h

def lbas (w : FsW α) (s : FsState) : List Nat := (w.writes s).map Prod.fst

theorem lbas_bind (w : FsW α) (f : α → FsW β) (s : FsState) :
    (w >>= f).lbas s = w.lbas s ++ (f (w.result s)).lbas (w s).2 := by
  rw [lbas, writes_bind, List.map_append]
  rfl

theorem lbas_congr {w w' : FsW α} {s s' : FsState} (h : w s = w' s') : w.lbas s = w'.lbas s' :=
  congrArg (List.map Prod.fst) (writes_congr h)

theorem lbas_pure (a : α) (s : FsState) : (pure a : FsW α).lbas s = [] := rfl

theorem lbas_quiet (m : FsM α) (s : FsState) : (quiet m).lbas s = [] := rfl

/-- The sector of a block that can be written. -/
def blockLbas (b : UInt32) : List Nat := if ValidBlock b then [fsDataStartSector + b.toNat] else []

theorem lbas_writeInodeBlock (b : UInt32) (sec : Sector) (s : FsState) :
    (writeInodeBlock b sec).lbas s = blockLbas b := by
  unfold lbas writes writeInodeBlock blockLbas
  by_cases hb : ValidBlock b
  · rw [if_pos hb, if_neg (validBlock_iff_not.mp hb)]
    rfl
  · rw [if_neg hb, if_pos (not_not.mp (mt validBlock_iff_not.mpr hb))]
    rfl

theorem lbas_objectWrites (lba : Nat) (l : List UInt8) (n : Nat) :
    (objectWrites lba l n).map Prod.fst = (List.range n).map (lba + ·) := by
  rw [objectWrites, List.map_map]
  rfl

theorem lbas_syncInodeTable (s : FsState) :
    syncInodeTable.lbas s = (List.range 24).map (101 + ·) := lbas_objectWrites _ _ _

theorem lbas_syncBlockBitmap (s : FsState) : syncBlockBitmap.lbas s = [151] := lbas_objectWrites _ _ _

theorem lbas_syncSuperblock (s : FsState) : syncSuperblock.lbas s = [100] := rfl

end FsW

/-- The sectors of the disk when power is lost during a call: some of the transfers have been
made. -/
def CutAt {α : Type} (w : FsW α) (s : FsState) (sectors : Nat → Sector) : Prop :=
  ∃ ws, ws <+: w.writes s ∧ sectors = (s.disk.writeAll ws).sectors

section Cuts

variable {α β : Type} {w : FsW α} {m : FsM α} {s : FsState} {sectors : Nat → Sector}

theorem CutAt.congr {w' : FsW α} (h : w s = w' s) (hc : CutAt w s sectors) : CutAt w' s sectors := by
  rw [CutAt, FsW.writes_congr h] at hc
  exact hc

theorem CutAt.pure {a : α} (hc : CutAt (Pure.pure a : FsW α) s sectors) : sectors = s.disk.sectors := by
  obtain ⟨ws, hws, rfl⟩ := hc
  rw [List.prefix_nil.mp hws]
  rfl

theorem CutAt.bind {f : α → FsW β} (h : Traces w m) (hc : CutAt (w >>= f) s sectors) :
    CutAt w s sectors ∨ CutAt (f (m s).1) (m s).2 sectors := by
  obtain ⟨ws, hws, rfl⟩ := hc
  rw [FsW.writes_bind, h.result, h.state] at hws
  rcases List.prefix_or_prefix_of_prefix hws (List.prefix_append (w.writes s) _) with hle | hge
  · exact .inl ⟨ws, hle, rfl⟩
  · obtain ⟨ws', rfl⟩ := hge
    refine .inr ⟨ws', (List.prefix_append_right_inj _).mp hws, ?_⟩
    rw [Disk.writeAll_append]
    exact Disk.sectors_writeAll_congr ws' (h.disk s).symm

theorem sectors_writeAll_of_not_mem {ws : List SectorWrite} {x : Nat} (hx : x ∉ ws.map Prod.fst)
    (d : Disk) : (d.writeAll ws).sectors x = d.sectors x := by
  induction ws generalizing d with
  | nil => rfl
  | cons w ws ih =>
    rw [List.map_cons, List.mem_cons, not_or] at hx
    rw [Disk.writeAll, ih hx.2, Disk.sectors_write, if_neg hx.1]

/-- **When no sector is transferred twice**, a cut leaves each as before or as after the call. -/
theorem CutAt.torn (h : Traces w m) (hnd : (w.lbas s).Nodup) (hc : CutAt w s sectors) :
    Torn s (m s).2 sectors := by
  obtain ⟨ws, ⟨ws', hws⟩, rfl⟩ := hc
  intro x
  rw [h.disk s, ← hws, Disk.writeAll_append]
  rw [FsW.lbas, ← hws, List.map_append, List.nodup_append] at hnd
  by_cases hx : x ∈ ws.map Prod.fst
  · right
    rw [sectors_writeAll_of_not_mem fun hx' => hnd.2.2 x hx x hx' rfl]
  · left
    rw [sectors_writeAll_of_not_mem hx]

end Cuts

/-! ## No sector is transferred twice -/

theorem nodup_data_append {as bs : List Nat} (ha : as.Nodup) (hb : bs.Nodup)
    (hda : ∀ a ∈ as, fsDataStartSector ≤ a) (hdb : ∀ b ∈ bs, b < fsDataStartSector) :
    (as ++ bs).Nodup := by
  rw [List.nodup_append]
  exact ⟨ha, hb, fun a hxa b hxb e => absurd (hda a hxa) (Nat.not_le.mpr (e ▸ hdb b hxb))⟩

namespace FsW

theorem mem_blockLbas {b : UInt32} {x : Nat} (h : x ∈ blockLbas b) :
    ValidBlock b ∧ x = fsDataStartSector + b.toNat := by
  unfold blockLbas at h
  split at h
  · next hv => exact ⟨hv, List.mem_singleton.mp h⟩
  · cases h

theorem nodup_blockLbas (b : UInt32) : (blockLbas b).Nodup := by
  unfold blockLbas
  split
  · exact List.nodup_singleton _
  · exact List.nodup_nil

theorem lbas_linkEntry (p : UInt32) (name : List UInt8) (n : UInt32) (s : FsState) :
    (linkEntry p name n).lbas s = [] ∨
      (linkEntry p name n).lbas s = blockLbas ((s.inodeTable p).blocks 0) := by
  unfold linkEntry
  rw [lbas_congr (quiet_bind (show FsM.gets _ s = _ from rfl) _),
    lbas_congr (quiet_bind (Prod.mk.eta (p := readDirBlock _ s)).symm _)]
  cases addEntry _ name n with
  | none => exact .inl rfl
  | some d =>
    right
    simp only [lbas_bind, lbas_pure, List.append_nil, lbas_writeInodeBlock]

theorem lbas_linkEntry_le (p : UInt32) (name : List UInt8) (n : UInt32) (s : FsState) :
    ((linkEntry p name n).lbas s).Nodup ∧ ∀ x ∈ (linkEntry p name n).lbas s,
      ValidBlock ((s.inodeTable p).blocks 0) ∧
        x = fsDataStartSector + ((s.inodeTable p).blocks 0).toNat := by
  rcases lbas_linkEntry p name n s with h | h
  · rw [h]
    exact ⟨List.nodup_nil, fun x hx => absurd hx List.not_mem_nil⟩
  · rw [h]
    exact ⟨nodup_blockLbas _, fun x hx => mem_blockLbas hx⟩

/-- The end of a creation: fresh blocks have been written, the entry is made, and the tables are
synced or the inode given up. -/
theorem nodup_link {s : FsState} {p n : UInt32} (hr : Ready s p) (name : List UInt8) {h : FsState}
    (hinode : h.inodeTable p = s.inodeTable p) {bs : List UInt32} (hnd : bs.Nodup)
    (hfresh : ∀ b ∈ bs, ValidBlock b ∧ s.bit b = false) {tables : List Nat}
    (htables : tables.Nodup ∧ ∀ x ∈ tables, x < fsDataStartSector) :
    (bs.map (fun b => fsDataStartSector + b.toNat) ++
      ((linkEntry p name n).lbas h ++ tables)).Nodup := by
  obtain ⟨hl, hmem⟩ := lbas_linkEntry_le p name n h
  rw [hinode] at hmem
  rw [← List.append_assoc]
  refine nodup_data_append ?_ htables.1 (fun x hx => ?_) htables.2
  · refine List.nodup_append.mpr ⟨hnd.map fun a b e => dataSector_inj e, hl, fun x hx y hy e => ?_⟩
    obtain ⟨b, hb, rfl⟩ := List.mem_map.mp hx
    obtain ⟨hv, hy⟩ := hmem y hy
    -- the parent's block is in use, and a fresh one is not
    have hbit := hr.parent hv
    rw [← dataSector_inj (e.trans hy), (hfresh b hb).2] at hbit
    cases hbit
  · rcases List.mem_append.mp hx with hx | hx
    · obtain ⟨b, -, rfl⟩ := List.mem_map.mp hx
      exact Nat.le_add_right _ _
    · rw [(hmem x hx).2]
      exact Nat.le_add_right _ _

theorem lbas_finish (c : Prop) [Decidable c] (n : UInt32) (w : FsW Int) (s : FsState) :
    (if c then (do quiet (FsM.modify (freeInode n)); return -1) else w).lbas s =
      if c then [] else w.lbas s := by
  split
  · simp only [lbas_bind, lbas_quiet, lbas_pure, List.append_nil]
  · rfl

theorem tables_finish {c : Prop} [Decidable c] {tables : List Nat}
    (h : tables.Nodup ∧ ∀ x ∈ tables, x < fsDataStartSector) :
    (if c then [] else tables).Nodup ∧ ∀ x ∈ (if c then [] else tables), x < fsDataStartSector := by
  split
  · exact ⟨List.nodup_nil, fun x hx => absurd hx List.not_mem_nil⟩
  · exact h

theorem nodup_makeDir {s : FsState} {p : UInt32} (hr : Ready s p) (name : List UInt8) :
    ((makeDir p name).lbas s).Nodup := by
  unfold makeDir
  rw [lbas_congr (quiet_bind (show FsM.gets _ s = _ from rfl) _)]
  by_cases hp : (s.inodeTable p).type = inodeTypeDir
  case neg => rw [if_pos hp]; exact List.nodup_nil
  rw [if_neg (not_not.mpr hp)]
  rcases allocateInode_cases s hr.clean with ⟨ha, -⟩ | ⟨n, h, ha, H⟩
  · rw [lbas_congr (quiet_bind ha _), if_pos rfl]
    exact List.nodup_nil
  have hpn : p ≠ n := fun e => by
    rw [e, H.free] at hp
    exact absurd hp (by decide)
  rw [lbas_congr (quiet_bind ha _), if_neg (ne_noNumber_of_lt H.num),
    lbas_congr (quiet_bind (show FsM.modify _ h = _ from rfl) _), H.inode]
  have H := H.setInode (w := ⟨inodeTypeDir, 0, fun _ => 0, p⟩) rfl
  rcases H.allocateBlock_cases hr.block0 (by simp) with ⟨hb, -⟩ | ⟨b, h', hb, hlt, H'⟩
  · rw [lbas_congr (quiet_bind hb _), if_pos rfl]
    simp only [lbas_bind, lbas_quiet, lbas_pure, List.append_nil, List.nodup_nil]
  rw [lbas_congr (quiet_bind hb _), if_neg (ne_noNumber_of_lt_blocks hlt),
    lbas_congr (quiet_bind (show FsM.modify _ h' = _ from rfl) _)]
  have H' : Holding s (h'.setInodeBlock n 0 b) n (dirInode p b) [b] := H'
  have hw := H'.write (b := b) (by simp) (sectorOfDir (newDirBlock n p))
  have hone : blockLbas b = [b].map fun b => fsDataStartSector + b.toNat :=
    if_pos (H'.fresh b (by simp)).1
  simp only [lbas_bind, lbas_writeInodeBlock, lbas_finish, lbas_syncInodeTable,
    lbas_syncBlockBitmap, lbas_pure, hone]
  exact nodup_link hr name (hw.inode_ne hpn) H'.nodup H'.fresh (tables_finish (by decide))

theorem lbas_writeBuffer (b : UInt32) (s : FsState) : (writeBuffer b).lbas s = blockLbas b :=
  lbas_writeInodeBlock b s.sectorBuffer s

/-- The loop over the data writes fresh blocks, each once. -/
theorem lbas_writeFileBlocks {s : FsState} {n p size : UInt32} (data : Memory)
    (h0 : s.bit 0 = true) (rounds i : Nat) (remaining : UInt32) (h : FsState) (bs : List UInt32)
    (H : Holding s h n (fileInode p size bs) bs) (hi : bs.length = i) (hle : i + rounds ≤ 12) :
    ∃ new : List UInt32, (writeFileBlocks n data rounds i remaining).lbas h =
        new.map (fun b => fsDataStartSector + b.toNat) ∧ (bs ++ new).Nodup ∧
      ∀ b ∈ new, ValidBlock b ∧ s.bit b = false := by
  induction rounds generalizing i remaining h bs with
  | zero =>
    exact ⟨[], rfl, by rw [List.append_nil]; exact H.nodup, fun b hb => absurd hb List.not_mem_nil⟩
  | succ rounds ih =>
    unfold writeFileBlocks
    rcases H.allocateBlock_cases h0 (by omega) with ⟨hb, -⟩ | ⟨b, h', hb, hlt, H'⟩
    · rw [lbas_congr (quiet_bind hb _), if_pos rfl]
      refine ⟨[], ?_, by rw [List.append_nil]; exact H.nodup,
        fun b hb => absurd hb List.not_mem_nil⟩
      simp only [lbas_bind, lbas_quiet, lbas_pure, List.append_nil, List.map_nil]
    rw [lbas_congr (quiet_bind hb _), if_neg (ne_noNumber_of_lt_blocks hlt),
      lbas_congr (quiet_bind (show FsM.modify _ h' = _ from rfl) _)]
    rw [hi] at H'
    let sec := Sector.ofBytes (data.bytes (i * 512) (copySize remaining).toNat) 0
    have H'' := (H'.setBuffer sec).write (b := b) (by simp) sec
    rw [← hi, fileInode_append, hi] at H''
    obtain ⟨new, hlbas, hnd, hfresh⟩ := ih (i + 1) (remaining - copySize remaining) _ (bs ++ [b]) H''
      (by simp [hi]) (by omega)
    have hvalid := H''.fresh b (by simp)
    refine ⟨b :: new, ?_, by simpa using hnd, fun c hc => ?_⟩
    · rw [lbas_bind, lbas_bind, lbas_writeBuffer, List.map_cons]
      rw [show blockLbas b = [fsDataStartSector + b.toNat] from if_pos hvalid.1, ← hlbas]
      rfl
    · rcases List.mem_cons.mp hc with rfl | hc
      · exact hvalid
      · exact hfresh c hc

theorem nodup_makeFile {s : FsState} {p : UInt32} (hr : Ready s p)
    (hp : (s.inodeTable p).type = inodeTypeDir) (name : List UInt8) (data : Memory)
    {size : UInt32} (hsize : size ≤ fsMaxFileSize) : ((makeFile p name data size).lbas s).Nodup := by
  unfold makeFile
  rcases allocateInode_cases s hr.clean with ⟨ha, -⟩ | ⟨n, h, ha, H⟩
  · rw [lbas_congr (quiet_bind ha _), if_pos rfl]
    exact List.nodup_nil
  have hpn : p ≠ n := fun e => by
    rw [e, H.free] at hp
    exact absurd hp (by decide)
  have hset : FsM.modify (fun s => s.setInode n
      { s.inodeTable n with type := inodeTypeFile, size := size, parentInode := p }) h =
      ((), h.setInode n (fileInode p size [])) := by
    rw [FsM.modify, H.inode]
    rfl
  rw [lbas_congr (quiet_bind ha _), if_neg (ne_noNumber_of_lt H.num),
    lbas_congr (quiet_bind hset _)]
  have H := H.setInode (w := fileInode p size []) rfl
  have hneed := toNat_blocksNeeded hsize
  obtain ⟨new, hlbas, hnd, hfresh⟩ := lbas_writeFileBlocks data hr.block0 (blocksNeeded size).toNat 0
    size _ [] H rfl (by omega)
  have htrace := Traces.writeFileBlocks n data (blocksNeeded size).toNat 0 size
  rw [lbas_bind, htrace.result, htrace.state, hlbas]
  rcases writeFileBlocks_cases data hr.block0 (blocksNeeded size).toNat 0 size _ [] H rfl
    (by omega) (by omega) (fun k hk => absurd hk (Nat.not_lt_zero k)) with
    ⟨s', hw, -, -⟩ | ⟨h', bs, hw, H', -, -⟩
  · rw [hw]
    simp only [Bool.not_false, if_true, lbas_pure, List.append_nil]
    exact (hnd.of_append_right).map fun a b e => dataSector_inj e
  · rw [hw]
    simp only [Bool.not_true, Bool.false_eq_true, if_false, lbas_bind, lbas_finish,
      lbas_syncInodeTable, lbas_syncBlockBitmap, lbas_syncSuperblock, lbas_pure]
    exact nodup_link hr name (H'.inode_ne hpn) hnd.of_append_right hfresh (tables_finish (by decide))

theorem nodup_fsDeleteFile (path : List UInt8) (s : FsState) : ((fsDeleteFile path).lbas s).Nodup := by
  unfold fsDeleteFile
  -- three tests, behind lookups
  simp only [lbas_bind, lbas_quiet, List.nil_append]
  split
  · exact List.nodup_nil
  simp only [lbas_bind, lbas_quiet, List.nil_append]
  split
  · exact List.nodup_nil
  simp only [lbas_bind, lbas_quiet, List.nil_append]
  split
  · exact List.nodup_nil
  simp only [lbas_bind, lbas_quiet, List.nil_append, lbas_writeInodeBlock, lbas_syncInodeTable,
    lbas_syncBlockBitmap, lbas_pure]
  exact nodup_data_append (nodup_blockLbas _) (by decide)
    (fun x hx => (mem_blockLbas hx).2 ▸ Nat.le_add_right _ _) (by decide)

end FsW

/-! ## Interrupted calls -/

/-- The disk is torn between two states that the call goes through; both keep what is not `gone`. -/
def Interrupted (gone : UInt32 → Prop) (s : FsState) (sectors : Nat → Sector) : Prop :=
  ∃ t t', Inv t ∧ Synced t ∧ Synced t' ∧ (∀ i, gone i → ¬ t.IsDir i) ∧ Keeps gone s t ∧
    Keeps gone t t' ∧ Torn t t' sectors

namespace Interrupted

variable {gone : UInt32 → Prop} {s s1 : FsState} {sectors : Nat → Sector}

theorem keeps (h : Interrupted gone s sectors) (m : FsState) :
    Keeps gone s (reboot m (s.withSectors sectors)) := by
  obtain ⟨t, t', hI, hS, hS', hgone, K, K', ht⟩ := h
  exact K.trans (K'.torn m hI hS hS' ht hgone)

theorem none (hI : Inv s) (hS : Synced s) (hgone : ∀ i, gone i → ¬ s.IsDir i)
    (h : sectors = s.disk.sectors) : Interrupted gone s sectors :=
  ⟨s, s, hI, hS, hS, hgone, .refl gone s, .refl gone s, fun _ => .inl (by rw [h])⟩

theorem after (K : Keeps gone s s1) (h : Interrupted gone s1 sectors) :
    Interrupted gone s sectors := by
  obtain ⟨t, t', hI, hS, hS', hgone, K1, K', ht⟩ := h
  exact ⟨t, t', hI, hS, hS', hgone, K.trans K1, K', ht⟩

theorem mono (hg : ∀ i, gone i → s.IsFile i) (h : Interrupted nothing s sectors) :
    Interrupted gone s sectors := by
  obtain ⟨t, t', hI, hS, hS', -, K, K', ht⟩ := h
  exact ⟨t, t', hI, hS, hS', fun i hi => (K.isFile (hg i hi) id).not_isDir,
    K.mono fun _ h => h.elim, K'.mono fun _ h => h.elim, ht⟩

end Interrupted

section Calls

variable {gone : UInt32 → Prop} {s : FsState} {sectors : Nat → Sector} (hI : Inv s) (hS : Synced s)

theorem Mkdirs.keeps (hI : Inv s) {s' : FsState} {cs : List (List UInt8)} {q : Option UInt32}
    (M : Mkdirs s cs q s') (hP : Plain s cs) : Keeps gone s s' := by
  induction M with
  | found | rejected => exact .refl _ _
  | orphaned _ _ _ _ ih => exact ih hP.left
  | refused _ _ M hsame _ ih => exact (ih hP.left).trans (hsame.keeps (M.inv hI))
  | made hnone hname M hd hmade ih =>
    exact (ih hP.left).trans
      ((hmade.isLinked hd hname).keeps (M.inv hI) (M.name_free hI hP hnone))

theorem Mkdirs.synced (hI : Inv s) (hS : Synced s) {s' : FsState} {cs : List (List UInt8)}
    {q : Option UInt32} (M : Mkdirs s cs q s') : Synced s' :=
  (M.changes.preserves (fun _ _ hI hP ht => hP.change hI ht) hI hS).2

include hI hS

theorem CutAt.makeDir (hgone : ∀ i, gone i → ¬ s.IsDir i) {p : UInt32} (hp : s.Live p)
    {c : List UInt8} (hname : NameOk c) (hfree : s.lookup p c = none)
    (hc : CutAt (FsW.makeDir p c) s sectors) : Interrupted gone s sectors := by
  have ht := hc.torn (Traces.makeDir p c) (FsW.nodup_makeDir (hI.ready hp) c)
  rcases makeDir_cases (hI.ready hp) c with ⟨s', hrun, hsame, -⟩ | ⟨hdir, s', n, b, i, hrun, hmade⟩
  · rw [hrun] at ht
    exact ⟨s, s', hI, hS, hS.change hI (.same hsame : Change nothing nothing s s'), hgone,
      .refl gone s, hsame.keeps hI, ht⟩
  · rw [hrun] at ht
    have L := hmade.isLinked ⟨hp.1, hdir⟩ hname
    exact ⟨s, s', hI, hS, hS.change hI
      (.linked (fun _ => trivial) L : Change (fun _ => True) nothing s s'), hgone, .refl gone s,
      L.keeps hI hfree, ht⟩

theorem CutAt.makeFile (hgone : ∀ i, gone i → ¬ s.IsDir i) {p : UInt32} (hp : s.IsDir p)
    {c : List UInt8} (hname : NameOk c) (hfree : s.lookup p c = none) {data : Memory}
    {size : UInt32} (hsize : size ≤ fsMaxFileSize)
    (hc : CutAt (FsW.makeFile p c data size) s sectors) : Interrupted gone s sectors := by
  have ht := hc.torn (Traces.makeFile p c data size)
    (FsW.nodup_makeFile (hI.ready hp.live) hp.2 c data hsize)
  obtain ⟨r, s', hrun, M⟩ := makeFile_making hI hp hname
    (fun e he => by rw [hfree] at he; cases he) data hsize
  rw [hrun] at ht
  cases M with
  | failed hsame =>
    exact ⟨s, s', hI, hS, hS.change hI (.same hsame : Change nothing nothing s s'), hgone,
      .refl gone s, hsame.keeps hI, ht⟩
  | made _ L =>
    exact ⟨s, s', hI, hS, hS.change hI
      (.linked (fun _ => trivial) L : Change (fun _ => True) nothing s s'), hgone, .refl gone s,
      L.keeps hI hfree, ht⟩

/-- A cut in `fs_create_dir`, by induction on the depth of its recursion. -/
theorem CutAt.createDirDepth : ∀ (depth : Nat) (path : List UInt8), (∀ c ∈ comps path, 0 ∉ c) →
    (comps path).length < depth → Plain s (comps path) →
    CutAt (FsW.createDirDepth depth path) s sectors → Interrupted nothing s sectors
  | 0, path, _, hlen, _, _ => absurd hlen (Nat.not_lt_zero _)
  | depth + 1, path, h0, hlen, hP, hc => by
    have hs := hI.perfect
    have hno : ∀ i, nothing i → ¬ s.IsDir i := fun _ h => h.elim
    unfold FsW.createDirDepth FsW.createDirStep at hc
    rcases comps_cases path with hroot | ⟨ds, c, hpath⟩
    · rw [splitPath_root hroot] at hc
      exact .none hI hS hno (CutAt.pure hc)
    have hseg := comps_mem_segment hpath
    have hnz : c.length ≠ 0 := fun h => hseg.1 (List.length_eq_zero_iff.mp h)
    rw [splitPath_concat hpath] at hc
    simp only at hc
    by_cases hlong : fsMaxFilename ≤ c.length
    · rw [if_pos (.inr hlong)] at hc
      exact .none hI hS hno (CutAt.pure hc)
    have hname : NameOk c := ⟨hseg, h0 c (by rw [hpath]; simp), by omega⟩
    rw [if_neg (by omega)] at hc
    replace hc := hc.congr (FsW.quiet_bind (findInodeByPath_eq hs path) _)
    cases hres : s.resolve (comps path) with
    | some e =>
      rw [hres, Option.getD_some, if_pos (hI.resolve_ne_noNumber hres)] at hc
      exact .none hI hS hno (CutAt.pure hc)
    | none =>
      rw [hres, Option.getD_none, if_neg (not_not.mpr rfl)] at hc
      replace hc := hc.congr (FsW.quiet_bind (findInodeByPath_parent hs hpath) _)
      rw [hpath] at hres hP
      cases hparent : s.resolve ds with
      | some p =>
        rw [hparent, Option.getD_some, if_neg (hI.resolve_ne_noNumber hparent)] at hc
        exact CutAt.makeDir hI hS hno (hI.resolve_live hparent) hname
          (Mkdirs.name_free hI (.found hparent) hP hres) hc
      | none =>
        have hds : ds ≠ [] := by rintro rfl; cases hparent
        have hcanon : canon slash ds ≠ [slash] := fun e => hds (by
          rw [← comps_parent hpath, e]; rfl)
        have hcomps := comps_parent hpath
        rw [hparent, Option.getD_none, if_pos rfl, if_pos hcanon] at hc
        have h0' : ∀ d ∈ comps (canon slash ds), 0 ∉ d :=
          fun d hd => h0 d (by rw [hcomps] at hd; rw [hpath]; simp [hd])
        have hlen' : (comps (canon slash ds)).length < depth := by
          rw [hcomps]
          rw [hpath, List.length_append, List.length_singleton] at hlen
          omega
        rcases hc.bind (Traces.createDirDepth depth (canon slash ds)) with hc | hc
        · exact CutAt.createDirDepth depth _ h0' hlen' (by rw [hcomps]; exact hP.left) hc
        obtain ⟨r, q, s1, hrun, hM, hret⟩ := createDirDepth_mkdirs hI depth (canon slash ds) h0' hlen'
        rw [hcomps] at hM hret
        rw [hrun] at hc
        have hI1 := hM.inv hI
        have hS1 := hM.synced hI hS
        have hno1 : ∀ i, nothing i → ¬ s1.IsDir i := fun _ h => h.elim
        refine .after (hM.keeps hI hP.left) ?_
        by_cases hr : r ≠ 0
        · rw [if_pos hr] at hc
          exact .none hI1 hS1 hno1 (CutAt.pure hc)
        rw [if_neg hr] at hc
        replace hc := hc.congr (FsW.quiet_bind (findInodeByPath_parent hI1.perfect hpath) _)
        cases hp1 : s1.resolve ds with
        | none =>
          rw [hp1, Option.getD_none, if_pos rfl] at hc
          exact .none hI1 hS1 hno1 (CutAt.pure hc)
        | some p =>
          rw [hp1, Option.getD_some, if_neg (hI1.resolve_ne_noNumber hp1)] at hc
          have hq : q = some p := by
            rcases hret with ⟨-, hq⟩ | ⟨hr', -⟩
            · exact hq.trans hp1
            · exact absurd (not_not.mp hr) (by rw [hr']; decide)
          subst hq
          exact CutAt.makeDir hI1 hS1 hno1 (hI1.resolve_live hp1) hname (hM.name_free hI hP hres) hc

theorem CutAt.fsCreateDir {path : List UInt8} (h0 : ∀ c ∈ comps path, 0 ∉ c)
    (hP : Plain s (comps path)) (hc : CutAt (FsW.fsCreateDir path) s sectors) :
    Interrupted nothing s sectors :=
  CutAt.createDirDepth hI hS (path.length + 1) path h0
    (Nat.lt_succ_of_le (length_components slash path)) hP hc

theorem CutAt.fsDeleteFile {path : List UInt8} (hgone : ∀ i, gone i → ¬ s.IsDir i)
    (hfile : ∀ f, s.resolve (comps path) = some f → s.IsFile f → gone f)
    (hc : CutAt (FsW.fsDeleteFile path) s sectors) : Interrupted gone s sectors := by
  have ht := hc.torn (Traces.fsDeleteFile path) (FsW.nodup_fsDeleteFile path s)
  rcases fsDeleteFile_cases hI path with hrun | ⟨s', f, p, c, j, hrun, hf, R⟩
  · rw [hrun] at ht
    exact .none hI hS hgone (funext fun x => (ht x).elim id id)
  · rw [hrun] at ht
    exact ⟨s, s', hI, hS, hS.change hI (.removed trivial R : Change nothing (fun _ => True) s s'),
      hgone, .refl gone s, R.keeps hI (hfile f hf R.file), ht⟩

theorem CutAt.replaceFile (hU : NamesUnique s) {path : List UInt8} {ds : List (List UInt8)}
    {c : List UInt8} {p : UInt32} (hpath : comps path = ds ++ [c]) (hname : NameOk c)
    (hp : s.resolve ds = some p) (hnot : ∀ e, s.lookup p c = some e → ¬ s.IsDir e)
    (hgone : ∀ i, gone i → ¬ s.IsDir i) (hfile : ∀ f, s.lookup p c = some f → gone f)
    {data : Memory} {size : UInt32} (hsize : size ≤ fsMaxFileSize)
    (hc : CutAt (FsW.replaceFile path p c data size) s sectors) : Interrupted gone s sectors := by
  have hs := hI.perfect
  unfold FsW.replaceFile at hc
  replace hc := hc.congr (FsW.quiet_bind (show FsM.gets _ s = _ from rfl) _)
  by_cases hdir : (s.inodeTable p).type = inodeTypeDir
  case neg =>
    rw [if_pos hdir] at hc
    exact .none hI hS hgone (CutAt.pure hc)
  have hpd : s.IsDir p := ⟨(hI.resolve_live hp).1, hdir⟩
  have hres : s.resolve (comps path) = s.lookup p c := by rw [hpath, resolve_concat, hp]; rfl
  rw [if_neg (not_not.mpr hdir)] at hc
  replace hc := hc.congr (FsW.quiet_bind (findInodeByPath_eq hs path) _)
  rw [hres] at hc
  cases hf : s.lookup p c with
  | none =>
    rw [hf, Option.getD_none, if_neg (not_not.mpr rfl)] at hc
    exact CutAt.makeFile hI hS hgone hpd hname hf hsize hc
  | some f =>
    rw [hf, Option.getD_some, if_pos (lookup_ne_noNumber hf)] at hc
    have hisfile : s.IsFile f := (hI.shape.types f (hI.lookup_live hf)).resolve_right (hnot f hf)
    rcases hc.bind (Traces.fsDeleteFile path) with hc | hc
    · exact CutAt.fsDeleteFile hI hS hgone (fun g hg _ => hfile g (hres.symm.trans hg)) hc
    -- the file has been deleted, and its name is free
    obtain ⟨s1, j, hrun, R⟩ := fsDeleteFile_removes hI hpath hp hf hisfile
    rw [hrun] at hc
    have hfree := Cleared.lookup_none hI hU hnot (.deleted hf R)
    refine .after (R.keeps hI (hfile f hf)) ?_
    exact CutAt.makeFile (R.inv hI)
      (hS.change hI (.removed trivial R : Change nothing (fun _ => True) s s1))
      (fun i hi hd => hgone i hi (R.isDir_iff.mp hd)) (R.isDir_iff.mpr hpd) hname hfree hsize hc

theorem CutAt.fsCreateFile (hU : NamesUnique s) {path : List UInt8} (h0 : ∀ c ∈ comps path, 0 ∉ c)
    (hP : Plain s (comps path)) (hnot : ¬ s.IsDir (findInodeByPath path s).1)
    (hgone : ∀ i, gone i → s.IsFile i)
    (hfile : ∀ f, s.resolve (comps path) = some f → s.IsFile f → gone f) {data : Memory}
    {size : UInt32} (hc : CutAt (FsW.fsCreateFile path data size) s sectors) :
    Interrupted gone s sectors := by
  have hs := hI.perfect
  have hno : ∀ i, gone i → ¬ s.IsDir i := fun i hi => (hgone i hi).not_isDir
  unfold FsW.fsCreateFile at hc
  by_cases hsize : size > fsMaxFileSize
  · rw [if_pos hsize] at hc
    exact .none hI hS hno (CutAt.pure hc)
  rw [if_neg hsize] at hc
  rcases comps_cases path with hroot | ⟨ds, c, hpath⟩
  · rw [splitPath_root hroot] at hc
    exact .none hI hS hno (CutAt.pure hc)
  have hseg := comps_mem_segment hpath
  have hnz : c.length ≠ 0 := fun h => hseg.1 (List.length_eq_zero_iff.mp h)
  rw [splitPath_concat hpath] at hc
  simp only at hc
  by_cases hlong : fsMaxFilename ≤ c.length
  · rw [if_pos (.inr hlong)] at hc
    exact .none hI hS hno (CutAt.pure hc)
  have hname : NameOk c := ⟨hseg, h0 c (by rw [hpath]; simp), by omega⟩
  have hcomps := comps_parent hpath
  have h0' : ∀ d ∈ comps (canon slash ds), 0 ∉ d := fun d hd =>
    h0 d (by rw [hcomps] at hd; rw [hpath]; simp [hd])
  have hle := UInt32.not_lt.mp hsize
  rw [hpath] at hP
  rw [if_neg (by omega)] at hc
  replace hc := hc.congr (FsW.quiet_bind (findInodeByPath_parent hs hpath) _)
  cases hparent : s.resolve ds with
  | some p =>
    rw [hparent, Option.getD_some, if_neg (hI.resolve_ne_noNumber hparent)] at hc
    have hres : s.resolve (comps path) = s.lookup p c := by
      rw [hpath, resolve_concat, hparent]
      rfl
    have hdir : ∀ e, s.lookup p c = some e → ¬ s.IsDir e := fun e he => by
      rw [← findInodeByPath_of_resolve hI (hres.trans he)]
      exact hnot
    exact CutAt.replaceFile hI hS hU hpath hname hparent hdir hno (fun f hf =>
      hfile f (hres.trans hf) ((hI.shape.types f (hI.lookup_live hf)).resolve_right (hdir f hf)))
      hle hc
  | none =>
    rw [hparent, Option.getD_none, if_pos rfl] at hc
    have hnone : s.resolve (ds ++ [c]) = none := by rw [resolve_concat, hparent]; rfl
    rcases hc.bind (Traces.fsCreateDir (canon slash ds)) with hc | hc
    · exact .mono hgone (CutAt.fsCreateDir hI hS h0' (by rw [hcomps]; exact hP.left) hc)
    obtain ⟨r, q, s1, hrun, hM, hret⟩ := fsCreateDir_mkdirs hI h0'
    rw [hcomps] at hM hret
    rw [hrun] at hc
    have hI1 := hM.inv hI
    have hS1 := hM.synced hI hS
    have hU1 := hM.namesUnique hI hP.left hU
    have hkeep : Keeps nothing s s1 := hM.keeps hI hP.left
    have hno1 : ∀ i, gone i → ¬ s1.IsDir i := fun i hi => (hkeep.isFile (hgone i hi) id).not_isDir
    refine .after (hM.keeps hI hP.left) ?_
    by_cases hr : r ≠ 0
    · rw [if_pos hr] at hc
      exact .none hI1 hS1 hno1 (CutAt.pure hc)
    rw [if_neg hr] at hc
    replace hc := hc.congr (FsW.quiet_bind (findInodeByPath_parent hI1.perfect hpath) _)
    cases hp1 : s1.resolve ds with
    | none =>
      rw [hp1, Option.getD_none, if_pos rfl] at hc
      exact .none hI1 hS1 hno1 (CutAt.pure hc)
    | some p =>
      rw [hp1, Option.getD_some, if_neg (hI1.resolve_ne_noNumber hp1)] at hc
      have hq : q = some p := by
        rcases hret with ⟨-, hq⟩ | ⟨hr', -⟩
        · exact hq.trans hp1
        · exact absurd (not_not.mp hr) (by rw [hr']; decide)
      subst hq
      -- the name is free below a parent that is new
      have hfree := hM.name_free hI hP hnone
      have hvoid : ∀ e, s1.lookup p c ≠ some e := fun e he => by rw [hfree] at he; cases he
      exact CutAt.replaceFile hI1 hS1 hU1 hpath hname hp1 (fun e he => absurd he (hvoid e)) hno1
        (fun f hf => absurd hf (hvoid f)) hle hc

end Calls

/-! ## The calls -/

namespace FsOp

def traced : FsOp → FsW Int
  | createDir path => FsW.fsCreateDir path
  | createFile path data size => FsW.fsCreateFile path data size
  | deleteFile path => FsW.fsDeleteFile path

/-- The file that the call deletes or replaces. -/
def replaces (s : FsState) : FsOp → UInt32 → Prop
  | createDir _ => nothing
  | createFile path _ _ | deleteFile path => fun i => s.IsFile i ∧ (findInodeByPath path s).1 = i

/-- Power is lost after `k` transfers of the call, and the machine restarts with the memory `m`. -/
def powerCut (op : FsOp) (k : Nat) (m s : FsState) : FsState :=
  reboot m (s.withSectors (s.disk.writeAll ((op.traced.writes s).take k)).sectors)

theorem interrupted {s : FsState} (hI : Inv s) (hS : Synced s) (hU : NamesUnique s) (op : FsOp)
    (hop : op.plain s) {sectors : Nat → Sector} (hc : CutAt op.traced s sectors) :
    Interrupted (op.replaces s) s sectors := by
  cases op with
  | createDir path => exact CutAt.fsCreateDir hI hS path.comps_noNul hop hc
  | createFile path data size =>
    exact CutAt.fsCreateFile hI hS hU path.comps_noNul hop.1 hop.2 (fun _ h => h.1)
      (fun f hf hfile => ⟨hfile, findInodeByPath_of_resolve hI hf⟩) hc
  | deleteFile path =>
    exact CutAt.fsDeleteFile hI hS (fun _ h => h.1.not_isDir)
      (fun f hf hfile => ⟨hfile, findInodeByPath_of_resolve hI hf⟩) hc

theorem replaces_isFile {s : FsState} {op : FsOp} {i : UInt32} (h : op.replaces s i) :
    s.IsFile i := by
  cases op with
  | createDir => exact h.elim
  | createFile | deleteFile => exact h.1

theorem powerCut_perfect (op : FsOp) (k : Nat) (m s : FsState) : (op.powerCut k m s).disk.Perfect := by
  rw [powerCut, reboot_disk m (withSectors_perfect _ _)]
  exact withSectors_perfect _ _

end FsOp

/-- **A power cut loses nothing but what the call was about to change.** After any plain calls, one
more is cut short after any of its transfers, and the machine restarts: every path leads where it
led, unless that was the file the call deletes or replaces, directories are directories, and files
read the same. -/
theorem power_cut_keeps {s : FsState} (h : Run.Reached PlainlyInstalled FsOp.step FsOp.plain s)
    {op : FsOp} (hop : op.plain s) (k : Nat) (m : FsState) {path : List UInt8} {i : UInt32}
    (hi : (findInodeByPath path s).1 = i) (hfound : i ≠ noNumber) (hnot : ¬ op.replaces s i) :
    (findInodeByPath path (op.powerCut k m s)).1 = i ∧
      (s.IsDir i → (op.powerCut k m s).IsDir i) ∧
      (s.IsFile i → ∀ buffer maxSize, (fsReadFile path buffer maxSize (op.powerCut k m s)).1 =
        (fsReadFile path buffer maxSize s).1) := by
  obtain ⟨hS, hU⟩ := h.invariant (P := fun t => Sound t ∧ NamesUnique t)
    (fun t ht => ⟨ht.installed.sound.1, ht.namesUnique⟩)
    fun t op ht hop => ⟨ht.1.step op, op.namesUnique ht.1.inv ht.2 hop⟩
  have hI := hS.inv
  have K : Keeps (op.replaces s) s (op.powerCut k m s) :=
    (op.interrupted hI hS.synced hU hop ⟨_, List.take_prefix k _, rfl⟩).keeps m
  have hres : s.resolve (comps path) = some i := by
    rw [findInodeByPath_eq hI.perfect] at hi
    cases hr : s.resolve (comps path) with
    | none => exact absurd (by rw [← hi, hr]; rfl) hfound
    | some e => rw [← hi, hr]; rfl
  have hu := op.powerCut_perfect k m s
  have hres' := K.resolve (fun _ h => (FsOp.replaces_isFile h).not_isDir) hres hnot
  refine ⟨?_, fun hd => K.isDir hd hnot, fun hf buffer maxSize => ?_⟩
  · rw [findInodeByPath_eq hu, hres']
    rfl
  · have hin := K.inode i hf.live hnot
    rw [fsReadFile_file hI hres hf, fsReadFile_perfect hu hres' (K.isFile hf hnot)
      (by rw [hin]; exact (hI.files i hf).1), hin]
    unfold FsState.fileContent
    simp only [K.fileByte hf hnot]

/-- The power goes after the third transfer, while `/a` is written and while a directory is made
beside it. -/
theorem sampleInstall_power_cut :
    ((findInodeByPath (ascii "/home")
        ((FsOp.createFile samplePath sampleData 5).powerCut 3 blankState sampleInstall)).1 = 2 ∧
      ((FsOp.createFile samplePath sampleData 5).powerCut 3 blankState sampleInstall).IsDir 2) ∧
    ∃ s i, s.IsFile i ∧
      (findInodeByPath samplePath ((FsOp.createDir docPath).powerCut 3 blankState s)).1 = i ∧
      ∀ buffer maxSize, (fsReadFile samplePath buffer maxSize
          ((FsOp.createDir docPath).powerCut 3 blankState s)).1 =
        (fsReadFile samplePath buffer maxSize s).1 := by
  have hI := sampleInstall_inv
  have hhome : sampleInstall.resolve (comps (ascii "/home")) = some 2 := by
    rw [show comps (ascii "/home") = [] ++ [ascii "home"] by decide +kernel, resolve_concat,
      resolve_nil, Option.bind_some, hI.shape.root, sampleInstall_lookup (by decide +kernel)]
    decide +kernel
  have hdir : sampleInstall.IsDir 2 := by decide +kernel
  have hplain := sampleFile_plain 5
  refine ⟨?_, ?_⟩
  · have h := power_cut_keeps (.start sampleInstall_plain) hplain 3 blankState
      (findInodeByPath_of_resolve hI hhome) (by decide)
      fun h => sampleInstall_installed.not_isFile 2 h.1
    exact ⟨h.1, h.2.1 hdir⟩
  · obtain ⟨s', n, bs, i, hrun, M, L⟩ := sampleInstall_createFile sampleData 5 (by decide)
    have hreached : Run.Reached PlainlyInstalled FsOp.step FsOp.plain s' := by
      have h : Run.Reached PlainlyInstalled FsOp.step FsOp.plain _ :=
        .next (.start sampleInstall_plain) hplain
      rwa [FsOp.step_createFile, hrun] at h
    have hfile : s'.IsFile n := L.isFile_iff.mpr (.inl ⟨rfl, rfl⟩)
    have hsecond : (FsOp.createDir docPath).plain s' := plain_of_no_dots (by decide +kernel)
    have h := power_cut_keeps hreached hsecond 3 blankState
      (findInodeByPath_of_resolve (L.inv hI) (sampleFile_resolve L)) (ne_noNumber_of_lt hfile.1)
      id
    exact ⟨s', n, hfile, h.1, h.2.2 hfile⟩

end EphemeralOS
