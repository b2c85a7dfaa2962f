import EphemeralOS.Fs.RoundTrip
import EphemeralOS.Kernel.Memory
import Mathlib.Algebra.Order.BigOperators.Group.List
import Mathlib.Algebra.Order.Ring.Nat

/-!
# What the readers report

`fs_read_file` returns the size of the file, whatever part of it it has copied
(`reports_delivered_iff`). `fs_list_dir` returns the length of the text it
leaves, whole lines of the listing (`fsListDir_listing`).
-/

namespace EphemeralOS

open Path Directory Run

/-- `fs_read_file` returns -1 and leaves the buffer alone, or it returns how many bytes, from the
start of the buffer on, it has written, and these have room. -/
def ReportsDelivered (s : FsState) (path : List UInt8) (maxSize : UInt32) : Prop :=
  (∀ buffer, (fsReadFile path buffer maxSize s).1 = (-1, buffer)) ∨
    ∃ content : List UInt8, content.length ≤ maxSize.toNat ∧ ∀ buffer,
      (fsReadFile path buffer maxSize s).1 = ((content.length : Int), buffer.store 0 content)

/-- The file at the end of a path, if there is one, is no larger than the caller's buffer, nor than
its own blocks. -/
def DeliveredWhole (s : FsState) (path : List UInt8) (maxSize : UInt32) : Prop :=
  ∀ i, s.resolve (comps path) = some i → s.IsFile i →
    (s.inodeTable i).size ≤ maxSize ∧ (s.inodeTable i).size ≤ 6144

section ReadFile

variable {s : FsState} {v : Inode} {maxSize : UInt32}

/-- A file of at most 16384 bytes is reported by its size. -/
theorem toInt_size (h : v.size ≤ fsMaxFileSize) : toInt v.size = v.size.toNat := by
  have hle := UInt32.le_iff_toNat_le.mp h
  have hmax : fsMaxFileSize.toNat = 16384 := rfl
  exact toInt_eq (by omega)

theorem fileContent_whole (hfile : v.size ≤ fsMaxFileSize) (hmax : v.size ≤ maxSize)
    (hblocks : v.size ≤ 6144) (buffer : Memory) : s.fileContent v buffer maxSize =
      ((((List.range v.size.toNat).map (s.fileByte v)).length : Int),
        buffer.store 0 ((List.range v.size.toNat).map (s.fileByte v))) := by
  have hmax := UInt32.le_iff_toNat_le.mp hmax
  have hblocks : v.size.toNat ≤ 6144 := UInt32.le_iff_toNat_le.mp hblocks
  unfold FsState.fileContent
  rw [toInt_size hfile, List.length_map, List.length_range]
  congr 1
  funext a
  rw [store_apply, List.length_map, List.length_range]
  by_cases ha : a < v.size.toNat
  · rw [if_pos (by omega), if_pos (by omega), Nat.sub_zero, List.getD_eq_getElem _ _ (by simpa)]
    simp
  · rw [if_neg (by omega), if_neg (by omega)]

/-- What is reported to be in the buffer has been put there. -/
theorem size_of_reported (hfile : v.size ≤ fsMaxFileSize) {content : List UInt8}
    (h : ∀ buffer, s.fileContent v buffer maxSize =
      ((content.length : Int), buffer.store 0 content)) :
    v.size.toNat = content.length ∧ v.size ≤ 6144 := by
  have hlen : v.size.toNat = content.length := by
    have := congrArg Prod.fst (h fun _ => 0)
    simp only [FsState.fileContent, toInt_size hfile] at this
    omega
  refine ⟨hlen, ?_⟩
  rw [UInt32.le_iff_toNat_le]
  by_contra hlarge
  have hlarge : 6144 < v.size.toNat := Nat.not_le.mp hlarge
  -- byte 6144 is left as it was, whatever it was
  have hbyte : ∀ x : UInt8, x = content.getD 6144 0 := by
    intro x
    have := congrFun (congrArg Prod.snd (h fun _ => x)) 6144
    simp only [FsState.fileContent, store_apply] at this
    rwa [if_neg (by omega), if_pos (by omega)] at this
  exact absurd ((hbyte 0).trans (hbyte 1).symm) (by decide)

end ReadFile

/-- **`fs_read_file` reports what it delivered exactly if the file had room.** -/
theorem reports_delivered_iff {s : FsState} (h : Reachable s) (path : List UInt8)
    (maxSize : UInt32) : ReportsDelivered s path maxSize ↔ DeliveredWhole s path maxSize := by
  have hI := (Reachable.sound h).inv
  by_cases hfile : ∃ i, s.resolve (comps path) = some i ∧ s.IsFile i
  case neg =>
    refine iff_of_true (.inl fun buffer => ?_) fun i hr hf => absurd ⟨i, hr, hf⟩ hfile
    exact fsReadFile_fails hI (fun i hr hf => hfile ⟨i, hr, hf⟩) buffer maxSize
  obtain ⟨i, hr, hf⟩ := hfile
  have hsize := (hI.files i hf).1
  have hread := fsReadFile_file hI hr hf
  constructor
  · intro hrep j hj _
    obtain rfl : i = j := Option.some.inj (hr.symm.trans hj)
    rcases hrep with hfail | ⟨content, hlen, hrep⟩
    · have hint := congrArg Prod.fst ((hread (fun _ => 0) maxSize).symm.trans (hfail fun _ => 0))
      simp only [FsState.fileContent, toInt_size hsize] at hint
      omega
    · obtain ⟨heq, hle⟩ := size_of_reported hsize fun buffer =>
        (hread buffer maxSize).symm.trans (hrep buffer)
      exact ⟨UInt32.le_iff_toNat_le.mpr (heq ▸ hlen), hle⟩
  · intro hwhole
    obtain ⟨hmax, hle⟩ := hwhole i hr hf
    refine .inr ⟨(List.range (s.inodeTable i).size.toNat).map (s.fileByte (s.inodeTable i)), ?_,
      fun buffer => (hread buffer maxSize).trans (fileContent_whole hsize hmax hle buffer)⟩
    rw [List.length_map, List.length_range]
    exact UInt32.le_iff_toNat_le.mp hmax

/-- A file of 700 bytes at the root. -/
theorem sampleFile_resolves : ∃ s i, Reachable s ∧
    s.resolve (comps samplePath.val) = some i ∧ s.IsFile i ∧ (s.inodeTable i).size = 700 := by
  obtain ⟨s', n, bs, i, hrun, M, L⟩ := sampleInstall_createFile sampleData 700 (by decide)
  have hreach : Reachable s' := by
    have : Reachable _ :=
      sampleInstall_reachable.next (e := .createFile samplePath sampleData 700) trivial
    rwa [FsOp.step_createFile, hrun] at this
  exact ⟨s', n, hreach, sampleFile_resolve L, L.isFile_iff.mpr (.inl ⟨rfl, rfl⟩),
    by rw [L.inode]; rfl⟩

/-- It is reported by its size to a caller whose buffer is large enough. -/
theorem sampleFile_reported : ∃ s i, Reachable s ∧ s.resolve (comps samplePath.val) = some i ∧
    s.IsFile i ∧ ReportsDelivered s samplePath 700 := by
  obtain ⟨s, i, hreach, hres, hfile, hsize⟩ := sampleFile_resolves
  refine ⟨s, i, hreach, hres, hfile, (reports_delivered_iff hreach samplePath 700).mpr ?_⟩
  intro j hj _
  obtain rfl : i = j := Option.some.inj (hres.symm.trans hj)
  rw [hsize]
  decide

/-- And just so to a caller with a buffer of 100 bytes. -/
theorem short_buffer_overreported : ¬ ∀ (s : FsState) (path : CStr) (maxSize : UInt32),
    Reachable s → ReportsDelivered s path maxSize := by
  intro hall
  obtain ⟨s, i, hreach, hres, hfile, hsize⟩ := sampleFile_resolves
  have hI := (Reachable.sound hreach).inv
  have hread := fsReadFile_file hI hres hfile
  rcases hall s samplePath 100 hreach with hfail | ⟨content, hlen, hrep⟩
  · have hint := congrArg Prod.fst ((hread (fun _ => 0) 100).symm.trans (hfail fun _ => 0))
    simp only [FsState.fileContent, hsize] at hint
    exact absurd hint (by decide)
  · have hint := congrArg Prod.fst ((hread (fun _ => 0) 100).symm.trans (hrep fun _ => 0))
    simp only [FsState.fileContent, hsize] at hint
    have h700 : toInt 700 = 700 := rfl
    have h100 : (100 : UInt32).toNat = 100 := rfl
    omega

/-! ## `fs_list_dir` -/

/-- A name that listings show: printable, and not one of the two every directory has. -/
def Listable (c : List UInt8) : Prop :=
  c ≠ ascii "." ∧ c ≠ ascii ".." ∧ ∀ b ∈ c, 32 ≤ b ∧ b ≤ 126

instance (c : List UInt8) : Decidable (Listable c) := inferInstanceAs (Decidable (_ ∧ _ ∧ _))

namespace FsState

variable (s : FsState)

/-- The line of an entry: its name, a slash behind a directory's, and a newline. -/
def listLine (e : DirEntry) : List UInt8 :=
  e.name.cstr ++ (if s.IsDir e.inode then ascii "/" else []) ++ ascii "\n"

def listLines (d : DirBlock) (is : List (Fin 15)) : List (List UInt8) :=
  (is.filter fun i => (d i).inUse = 1 ∧ Listable (d i).name.cstr).map fun i => s.listLine (d i)

/-- The listing of directory `d`, line by line. -/
def listingLines (d : UInt32) : List (List UInt8) := s.listLines (s.dirBlock d) (List.finRange 15)

end FsState

/-- The first lines of `lines` as one text. -/
def firstLines (lines : List (List UInt8)) (k : Nat) : List UInt8 := (lines.take k).flatten

/-- The loop has come from `written` over the first `k` lines: they are there, and nothing before
them or behind the buffer has changed. -/
structure WrittenLines (maxSize : Int) (lines : List (List UInt8)) (written k : Nat) (buffer : Memory)
    (result : Memory × Nat) : Prop where
  count : result.2 = written + (firstLines lines k).length
  stands : result.1.Stands written (firstLines lines k)
  kept : ∀ a : Nat, a < written ∨ maxSize ≤ a → result.1 a = buffer a

/-- From `written` on, in any buffer, the loop lists some of the lines, and all of them if they end
64 bytes before the buffer does. -/
def Lists (maxSize : Int) (lines : List (List UInt8)) (written : Nat)
    (loop : Memory → Memory × Nat) : Prop :=
  ∃ k ≤ lines.length, (written + (firstLines lines k).length : Int) < maxSize ∧
    ((written + lines.flatten.length : Int) < maxSize - 64 → k = lines.length) ∧
    ∀ buffer, WrittenLines maxSize lines written k buffer (loop buffer)

section ListDir

variable {s : FsState} {d : DirBlock} {maxSize : Int} {i : Fin 15} {is : List (Fin 15)}

/-- The length of a name is 0 just for names that are not printable. -/
theorem listedLength_eq_zero_iff {c : List UInt8} (hc : c ≠ []) :
    listedLength c = 0 ↔ ¬ ∀ b ∈ c, 32 ≤ b ∧ b ≤ 126 := by
  have hpos := List.length_pos_of_ne_nil hc
  unfold listedLength
  simp only [List.all_eq_true, decide_eq_true_eq]
  split
  · next h => exact iff_of_false (by omega) (not_not.mpr h)
  · next h => exact iff_of_true rfl h

theorem listedLength_of_ne_zero {c : List UInt8} (h : listedLength c ≠ 0) :
    listedLength c = c.length := by
  unfold listedLength at h ⊢
  split
  · rfl
  · next hc => rw [if_neg hc] at h; exact absurd rfl h

theorem listLine_eq (e : DirEntry) : s.listLine e = e.name.cstr ++
    (if decide (e.inode < fsMaxInodes ∧ (s.inodeTable e.inode).type = inodeTypeDir) = true
      then ascii "/\n" else ascii "\n") := by
  unfold FsState.listLine
  rw [List.append_assoc]
  congr 1
  by_cases hdir : e.inode < fsMaxInodes ∧ (s.inodeTable e.inode).type = inodeTypeDir
  · rw [if_pos (show s.IsDir e.inode from hdir), if_pos (decide_eq_true hdir)]
    decide
  · rw [if_neg (show ¬ s.IsDir e.inode from hdir), if_neg (by rwa [decide_eq_true_eq])]
    rfl

theorem stands_line (buffer : Memory) (written : Nat) (name suffix : List UInt8) :
    ((buffer.store written (name ++ [0])).store (written + name.length) suffix).Stands written
      (name ++ suffix) := by
  refine Memory.stands_append.mpr ⟨?_, Memory.stands_store _ _ _⟩
  have hname := (Memory.stands_append.mp (Memory.stands_store buffer written (name ++ [0]))).1
  exact hname.store (.inr (Nat.le_refl _))

theorem listLines_skip (h : ¬ ((d i).inUse = 1 ∧ Listable (d i).name.cstr)) :
    s.listLines d (i :: is) = s.listLines d is := by
  unfold FsState.listLines
  rw [List.filter_cons_of_neg (by rwa [decide_eq_true_eq])]

theorem listLines_take (h : (d i).inUse = 1 ∧ Listable (d i).name.cstr) :
    s.listLines d (i :: is) = s.listLine (d i) :: s.listLines d is := by
  unfold FsState.listLines
  rw [List.filter_cons_of_pos (by rwa [decide_eq_true_eq]), List.map_cons]

variable {written : Nat}

theorem Lists.stop {lines : List (List UInt8)} (hw : (written : Int) < maxSize)
    (hfull : ¬ (written + lines.flatten.length : Int) < maxSize - 64) :
    Lists maxSize lines written fun buffer => (buffer, written) :=
  ⟨0, Nat.zero_le _, by simpa [firstLines] using hw, fun h => absurd h hfull,
    fun _ => ⟨rfl, rfl, fun _ _ => rfl⟩⟩

theorem Lists.line {name suffix : List UInt8} {lines : List (List UInt8)}
    {loop : Memory → Memory × Nat} (hsuffix : 1 ≤ suffix.length)
    (hroom : (written + name.length + suffix.length : Int) < maxSize)
    (h : Lists maxSize lines (written + name.length + suffix.length) loop) :
    Lists maxSize ((name ++ suffix) :: lines) written fun buffer =>
      loop ((buffer.store written (name ++ [0])).store (written + name.length) suffix) := by
  obtain ⟨k, hk, hlt, hall, hlisted⟩ := h
  have hfirst : firstLines ((name ++ suffix) :: lines) (k + 1) =
      (name ++ suffix) ++ firstLines lines k := rfl
  have hlen : (firstLines ((name ++ suffix) :: lines) (k + 1)).length =
      name.length + suffix.length + (firstLines lines k).length := by
    rw [hfirst, List.length_append, List.length_append]
  refine ⟨k + 1, by rw [List.length_cons]; omega, by push_cast at hlt; omega, fun hfits => ?_,
    fun buffer => ?_⟩
  · rw [List.flatten_cons, List.length_append, List.length_append] at hfits
    rw [List.length_cons, hall (by push_cast at hfits ⊢; omega)]
  · obtain ⟨hcount, hstands, hkept⟩ :=
      hlisted ((buffer.store written (name ++ [0])).store (written + name.length) suffix)
    refine ⟨by rw [hcount, hlen]; omega, ?_, fun a ha => ?_⟩
    · rw [hfirst]
      refine Memory.stands_append.mpr ⟨?_, ?_⟩
      · refine (stands_line buffer written name suffix).congr fun a _ ha => hkept a (.inl ?_)
        rw [List.length_append] at ha
        omega
      · rw [List.length_append, ← Nat.add_assoc]
        exact hstands
    · rw [hkept a (by omega), store_apply, if_neg (by omega), store_apply, List.length_append,
        List.length_singleton, if_neg (by omega)]

/-- **The loop of `fs_list_dir`**, by induction on the slots left. -/
theorem listEntries_lists (hname : ∀ i, (d i).inUse = 1 → (d i).name.cstr ≠ []) :
    ∀ (is : List (Fin 15)) (written : Nat), (written : Int) < maxSize →
      Lists maxSize (s.listLines d is) written fun buffer => listEntries s d maxSize is buffer written
  | [], written, hw => ⟨0, Nat.le_refl _, by simpa [firstLines] using hw, fun _ => rfl,
      fun _ => ⟨rfl, rfl, fun _ _ => rfl⟩⟩
  | i :: is, written, hw => by
    simp only [listEntries]
    by_cases hroom : (written : Int) < maxSize - 64
    case neg =>
      simp only [if_pos hroom]
      exact .stop hw (by omega)
    simp only [if_neg (not_not.mpr hroom)]
    -- a slot that is skipped has no line
    have hskip := listEntries_lists hname is written hw
    by_cases huse : (d i).inUse = 1
    case neg =>
      simp only [if_pos huse]
      rwa [listLines_skip fun h => huse h.1]
    simp only [if_neg (not_not.mpr huse)]
    by_cases hdots : (d i).name.cstr = ascii "." ∨ (d i).name.cstr = ascii ".."
    case pos =>
      simp only [if_pos hdots]
      rwa [listLines_skip fun h => hdots.elim h.2.1 h.2.2.1]
    simp only [if_neg hdots]
    have hzero := listedLength_eq_zero_iff (hname i huse)
    by_cases hlen : listedLength (d i).name.cstr = 0
    case pos =>
      simp only [if_pos hlen]
      rwa [listLines_skip fun h => hzero.mp hlen h.2.2.2]
    rw [not_or] at hdots
    have hshown : (d i).inUse = 1 ∧ Listable (d i).name.cstr :=
      ⟨huse, hdots.1, hdots.2, not_not.mp (mt hzero.mpr hlen)⟩
    simp only [if_neg hlen]
    simp only [listedLength_of_ne_zero hlen]
    rw [listLines_take hshown, listLine_eq]
    generalize hsuffix : (if decide ((d i).inode < fsMaxInodes ∧
      (s.inodeTable (d i).inode).type = inodeTypeDir) = true then ascii "/\n" else ascii "\n") =
        suffix
    have hsize : 1 ≤ suffix.length ∧ suffix.length ≤ 2 := by
      rw [← hsuffix]
      split <;> decide
    by_cases hend : (written : Int) + (d i).name.cstr.length + 2 ≥ maxSize
    · simp only [if_pos hend]
      refine .stop hw ?_
      rw [List.flatten_cons, List.length_append, List.length_append]
      push_cast
      omega
    · simp only [if_neg hend]
      exact .line hsize.1 (by omega) (listEntries_lists hname is _ (by push_cast; omega))

end ListDir

theorem noNul_firstLines (s : FsState) (d : DirBlock) (is : List (Fin 15)) (k : Nat) :
    0 ∉ firstLines (s.listLines d is) k := by
  intro h
  obtain ⟨line, hline, h0⟩ := List.mem_flatten.mp h
  obtain ⟨i, -, rfl⟩ := List.mem_map.mp (List.mem_of_mem_take hline)
  simp only [FsState.listLine, List.mem_append] at h0
  rcases h0 with (h0 | h0) | h0
  · exact CArray.cstr_noNul _ h0
  · split at h0
    · exact absurd h0 (by decide)
    · cases h0
  · exact absurd h0 (by decide)

section Directory

variable {s : FsState} (hI : Inv s) {d : UInt32} (hd : s.UsableDir d)
include hI hd

theorem entry_name {i : Fin 15} (h : (s.dirBlock d i).inUse = 1) :
    (s.dirBlock d i).name.cstr ≠ [] ∧ (s.dirBlock d i).name.cstr.length ≤ 27 := by
  have hE := hI.entries d hd
  have hslot : s.slots d i = some ((s.dirBlock d i).name.cstr, (s.dirBlock d i).inode) :=
    slotsOf_eq_some.mpr ⟨h, rfl, rfl⟩
  by_cases h0 : i = 0
  · rw [h0, hE.dot, Option.some.injEq, Prod.mk.injEq] at hslot
    rw [h0, ← hslot.1]
    decide
  by_cases h1 : i = 1
  · rw [h1, hE.dotdot, Option.some.injEq, Prod.mk.injEq] at hslot
    rw [h1, ← hslot.1]
    decide
  obtain ⟨hok, -⟩ := hE.entry i _ _ (by omega) hslot
  exact ⟨hok.segment.1, Nat.le_of_lt_succ hok.short⟩

/-- A listing is no longer than 14 lines of 29 characters. -/
theorem length_listing : (s.listingLines d).flatten.length ≤ 14 * 29 := by
  have hcount : (s.listingLines d).length < 15 := by
    unfold FsState.listingLines FsState.listLines
    rw [List.length_map]
    refine Nat.lt_of_lt_of_eq ?_ (List.length_finRange (n := 15))
    refine List.length_filter_lt_length_iff_exists.mpr ⟨14, List.mem_finRange _, ?_⟩
    rw [decide_eq_true_eq]
    exact fun h => slotsOf_eq_none.mp (slots_last_none s d) h.1
  have hline : ∀ line ∈ s.listingLines d, line.length ≤ 29 := by
    intro line hline
    obtain ⟨i, hi, rfl⟩ := List.mem_map.mp hline
    have hname := (entry_name hI hd (of_decide_eq_true (List.mem_filter.mp hi).2).1).2
    have hslash : (if s.IsDir (s.dirBlock d i).inode then ascii "/" else []).length ≤ 1 := by
      split <;> decide
    have hnewline : (ascii "\n").length = 1 := by decide
    rw [FsState.listLine, List.length_append, List.length_append]
    omega
  rw [List.length_flatten]
  have hsum := List.sum_le_card_nsmul ((s.listingLines d).map List.length) 29 fun n hn => by
    obtain ⟨line, hmem, rfl⟩ := List.mem_map.mp hn
    exact hline line hmem
  rw [List.length_map] at hsum
  change _ ≤ (s.listingLines d).length * 29 at hsum
  omega

end Directory

/-- What `fs_list_dir` leaves in a buffer of `maxSize` bytes: `text` with its NUL, and behind the
buffer what was there. -/
structure LeavesText (maxSize : Int) (text : List UInt8) (buffer : Memory) (result : Int × Memory) :
    Prop where
  length : result.1 = text.length
  text : result.2.Stands 0 (text ++ [0])
  behind : ∀ a : Nat, maxSize ≤ a → result.2 a = buffer a

/-- **`fs_list_dir` leaves whole lines of the listing**, all of them in a buffer of 512 bytes. -/
theorem fsListDir_listing {s : FsState} (h : Reachable s) {path : List UInt8} {d : UInt32}
    (hpath : s.resolve (comps path) = some d) (hd : s.UsableDir d) {maxSize : Int}
    (hmax : 1 ≤ maxSize) : ∃ k ≤ (s.listingLines d).length,
      ((firstLines (s.listingLines d) k).length : Int) < maxSize ∧
      0 ∉ firstLines (s.listingLines d) k ∧
      (512 ≤ maxSize → firstLines (s.listingLines d) k = (s.listingLines d).flatten) ∧
      ∀ buffer, LeavesText maxSize (firstLines (s.listingLines d) k) buffer
        (fsListDir path buffer maxSize s).1 := by
  have hI := (Reachable.sound h).inv
  have hlists : Lists maxSize (s.listingLines d) 0 fun buffer =>
      listEntries s (s.dirBlock d) maxSize (List.finRange 15) buffer 0 :=
    listEntries_lists (fun i hi => (entry_name hI hd hi).1) (List.finRange 15) 0 (by omega)
  obtain ⟨k, hk, hlt, hall, hlisted⟩ := hlists
  have htotal := length_listing hI hd
  refine ⟨k, hk, by simpa using hlt, noNul_firstLines _ _ _ _, fun h512 => ?_, fun buffer => ?_⟩
  · rw [firstLines, hall (by omega), List.take_length]
  · obtain ⟨hcount, hstands, hkept⟩ := hlisted (buffer.store 0 [0])
    rw [fsListDir_dir hI hpath hd]
    unfold FsState.listing
    simp only at hcount hstands hkept ⊢
    rw [Nat.zero_add] at hcount
    rw [hcount]
    refine ⟨rfl, ?_, fun a ha => ?_⟩
    · refine Memory.stands_append.mpr ⟨hstands.store (.inr (by omega)), ?_⟩
      rw [Nat.zero_add]
      exact Memory.stands_store _ _ _
    · simp only [store_apply, List.length_singleton]
      rw [if_neg (by omega), hkept a (.inr ha), store_apply, List.length_singleton,
        if_neg (by omega)]

/-- The root of a fresh file system, listed in 512 bytes. -/
theorem sampleInstall_listing : ((sampleInstall.listingLines 0).flatten.length : Int) < 512 ∧
    ∀ buffer, LeavesText 512 (sampleInstall.listingLines 0).flatten buffer
      (fsListDir [slash] buffer 512 sampleInstall).1 := by
  have hI := sampleInstall_inv
  have hroot : sampleInstall.resolve (comps [slash]) = some 0 := congrArg some hI.shape.root
  obtain ⟨k, -, hlt, -, hall, hleaves⟩ := fsListDir_listing sampleInstall_reachable hroot
    hI.usable_root (show (1 : Int) ≤ 512 by decide)
  rw [hall (Int.le_refl 512)] at hlt hleaves
  exact ⟨hlt, hleaves⟩

end EphemeralOS
