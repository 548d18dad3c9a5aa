import FlatFS.CreateLookup

namespace FlatFS
open Lib Function

/-- One small directory: the tables, an inode page for every bucket, the live files by name, and
the names that were unlinked and not created again. -/
structure NameState where
  sb : SbInfo
  page : ℕ → FfsInodePage
  file : CStr → Option FfsInodeInfo
  gone : List CStr

/-- The operations. A create carries the name field of the recycled inode, an unlink the record at
`b_private`, of which `init_handler_for_discard` leaves a part as it is. -/
inductive NameOp
  | create (name : CStr) (mem : FfsName)
  | unlink (name : CStr) (ioEnd : FfsIoEnd)

def FileName (name : CStr) : Prop := 0 ∉ name ∧ 0 < name.length ∧ name.length ≤ 255

instance (name : CStr) : Decidable (FileName name) := inferInstanceAs (Decidable (_ ∧ _ ∧ _))

def NameState.init (d : ℕ) (sb : SbInfo) : NameState where
  sb := { sb with hashtbl := update sb.hashtbl d (some initFileHt) }
  page _ := zeroPage
  file _ := none
  gone := []

/-- `ffs_mknod` with the `ffs_dirty_inode` that follows, while the bucket has a free slot; and
`ffs_unlink` with its completion callback. The last `ffs_dirty_inode` of an unlink finds the inode
invalid. A callback that took the file for one of a big table would read `big_dir_hashtbl[-1]`. -/
def nameStep (d : ℕ) (s : NameState) : NameOp → Option NameState
  | .create name mem =>
    (s.sb.hashtbl d).bind fun ht =>
      let r := flatfsFileSlotAllocByName ht d name
      let fi := smallFileInfo d r.1 mem name
      let b := fi.bucketId.toNat
      if FileName name ∧ s.file name = none ∧ r.1 ≠ minusOne then
        some {
          sb := { s.sb with hashtbl := update s.sb.hashtbl d (some r.2) }
          page := update s.page b (dirtyPage fi fi.valid (s.page b))
          file := update s.file name (some fi)
          gone := s.gone.filter (· ≠ name) }
      else none
  | .unlink name ioEnd =>
    (s.file name).bind fun fi =>
      let b := fi.bucketId.toNat
      let gone := invalidate fi
      if ioEnd.isBigDir = 0 then
        some {
          sb := callbackForDiscard s.sb (initHandlerForDiscard ioEnd fi)
          page := update s.page b (dirtyPage gone gone.valid (clearPage fi (s.page b)))
          file := update s.file name none
          gone := name :: s.gone }
      else none

def NameState.fileSeg (s : NameState) (d : ℕ) (name : CStr) : BitVec 64 :=
  (s.sb.hashtbl d).elim 0 fun ht => getSeg minFileBucketBits (fun b => s.page b.toNat) ht name

def NameState.inodeByName (s : NameState) (d : ℕ) (name : CStr) : BitVec 64 :=
  inodeBySeg (fileSlotBits + minFileBucketBits) (s.fileSeg d name) d

def GoneMissing (d : ℕ) (s : NameState) : Prop :=
  ∀ name ∈ s.gone, s.fileSeg d name = 0 ∧ s.inodeByName d name = 0

def entryNames (page : FfsInodePage) (slt : ℕ) : ℕ → UInt8 := (page.inode slt).filename.name

/-- None of the eight entries has the name, or entry 0 of bucket 0 has it, whose segment 0 means
that there is no such file. -/
def Hidden (names : ℕ → ℕ → UInt8) (name : CStr) : Prop :=
  (∀ slt < 8, strEq name (names slt) = false) ∨ smallBucket name = 0 ∧ strEq name (names 0) = true

instance (names : ℕ → ℕ → UInt8) (name : CStr) : Decidable (Hidden names name) :=
  inferInstanceAs (Decidable (_ ∨ _))

theorem segOf_eq_zero_iff (page : FfsInodePage) (name : CStr) :
    segOf (smallBucket name) (nameSlot page name) = 0 ↔ Hidden (entryNames page) name := by
  have hnone : nameSlot page name = none ↔ ∀ slt < 8, strEq name (entryNames page slt) = false := by
    rw [nameSlot, List.find?_eq_none]
    simp only [List.mem_range, Bool.not_eq_true]
    rfl
  have hzero : nameSlot page name = some 0 ↔ strEq name (entryNames page 0) = true := nameSlot_zero
  rw [Hidden, ← hnone, ← hzero]
  cases nameSlot page name with
  | none => simp [segOf]
  | some slt =>
    simp only [segOf, Option.some.injEq, reduceCtorEq, false_or]
    omega

/-- A name is missing when its bucket has no set slot, or its page does not show it. -/
theorem NameState.fileSeg_eq_zero_iff {s : NameState} {d : ℕ} {ht : HashTable}
    (hht : s.sb.hashtbl d = some ht) (name : CStr) :
    s.fileSeg d name = 0 ↔ (∀ slt < 8, ht.bit (smallBucket name) slt = false) ∨
      Hidden (entryNames (s.page (smallBucket name))) name := by
  rw [fileSeg, hht, Option.elim_some]
  by_cases hset : ∃ slt < 8, ht.bit (smallBucket name) slt = true
  · obtain ⟨slt, hs, hbit⟩ := hset
    have hno : ¬ ∀ slt < 8, ht.bit (smallBucket name) slt = false := by
      intro hall
      rw [hall slt hs] at hbit
      cases hbit
    rw [BitVec.toNat_eq, getSeg_toNat (by norm_num) hs hbit, or_iff_right hno,
      ← segOf_eq_zero_iff]
    rfl
  · have hall : ∀ slt < 8, ht.bit (smallBucket name) slt = false := by
      intro slt hs
      exact Bool.eq_false_iff.mpr fun hbit => hset ⟨slt, hs, hbit⟩
    refine iff_of_true (if_neg fun hany => hset ?_) (.inl hall)
    obtain ⟨slt, hs, hbit⟩ := List.any_eq_true.mp hany
    exact ⟨slt, List.mem_range.mp hs, hbit⟩

theorem goneMissing_iff {s : NameState} {d : ℕ} {ht : HashTable} (hht : s.sb.hashtbl d = some ht) :
    GoneMissing d s ↔ ∀ name ∈ s.gone, (∀ slt < 8, ht.bit (smallBucket name) slt = false) ∨
      Hidden (entryNames (s.page (smallBucket name))) name := by
  refine forall₂_congr fun name _ => ?_
  rw [← NameState.fileSeg_eq_zero_iff hht, and_iff_left_iff_imp]
  intro hz
  rw [NameState.inodeByName, inodeBySeg, if_pos hz]

structure NameInv (d : ℕ) (s : NameState) : Prop where
  table : ∃ ht, s.sb.hashtbl d = some ht
  file : ∀ name fi, s.file name = some fi →
    fi.dirId = d ∧ fi.bucketId = smallBucket name ∧ ∃ slt : ℕ, slt < 8 ∧ fi.slotId = slt

/-- The entries when a name is copied over the front of one; what stood behind it stays. -/
def copyName (names : ℕ → ℕ → UInt8) (slt : ℕ) (name : CStr) : ℕ → ℕ → UInt8 :=
  update names slt (memcpy (names slt) name)

theorem entryNames_dirtyPage {d : ℤ} {ino : BitVec 64} {mem : FfsName} {name : CStr} {slt : ℕ}
    (hname : FileName name) (hslot : inoToSlot ino = slt) (page : FfsInodePage) :
    entryNames (dirtyPage (smallFileInfo d ino mem name) 1 page) =
      copyName (entryNames page) slt name := by
  have hs : (smallFileInfo d ino mem name).slotId.toNat = slt := by
    change (inoToSlot ino).toNat = slt
    rw [hslot, Int.toNat_natCast]
  have hbytes : (smallFileInfo d ino mem name).filename.bytes = name :=
    fillName_bytes mem hname.1 hname.2.2
  funext j
  rw [entryNames, dirtyPage_name _ one_ne_zero, hs, hbytes, copyName, update_apply]
  split_ifs with hj
  · rw [hj]
    rfl
  · rfl

structure Created (d : ℕ) (s s' : NameState) (name : CStr) (ht : HashTable) (fi : FfsInodeInfo) :
    Prop where
  old : s.sb.hashtbl d = some ht
  free : ¬ (ht.buckets (smallBucket name)).Full
  fi_eq : fi.dirId = d ∧ fi.bucketId = smallBucket name ∧
    fi.slotId = (ht.buckets (smallBucket name)).freeSlot
  table : s'.sb.hashtbl d =
    some (ht.modify (smallBucket name) (·.take (ht.buckets (smallBucket name)).freeSlot))
  names : ∀ b, entryNames (s'.page b) = if b = smallBucket name then
    copyName (entryNames (s.page b)) (ht.buckets b).freeSlot name else entryNames (s.page b)
  file : s'.file = update s.file name (some fi)
  gone : s'.gone = s.gone.filter (· ≠ name)

structure Removed (d : ℕ) (s s' : NameState) (name : CStr) (ht ht' : HashTable)
    (fi : FfsInodeInfo) (slt : ℕ) : Prop where
  old : s.sb.hashtbl d = some ht
  live : s.file name = some fi
  slot : fi.slotId = slt
  table : s'.sb.hashtbl d = some ht'
  bit : ∀ b' slt', ht'.bit b' slt' = true ↔
    ¬ (b' = smallBucket name ∧ slt' = slt) ∧ ht.bit b' slt' = true
  names : ∀ b, entryNames (s'.page b) = entryNames (s.page b)
  file : s'.file = update s.file name none
  gone : s'.gone = name :: s.gone

section

variable {d : ℕ} {s s' : NameState} {name : CStr}

theorem create_created {mem : FfsName} (hd : d < 2 ^ 14)
    (h : nameStep d s (.create name mem) = some s') : ∃ ht fi, Created d s s' name ht fi := by
  obtain ⟨ht, hht, h⟩ := Option.bind_eq_some_iff.mp h
  dsimp only at h
  split_ifs at h with hg
  obtain ⟨hname, -, hne⟩ := hg
  cases h
  have hf : ¬ (ht.buckets (smallBucket name)).Full := by
    intro hf
    rw [fileSlotAlloc_full d hf] at hne
    exact hne rfl
  obtain ⟨-, htab, hbkt, hslot⟩ := fileSlotAlloc_free hd hf
  refine ⟨ht, smallFileInfo d (flatfsFileSlotAllocByName ht d name).1 mem name, ?_⟩
  constructor
  case old => exact hht
  case free => exact hf
  case fi_eq => exact ⟨rfl, hbkt, hslot⟩
  case table =>
    rw [← htab]
    exact update_self _ _ _
  case names =>
    intro b
    have hb : (smallFileInfo d (flatfsFileSlotAllocByName ht d name).1 mem name).bucketId.toNat =
        smallBucket name := by
      change (inoToBucket _).toNat = _
      rw [hbkt, Int.toNat_natCast]
    dsimp only
    rw [hb]
    split_ifs with h
    · rw [h, update_self]
      exact entryNames_dirtyPage hname hslot _
    · rw [update_of_ne h]
  case file => rfl
  case gone => rfl

theorem unlink_removed {ioEnd : FfsIoEnd} (hi : NameInv d s)
    (h : nameStep d s (.unlink name ioEnd) = some s') :
    ∃ ht ht' fi slt, Removed d s s' name ht ht' fi slt := by
  obtain ⟨fi, hfi, h⟩ := Option.bind_eq_some_iff.mp h
  dsimp only at h
  split_ifs at h with hsmall
  cases h
  obtain ⟨ht, hht⟩ := hi.table
  obtain ⟨hdir, hbkt, slt, hs, hslot⟩ := hi.file name fi hfi
  refine ⟨ht, (deleteFile ht (smallBucket name) slt).2, fi, slt, ?_⟩
  constructor
  case old => exact hht
  case live => exact hfi
  case slot => exact hslot
  case table =>
    simp only [callbackForDiscard, initHandlerForDiscard, hsmall, if_true, hdir,
      Int.toNat_natCast, update_self, hht, Option.map_some, hbkt, hslot]
  case bit =>
    intro b' slt'
    rw [deleteFile, deleteSlot_eq (smallBucket_lt name) hs]
    split_ifs with hset
    · exact HashTable.bit_release _ _ _ _ _
    · refine (and_iff_right_of_imp fun hbit hat => hset ?_).symm
      rwa [← hat.1, ← hat.2]
  case names =>
    intro b
    by_cases hb : b = fi.bucketId.toNat
    · rw [hb]
      dsimp only
      rw [update_self]
      rfl
    · exact congrArg entryNames (update_of_ne hb _ _)
  case file => rfl
  case gone => rfl

theorem NameInv.step {op : NameOp} (hd : d < 2 ^ 14) (hi : NameInv d s)
    (h : nameStep d s op = some s') : NameInv d s' := by
  cases op with
  | create name mem =>
    obtain ⟨ht, fi, hc⟩ := create_created hd h
    refine ⟨⟨_, hc.table⟩, fun name' fi' hfi' => ?_⟩
    rw [hc.file] at hfi'
    by_cases hn : name' = name
    · rw [hn, update_self, Option.some_inj] at hfi'
      rw [hn, ← hfi']
      exact ⟨hc.fi_eq.1, hc.fi_eq.2.1, _, Bucket.freeSlot_lt hc.free, hc.fi_eq.2.2⟩
    · rw [update_of_ne hn] at hfi'
      exact hi.file name' fi' hfi'
  | unlink name ioEnd =>
    obtain ⟨ht, ht', fi, slt, hr⟩ := unlink_removed hi h
    refine ⟨⟨_, hr.table⟩, fun name' fi' hfi' => ?_⟩
    rw [hr.file] at hfi'
    by_cases hn : name' = name
    · rw [hn, update_self] at hfi'
      cases hfi'
    · rw [update_of_ne hn] at hfi'
      exact hi.file name' fi' hfi'

end

/-- A create keeps every gone name of its bucket hidden when the new name has been copied over the
entry of the slot it takes. An unlink either empties the bucket, or takes a name that the page does
not show as it is. -/
def Forgets (d : ℕ) (s : NameState) : NameOp → Prop
  | .create name _ =>
    ∀ ht ∈ s.sb.hashtbl d, ∀ old ∈ s.gone, old ≠ name → smallBucket old = smallBucket name →
      Hidden (copyName (entryNames (s.page (smallBucket name)))
        (ht.buckets (smallBucket name)).freeSlot name) old
  | .unlink name _ =>
    ∀ ht ∈ s.sb.hashtbl d, ∀ fi ∈ s.file name,
      (∀ slt < 8, slt ≠ fi.slotId.toNat → ht.bit (smallBucket name) slt = false) ∨
        Hidden (entryNames (s.page (smallBucket name))) name

instance (d : ℕ) (s : NameState) : (op : NameOp) → Decidable (Forgets d s op)
  | .create _ _ => inferInstanceAs (Decidable (∀ ht ∈ s.sb.hashtbl d, _))
  | .unlink _ _ => inferInstanceAs (Decidable (∀ ht ∈ s.sb.hashtbl d, _))

section

variable {d : ℕ} {s s' : NameState} {name : CStr}

/-- The bucket of the new name has a set slot from now on, so that its page alone decides. -/
theorem Created.goneMissing_iff {ht : HashTable} {fi : FfsInodeInfo} {mem : FfsName}
    (hc : Created d s s' name ht fi) (hg : GoneMissing d s) :
    GoneMissing d s' ↔ Forgets d s (.create name mem) := by
  rw [FlatFS.goneMissing_iff hc.old] at hg
  rw [FlatFS.goneMissing_iff hc.table, hc.gone]
  have hset : ¬ ∀ slt < 8, (ht.modify (smallBucket name)
      (·.take (ht.buckets (smallBucket name)).freeSlot)).bit (smallBucket name) slt = false := by
    intro hall
    have hclear := hall _ (Bucket.freeSlot_lt hc.free)
    rw [Bool.eq_false_iff, ne_eq, HashTable.bit_take] at hclear
    exact hclear (.inl ⟨rfl, rfl⟩)
  simp only [List.mem_filter, decide_eq_true_eq, and_imp, Forgets, hc.old, Option.mem_some_iff,
    forall_eq', hc.names]
  refine forall₃_congr fun old hold hne => ?_
  by_cases hb : smallBucket old = smallBucket name
  · rw [hb, or_iff_right hset, if_pos rfl, imp_iff_right rfl]
  · refine iff_of_true ?_ fun h => absurd h hb
    rw [if_neg hb]
    refine (hg old hold).imp_left fun hall slt hs => ?_
    rw [HashTable.bit, HashTable.modify_of_ne ht hb]
    exact hall slt hs

theorem Removed.goneMissing_iff {ht ht' : HashTable} {fi : FfsInodeInfo} {slt : ℕ}
    {ioEnd : FfsIoEnd} (hr : Removed d s s' name ht ht' fi slt) (hg : GoneMissing d s) :
    GoneMissing d s' ↔ Forgets d s (.unlink name ioEnd) := by
  rw [FlatFS.goneMissing_iff hr.old] at hg
  rw [FlatFS.goneMissing_iff hr.table, hr.gone]
  have hclear : ∀ b slt', ht'.bit b slt' = false ↔
      (b = smallBucket name ∧ slt' = slt) ∨ ht.bit b slt' = false := by
    intro b slt'
    rw [Bool.eq_false_iff, ne_eq, hr.bit, not_and_or, not_not, Bool.not_eq_true]
  have hothers : ∀ old ∈ s.gone, (∀ slt < 8, ht'.bit (smallBucket old) slt = false) ∨
      Hidden (entryNames (s'.page (smallBucket old))) old := by
    intro old hold
    rw [hr.names]
    refine (hg old hold).imp_left fun hall slt hs => ?_
    exact (hclear _ _).mpr (.inr (hall slt hs))
  simp only [List.forall_mem_cons, Forgets, hr.old, hr.live, Option.mem_some_iff, forall_eq',
    hr.slot, Int.toNat_natCast, hr.names] at hothers ⊢
  rw [and_iff_left hothers]
  refine or_congr_left (forall₂_congr fun slt' _ => ?_)
  rw [hclear, and_iff_right rfl, ne_eq, or_iff_not_imp_left]

end

end FlatFS
