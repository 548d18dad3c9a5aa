import FlatFS.ObjectInv

namespace FlatFS
open Lib

/-- A live file in slot `slt` of bucket `b` of its table, which the inode info leads to. -/
structure StoredFile (sb : SbInfo) (fi : FfsInodeInfo) (b slt : ℕ) : Prop where
  bucketId : fi.bucketId = b
  slotId : fi.slotId = slt
  bucket_lt :
    b < 2 ^ (if fi.isBigDir = 0 then minFileBucketBits else minFileBucketBits + minDirBits)
  slot_lt : slt < 8
  position : fi.isBigDir ≠ 0 → 0 ≤ fi.bigDirId
  live : sb.bit (fi.handle.table, b, slt) = true

/-- The handler set up for a file and then called stays in its tables, and clears the bit of the
file and no other one. -/
structure ClearsOwn (sb : SbInfo) (ioEnd : FfsIoEnd) (fi : FfsInodeInfo) (b slt : ℕ) : Prop where
  no_fault : ¬ callbackFaults sb (initHandlerForDiscard ioEnd fi)
  bits : ∀ q, (callbackForDiscard sb (initHandlerForDiscard ioEnd fi)).bit q = true ↔
    q ≠ (fi.handle.table, b, slt) ∧ sb.bit q = true

def FfsIoEnd.bits (e : FfsIoEnd) : ℕ :=
  if e.isBigDir = 0 then minFileBucketBits else minFileBucketBits + minDirBits

theorem callbackForDiscard_eq (sb : SbInfo) (e : FfsIoEnd) :
    callbackForDiscard sb e = sb.setTable e.table
      ((sb.table e.table).map fun ht => (deleteSlot e.bits ht e.bucketId e.slotId).2) := by
  unfold callbackForDiscard FfsIoEnd.table FfsIoEnd.bits
  split_ifs <;> rfl

/-- A delete clears the slot it is given and no other. Where the bucket number is too wide, it
clears nothing. -/
theorem bit_deleteSlot {sb : SbInfo} {t : TableId} {bits : ℕ} (hbits : bits ≤ 18)
    {bucketId : ℤ} (hb : bucketId ≠ 1 <<< bits) (slotId : ℤ) {q : TableId × ℕ × ℕ}
    (hq : q ≠ (t, bucketId.toNat % 2 ^ 18, slotId.toNat)) (h : sb.bit q = true) :
    (sb.setTable t ((sb.table t).map fun ht => (deleteSlot bits ht bucketId slotId).2)).bit q =
      true := by
  by_cases hqt : q.1 = t
  · cases htab : sb.table t with
    | none =>
      rw [SbInfo.bit, hqt, htab] at h
      cases h
    | some ht =>
      have hsame : (sb.setTable t (some ht)).bit q = true := by
        rw [SbInfo.bit, SbInfo.table_setTable, if_pos hqt, ← htab, ← hqt]
        exact h
      rw [Option.map_some, deleteSlot]
      split_ifs with hout hset
      · exact hsame
      · refine (SbInfo.bit_release htab _ _ q).mpr ⟨?_, h⟩
        have hpow : 2 ^ bits ≤ 2 ^ 18 := Nat.pow_le_pow_right (by norm_num) hbits
        rw [Nat.one_shiftLeft] at hout hb
        have hmod : bucketId.toNat % 2 ^ 18 = bucketId.toNat := Nat.mod_eq_of_lt (by omega)
        rwa [hmod] at hq
      · exact hsame
  · rw [SbInfo.bit_setTable_of_ne hqt]
    exact h

theorem bit_callback {sb : SbInfo} {e : FfsIoEnd} (hf : ¬ callbackFaults sb e)
    {q : TableId × ℕ × ℕ} (hq : q ≠ e.slot) (h : sb.bit q = true) :
    (callbackForDiscard sb e).bit q = true := by
  rw [FfsIoEnd.slot, FfsIoEnd.table, FfsIoEnd.bucket] at hq
  unfold callbackForDiscard
  unfold callbackFaults at hf
  split_ifs at hf hq ⊢ with hb
  · exact bit_deleteSlot (t := .small e.dirId.toNat) (by norm_num) (not_or.mp hf).1 _ hq h
  · exact bit_deleteSlot (t := .big e.bigDirId.toNat) (by norm_num)
      (not_or.mp (not_or.mp hf).2).1 _ hq h

/-- A record of the right kind leads to the table of the file, one of the other kind does not. -/
theorem initHandler_table_iff (ioEnd : FfsIoEnd) (fi : FfsInodeInfo) :
    (initHandlerForDiscard ioEnd fi).table = fi.handle.table ↔
      (ioEnd.isBigDir = 0 ↔ fi.isBigDir = 0) := by
  unfold FfsIoEnd.table initHandlerForDiscard FfsInodeInfo.handle
  dsimp only
  split_ifs with he hf hf <;> simp [he, hf]

section

variable {sb : SbInfo} {ioEnd : FfsIoEnd} {fi : FfsInodeInfo} {b slt : ℕ}

theorem StoredFile.exists_table (h : StoredFile sb fi b slt) :
    ∃ ht, sb.table fi.handle.table = some ht ∧ ht.bit b slt = true := by
  have hlive := h.live
  rw [SbInfo.bit] at hlive
  cases htab : sb.table fi.handle.table with
  | none =>
    rw [htab] at hlive
    cases hlive
  | some ht =>
    rw [htab] at hlive
    exact ⟨ht, rfl, hlive⟩

theorem StoredFile.no_fault (h : StoredFile sb fi b slt)
    (hkind : ioEnd.isBigDir = 0 ↔ fi.isBigDir = 0) :
    ¬ callbackFaults sb (initHandlerForDiscard ioEnd fi) := by
  obtain ⟨ht, htab, -⟩ := h.exists_table
  have hlt := h.bucket_lt
  have h12 : 1 <<< minFileBucketBits = 2 ^ 12 := rfl
  have h18 : 1 <<< (minFileBucketBits + minDirBits) = 2 ^ 18 := rfl
  simp only [callbackFaults, initHandlerForDiscard, h.bucketId, h12, h18]
  by_cases hs : fi.isBigDir = 0
  · rw [if_pos hs] at hlt
    have hsome : sb.hashtbl fi.dirId.toNat = some ht := by
      simpa [FfsIoEnd.table, FfsInodeInfo.handle, SbInfo.table, hs] using htab
    have hlt' : b < 2 ^ 12 := hlt
    rw [if_pos (hkind.mpr hs), hsome]
    simp only [reduceCtorEq, and_false, or_false]
    omega
  · rw [if_neg hs] at hlt
    have hsome : sb.bigDirHashtbl fi.bigDirId.toNat = some ht := by
      simpa [FfsIoEnd.table, FfsInodeInfo.handle, SbInfo.table, hs] using htab
    have hlt' : b < 2 ^ 18 := hlt
    have hpos := h.position hs
    rw [if_neg (hkind.not.mpr hs), hsome]
    simp only [reduceCtorEq, and_false, or_false]
    omega

/-- The handler and the callback clear exactly the bit of the file if and only if the record that
was at `b_private` is of the kind of the file: `init_handler_for_discard` leaves `is_big_dir` as
it finds it. -/
theorem clearsOwn_iff (h : StoredFile sb fi b slt) :
    ClearsOwn sb ioEnd fi b slt ↔ (ioEnd.isBigDir = 0 ↔ fi.isBigDir = 0) := by
  obtain ⟨ht, htab, hbit⟩ := h.exists_table
  constructor
  · intro hc
    by_contra hkind
    -- the other table is rewritten, and the bit of the file stays
    have hne := (initHandler_table_iff ioEnd fi).not.mpr hkind
    have hstays : (callbackForDiscard sb (initHandlerForDiscard ioEnd fi)).bit
        (fi.handle.table, b, slt) = true := by
      rw [callbackForDiscard_eq, SbInfo.bit_setTable_of_ne (Ne.symm hne)]
      exact h.live
    exact ((hc.bits _).mp hstays).1 rfl
  · intro hkind
    refine ⟨h.no_fault hkind, fun q => ?_⟩
    have hbits : (initHandlerForDiscard ioEnd fi).bits =
        if fi.isBigDir = 0 then minFileBucketBits else minFileBucketBits + minDirBits := by
      rw [FfsIoEnd.bits]
      exact if_congr hkind rfl rfl
    rw [callbackForDiscard_eq, (initHandler_table_iff ioEnd fi).mpr hkind, htab, Option.map_some,
      hbits]
    change (sb.setTable _ (some (deleteSlot _ ht fi.bucketId fi.slotId).2)).bit q = true ↔ _
    rw [h.bucketId, h.slotId, deleteSlot_eq h.bucket_lt h.slot_lt, if_pos hbit]
    exact SbInfo.bit_release htab b slt q

end

theorem mknodFile_stored {sb : SbInfo} {dfi : FfsInodeInfo} {name : CStr} {d : ℕ} {ht : HashTable}
    (mem : FfsName) (hsmall : dfi.isBigDir = 0) (hdfi : dfi.dirId = d)
    (hht : sb.hashtbl d = some ht) (hd : d < 2 ^ 14)
    (hf : ¬ (ht.buckets (smallBucket name)).Full) :
    ∃ r ino fi, ffsMknodFile sb dfi mem name = some r ∧ r.created = some (ino, fi) ∧
      fi.handle.table = .small d ∧ fi.isBigDir = 0 ∧
      StoredFile r.sb fi (smallBucket name) (ht.buckets (smallBucket name)).freeSlot := by
  obtain ⟨ino, hmk, hino⟩ := mknodFile_free mem hsmall hdfi hht hd hf
  have hb := smallBucket_lt name
  have hs := Bucket.freeSlot_lt hf
  refine ⟨_, ino, _, hmk, rfl, rfl, rfl, ?_⟩
  constructor
  case bucketId => exact (smallIno_decodes hb hs hino).1
  case slotId => exact (smallIno_decodes hb hs hino).2
  case bucket_lt => exact hb
  case slot_lt => exact hs
  case position => exact fun h => absurd rfl h
  case live =>
    change (sb.setTable (.small d) _).bit (.small d, _) = true
    rw [SbInfo.bit_take (t := .small d) hht]
    exact .inl rfl

def freshSb : SbInfo := fillSuper (fun _ _ => 0) fun _ => ⟨0, 0, 0⟩

theorem f1_stored : ∃ r ino fi,
    ffsMknodFile freshSb (rootInfo ⟨0, fun _ => 0⟩) ⟨0, fun _ => 0⟩ [102, 49] = some r ∧
      r.created = some (ino, fi) ∧ fi.handle.table = .small 2 ∧ fi.isBigDir = 0 ∧
      StoredFile r.sb fi 1123 0 := by
  have hb : smallBucket [102, 49] = 1123 := by decide +kernel
  have hs : (initFileHt.buckets 1123).freeSlot = 0 := by decide
  have h := @mknodFile_stored freshSb (rootInfo ⟨0, fun _ => 0⟩) [102, 49] 2 initFileHt
    ⟨0, fun _ => 0⟩ rfl rfl rfl (by norm_num) (show ¬ Bucket.empty.Full by decide)
  rwa [hb, hs] at h

theorem clearsOwn_f1 : ∃ r ino fi,
    ffsMknodFile freshSb (rootInfo ⟨0, fun _ => 0⟩) ⟨0, fun _ => 0⟩ [102, 49] = some r ∧
      r.created = some (ino, fi) ∧ ClearsOwn r.sb ⟨0, 0, 0, 0, 0⟩ fi 1123 0 := by
  obtain ⟨r, ino, fi, hmk, hc, -, hsmall, hstored⟩ := f1_stored
  exact ⟨r, ino, fi, hmk, hc, (clearsOwn_iff hstored).mpr (iff_of_true rfl hsmall)⟩

/-- With a record left over from a big file it is not. -/
theorem stale_record_keeps_f1 : ∃ r ino fi,
    ffsMknodFile freshSb (rootInfo ⟨0, fun _ => 0⟩) ⟨0, fun _ => 0⟩ [102, 49] = some r ∧
      r.created = some (ino, fi) ∧ StoredFile r.sb fi 1123 0 ∧
      (callbackForDiscard r.sb (initHandlerForDiscard ⟨0, 0, 0, 1, 0⟩ fi)).bit
        (.small 2, 1123, 0) = true ∧
      ¬ ClearsOwn r.sb ⟨0, 0, 0, 1, 0⟩ fi 1123 0 := by
  obtain ⟨r, ino, fi, hmk, hc, htab, -, hstored⟩ := f1_stored
  have hlive := hstored.live
  rw [htab] at hlive
  have hstays : (callbackForDiscard r.sb (initHandlerForDiscard ⟨0, 0, 0, 1, 0⟩ fi)).bit
      (.small 2, 1123, 0) = true := hlive
  refine ⟨r, ino, fi, hmk, hc, hstored, hstays, fun h => ?_⟩
  have hbits := (h.bits (.small 2, 1123, 0)).mp hstays
  rw [htab] at hbits
  exact hbits.1 rfl

end FlatFS
