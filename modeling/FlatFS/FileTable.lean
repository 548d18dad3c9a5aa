import FlatFS.Defs
import FlatFS.Lib.Run

namespace FlatFS
open Lib

/-- `init_file_ht` and `init_big_file_ht`: every bucket empty. -/
def initBuckets : HashTable := ⟨fun _ => Bucket.empty⟩

def initFileHt : HashTable := initBuckets

def initBigFileHt : BigDirHashTable := initBuckets

def bucketOf (bits : ℕ) (filename : CStr) : BitVec 64 :=
  (bkdrHash filename).setWidth 64 &&& ((1#64 <<< bits) - 1#64)

/-- `slot | bucket << FILE_SLOT_BITS`, accumulated in `file_seg`. -/
def fileSeg (slt : BitVec 8) (bucketId : BitVec 64) : BitVec 64 :=
  (0#64 ||| slt.setWidth 64) ||| (bucketId <<< fileSlotBits)

def insertFile (fileHt : HashTable) (filename : CStr) : BitVec 64 × HashTable :=
  let bucketId := bucketOf minFileBucketBits filename
  let slt := BitVec.ofNat 8 (fileHt.buckets bucketId.toNat).freeSlot
  if slt.toNat = 1 <<< fileSlotBits then (minusOne, fileHt)
  else (fileSeg slt bucketId, fileHt.modify bucketId.toNat (·.take slt.toNat))

/-- `insert_big_file`. The byte `slt` is compared with `-1` after promotion to `int`. -/
def insertBigFile (fileHt : BigDirHashTable) (filename : CStr) : BitVec 64 × BigDirHashTable :=
  let bucketId := bucketOf (minFileBucketBits + minDirBits) filename
  let slt := BitVec.ofNat 8 (fileHt.buckets bucketId.toNat).freeSlot
  if (slt.toNat : ℤ) = -1 then (slt.setWidth 64, fileHt)
  else (fileSeg slt bucketId, fileHt.modify bucketId.toNat (·.take slt.toNat))

/-- The common body of `delete_file` and `delete_big_file`. A bucket below -1 passes the guard, and
the code indexes before the array: that is not modelled, `toNat` takes it for bucket 0. -/
def deleteSlot (bits : ℕ) (fileHt : HashTable) (bucketId slotId : ℤ) : ℕ × HashTable :=
  if bucketId = -1 ∨ bucketId > 1 <<< bits ∨ slotId > 1 <<< fileSlotBits then (0, fileHt)
  else if fileHt.bit bucketId.toNat slotId.toNat then
    (1, fileHt.modify bucketId.toNat (·.release slotId.toNat))
  else (0, fileHt)

def deleteFile (fileHt : HashTable) (bucketId slotId : ℤ) : ℕ × HashTable :=
  deleteSlot minFileBucketBits fileHt bucketId slotId

def deleteBigFile (fileHt : BigDirHashTable) (bucketId slotId : ℤ) : ℕ × BigDirHashTable :=
  deleteSlot (minFileBucketBits + minDirBits) fileHt bucketId slotId

theorem mask_toNat {bits : ℕ} (h : bits < 64) :
    ((1#64 <<< bits) - 1#64).toNat = 2 ^ bits - 1 := by
  have hlt : 2 ^ bits < 2 ^ 64 := Nat.pow_lt_pow_right (by norm_num) h
  have hpos := Nat.two_pow_pos bits
  simp only [BitVec.toNat_sub, BitVec.toNat_shiftLeft, BitVec.toNat_ofNat, Nat.shiftLeft_eq]
  omega

theorem bucketOf_toNat {bits : ℕ} (h : bits < 64) (filename : CStr) :
    (bucketOf bits filename).toNat = (bkdrHash filename).toNat % 2 ^ bits := by
  have hlt := (bkdrHash filename).isLt
  have hw : (bkdrHash filename).toNat % 2 ^ 64 = (bkdrHash filename).toNat :=
    Nat.mod_eq_of_lt (by omega)
  rw [bucketOf, BitVec.toNat_and, mask_toNat h, BitVec.toNat_setWidth, hw,
    Nat.and_two_pow_sub_one_eq_mod]

theorem bucketOf_lt {bits : ℕ} (h : bits < 64) (filename : CStr) :
    (bucketOf bits filename).toNat < 2 ^ bits := by
  rw [bucketOf_toNat h]
  exact Nat.mod_lt _ (Nat.two_pow_pos bits)

theorem fileSeg_toNat {slt : ℕ} {bucketId : BitVec 64} (hs : slt < 8)
    (hb : bucketId.toNat < 2 ^ 60) :
    (fileSeg (BitVec.ofNat 8 slt) bucketId).toNat = bucketId.toNat * 8 + slt := by
  have hs' : slt % 2 ^ 8 % 2 ^ 64 = slt := by omega
  have hb' : bucketId.toNat * 2 ^ 3 % 2 ^ 64 = bucketId.toNat * 2 ^ 3 :=
    Nat.mod_eq_of_lt (by omega)
  simp only [fileSeg, BitVec.toNat_or, BitVec.toNat_setWidth, BitVec.toNat_ofNat,
    BitVec.toNat_shiftLeft, Nat.shiftLeft_eq, hs', hb', Nat.zero_mod, Nat.zero_or]
  rw [Nat.or_comm, Nat.mul_comm, ← Nat.two_pow_add_eq_or_of_lt hs]
  omega

def smallBucket (filename : CStr) : ℕ := (bucketOf minFileBucketBits filename).toNat

def bigBucket (filename : CStr) : ℕ := (bucketOf (minFileBucketBits + minDirBits) filename).toNat

theorem smallBucket_eq (filename : CStr) :
    smallBucket filename = (bkdrHash filename).toNat % 2 ^ 12 := bucketOf_toNat (by norm_num) _

theorem bigBucket_eq (filename : CStr) :
    bigBucket filename = (bkdrHash filename).toNat % 2 ^ 18 := bucketOf_toNat (by norm_num) _

theorem smallBucket_lt (filename : CStr) : smallBucket filename < 2 ^ 12 :=
  bucketOf_lt (by norm_num) _

theorem bigBucket_lt (filename : CStr) : bigBucket filename < 2 ^ 18 := bucketOf_lt (by norm_num) _

/-- The small bucket of a name is the low twelve bits of its big one. -/
theorem bigBucket_mod (name : CStr) : bigBucket name % 2 ^ 12 = smallBucket name := by
  rw [bigBucket_eq, smallBucket_eq]
  exact Nat.mod_mod_of_dvd _ (pow_dvd_pow 2 (by norm_num))

theorem freeSlot_byte (b : Bucket) : (BitVec.ofNat 8 b.freeSlot).toNat = b.freeSlot := by
  have := b.freeSlot_le
  rw [BitVec.toNat_ofNat]
  omega

theorem insertFile_full {fileHt : HashTable} {filename : CStr}
    (h : (fileHt.buckets (smallBucket filename)).Full) :
    insertFile fileHt filename = (minusOne, fileHt) := by
  rw [Bucket.full_iff] at h
  exact if_pos ((freeSlot_byte _).trans h)

theorem insertFile_free {fileHt : HashTable} {filename : CStr}
    (h : ¬ (fileHt.buckets (smallBucket filename)).Full) :
    let b := smallBucket filename
    let slt := (fileHt.buckets b).freeSlot
    (insertFile fileHt filename).1.toNat = b * 8 + slt ∧
      (insertFile fileHt filename).2 = fileHt.modify b (·.take slt) := by
  intro b slt
  have hs : slt < 8 := Bucket.freeSlot_lt h
  have hb : b < 2 ^ 60 := (smallBucket_lt filename).trans (by norm_num)
  have hne : ¬ (BitVec.ofNat 8 slt).toNat = 1 <<< fileSlotBits := by
    rw [freeSlot_byte]
    exact hs.ne
  have he : insertFile fileHt filename =
      (fileSeg (BitVec.ofNat 8 slt) (bucketOf minFileBucketBits filename),
        fileHt.modify b (·.take (BitVec.ofNat 8 slt).toNat)) := if_neg hne
  rw [he, freeSlot_byte]
  exact ⟨fileSeg_toNat hs hb, rfl⟩

/-- The guard of `insert_big_file` never holds: a byte is not `-1`. -/
theorem insertBigFile_eq (fileHt : BigDirHashTable) (filename : CStr) :
    let b := bigBucket filename
    let slt := (fileHt.buckets b).freeSlot
    insertBigFile fileHt filename =
      (fileSeg (BitVec.ofNat 8 slt) (bucketOf (minFileBucketBits + minDirBits) filename),
        fileHt.modify b (·.take slt)) := by
  intro b slt
  have hne : ¬ ((BitVec.ofNat 8 slt).toNat : ℤ) = -1 := by omega
  have he : insertBigFile fileHt filename =
      (fileSeg (BitVec.ofNat 8 slt) (bucketOf (minFileBucketBits + minDirBits) filename),
        fileHt.modify b (·.take (BitVec.ofNat 8 slt).toNat)) := by
    unfold insertBigFile
    exact if_neg hne
  rw [he, freeSlot_byte]

theorem insertBigFile_free {fileHt : BigDirHashTable} {filename : CStr}
    (h : ¬ (fileHt.buckets (bigBucket filename)).Full) :
    let b := bigBucket filename
    let slt := (fileHt.buckets b).freeSlot
    (insertBigFile fileHt filename).1.toNat = b * 8 + slt ∧
      (insertBigFile fileHt filename).2 = fileHt.modify b (·.take slt) := by
  have hb : bigBucket filename < 2 ^ 60 := (bigBucket_lt filename).trans (by norm_num)
  rw [insertBigFile_eq]
  exact ⟨fileSeg_toNat (Bucket.freeSlot_lt h) hb, rfl⟩

/-- `insert_big_file` answers with a segment in a full bucket too. -/
theorem insertBigFile_ne_neg_one (fileHt : BigDirHashTable) (filename : CStr) :
    (insertBigFile fileHt filename).1 ≠ minusOne := by
  have hb := bigBucket_lt filename
  have hs := (fileHt.buckets (bigBucket filename)).freeSlot_le
  unfold bigBucket at hb
  rw [insertBigFile_eq]
  intro he
  -- the slot number 8 of a full bucket reaches into the bucket bits, but no further
  have hlt : (fileSeg (BitVec.ofNat 8 (fileHt.buckets (bigBucket filename)).freeSlot)
      (bucketOf (minFileBucketBits + minDirBits) filename)).toNat < 2 ^ 22 := by
    simp only [fileSeg, BitVec.toNat_or, BitVec.toNat_setWidth, BitVec.toNat_ofNat,
      BitVec.toNat_shiftLeft, Nat.shiftLeft_eq, Nat.zero_mod, Nat.zero_or]
    norm_num at hb ⊢
    exact Nat.or_lt_two_pow (n := 22) (by omega) (by omega)
  rw [congrArg BitVec.toNat he, minusOne_toNat] at hlt
  omega

theorem deleteSlot_eq {bits : ℕ} {fileHt : HashTable} {b slt : ℕ} (hb : b < 2 ^ bits)
    (hs : slt < 8) :
    deleteSlot bits fileHt b slt =
      if fileHt.bit b slt then (1, fileHt.modify b (·.release slt)) else (0, fileHt) := by
  have hg : ¬ ((b : ℤ) = -1 ∨ (b : ℤ) > 1 <<< bits ∨ (slt : ℤ) > 1 <<< fileSlotBits) := by
    have hb' : (b : ℤ) < (2 ^ bits : ℕ) := by exact_mod_cast hb
    have h8 : 1 <<< fileSlotBits = 8 := rfl
    rw [h8, Nat.one_shiftLeft]
    omega
  rw [deleteSlot, if_neg hg, Int.toNat_natCast, Int.toNat_natCast]

inductive TableOp
  | insert (filename : CStr)
  | delete (bucketId slotId : ℕ)

structure TableApi where
  bits : ℕ
  ins : HashTable → CStr → BitVec 64 × HashTable
  del : HashTable → ℤ → ℤ → ℕ × HashTable

def smallTable : TableApi := ⟨minFileBucketBits, insertFile, deleteFile⟩

def bigTable : TableApi := ⟨minFileBucketBits + minDirBits, insertBigFile, deleteBigFile⟩

/-- A table with the segments that an insert has returned and no delete has named since. -/
structure TableRun where
  ht : HashTable
  held : Finset ℕ

namespace TableApi

variable (api : TableApi)

/-- Deletes are made with a bucket and a slot of the table. The segments held are
computed from arguments and results alone. -/
def step (s : TableRun) : TableOp → Option TableRun
  | .insert filename =>
    let r := api.ins s.ht filename
    some ⟨r.2, if r.1 = minusOne then s.held else insert r.1.toNat s.held⟩
  | .delete b slt =>
    if b < 2 ^ api.bits ∧ slt < 8 then
      some ⟨(api.del s.ht b slt).2, s.held.erase (b * 8 + slt)⟩
    else none

def bucket (filename : CStr) : ℕ := (bkdrHash filename).toNat % 2 ^ api.bits

def FullFor (s : TableRun) (filename : CStr) : Prop := (s.ht.buckets (api.bucket filename)).Full

instance (s : TableRun) (filename : CStr) : Decidable (api.FullFor s filename) :=
  inferInstanceAs (Decidable (Bucket.Full _))

structure Inv (s : TableRun) : Prop where
  counted : ∀ b < 2 ^ api.bits, (s.ht.buckets b).Counted
  held_iff : ∀ b < 2 ^ api.bits, ∀ slt < 8, b * 8 + slt ∈ s.held ↔ s.ht.bit b slt = true
  held_lt : ∀ seg ∈ s.held, seg < 2 ^ api.bits * 8

theorem inv_init : api.Inv ⟨initBuckets, ∅⟩ where
  counted _ _ := Bucket.empty_counted
  held_iff b _ slt _ := by simp [HashTable.bit, initBuckets, Bucket.empty]
  held_lt seg hseg := by simp at hseg

variable {api}

theorem Inv.take {s : TableRun} (hi : api.Inv s) {b : ℕ} (hb : b < 2 ^ api.bits)
    (hf : ¬ (s.ht.buckets b).Full) :
    api.Inv ⟨s.ht.modify b (·.take (s.ht.buckets b).freeSlot),
      insert (b * 8 + (s.ht.buckets b).freeSlot) s.held⟩ := by
  have hslt := Bucket.freeSlot_lt hf
  have hclear := Bucket.freeSlot_clear hf
  refine ⟨fun b' hb' => ?_, fun b' hb' slt' hs' => ?_, fun seg hseg => ?_⟩
  · by_cases he : b' = b
    · subst he
      rw [HashTable.modify_self]
      exact (hi.counted b' hb').take hslt hclear
    · rw [HashTable.modify_of_ne _ he]
      exact hi.counted b' hb'
  · rw [HashTable.bit_take, Finset.mem_insert, hi.held_iff b' hb' slt' hs']
    -- segments are read back as bucket and slot
    have hinj : b' * 8 + slt' = b * 8 + (s.ht.buckets b).freeSlot ↔
        b' = b ∧ slt' = (s.ht.buckets b).freeSlot := by omega
    rw [hinj]
  · rcases Finset.mem_insert.mp hseg with rfl | hmem
    · omega
    · exact hi.held_lt seg hmem

theorem Inv.release {s : TableRun} (hi : api.Inv s) {b slt : ℕ} (hb : b < 2 ^ api.bits)
    (hs : slt < 8) (hbit : s.ht.bit b slt = true) :
    api.Inv ⟨s.ht.modify b (·.release slt), s.held.erase (b * 8 + slt)⟩ := by
  refine ⟨fun b' hb' => ?_, fun b' hb' slt' hs' => ?_, fun seg hseg => ?_⟩
  · by_cases he : b' = b
    · subst he
      rw [HashTable.modify_self]
      exact (hi.counted b' hb').release hs hbit
    · rw [HashTable.modify_of_ne _ he]
      exact hi.counted b' hb'
  · rw [HashTable.bit_release, Finset.mem_erase, hi.held_iff b' hb' slt' hs']
    have hinj : b' * 8 + slt' = b * 8 + slt ↔ b' = b ∧ slt' = slt := by omega
    rw [ne_eq, hinj]
  · exact hi.held_lt seg (Finset.mem_of_mem_erase hseg)

theorem Inv.delete {s s' : TableRun} {b slt : ℕ} (hi : api.Inv s)
    (hdel : api.del = deleteSlot api.bits) (hstep : api.step s (.delete b slt) = some s') :
    api.Inv s' := by
  simp only [step] at hstep
  split_ifs at hstep with hr
  obtain ⟨hb, hs⟩ := hr
  cases hstep
  rw [hdel, deleteSlot_eq hb hs]
  split_ifs with hbit
  · exact hi.release hb hs hbit
  · -- the bit is clear already
    have hnot : b * 8 + slt ∉ s.held := fun hmem => hbit ((hi.held_iff b hb slt hs).mp hmem)
    rw [Finset.erase_eq_of_notMem hnot]
    exact hi

structure DeleteContract (api : TableApi) (s : TableRun) (b slt : ℕ) : Prop where
  result : (api.del s.ht b slt).1 = if b * 8 + slt ∈ s.held then 1 else 0
  frees_only : ∀ b' slt', (api.del s.ht b slt).2.bit b' slt' = true ↔
    ¬ (b' = b ∧ slt' = slt) ∧ s.ht.bit b' slt' = true

theorem Inv.deleteContract {s : TableRun} (hi : api.Inv s) (hdel : api.del = deleteSlot api.bits)
    {b slt : ℕ} (hb : b < 2 ^ api.bits) (hs : slt < 8) : DeleteContract api s b slt := by
  constructor
  · rw [hdel, deleteSlot_eq hb hs]
    simp only [hi.held_iff b hb slt hs]
    split_ifs <;> rfl
  · intro b' slt'
    rw [hdel, deleteSlot_eq hb hs]
    split_ifs with hbit
    · exact HashTable.bit_release _ _ _ _ _
    · refine ⟨fun h => ⟨?_, h⟩, fun h => h.2⟩
      rintro ⟨rfl, rfl⟩
      exact hbit h

end TableApi

/-- What `insert_file` promises: it fails on a full bucket alone, and then changes
nothing; otherwise it answers with the lowest free slot of the name's bucket, which
no earlier insert still holds. -/
structure InsertFileContract (s : TableRun) (filename : CStr) : Prop where
  fails_iff : (insertFile s.ht filename).1 = minusOne ↔ smallTable.FullFor s filename
  fail_frame : (insertFile s.ht filename).1 = minusOne → (insertFile s.ht filename).2 = s.ht
  answer : (insertFile s.ht filename).1 ≠ minusOne → ∃ slt < 8,
    (∀ i < slt, s.ht.bit (smallTable.bucket filename) i = true) ∧
    s.ht.bit (smallTable.bucket filename) slt = false ∧
    (insertFile s.ht filename).1.toNat = smallTable.bucket filename * 8 + slt ∧
    (insertFile s.ht filename).1.toNat ∉ s.held

theorem seg_ne_neg_one {v : BitVec 64} {b slt : ℕ} (hv : v.toNat = b * 8 + slt) (hb : b < 2 ^ 18)
    (hs : slt < 8) : v ≠ minusOne := by
  rintro rfl
  rw [minusOne_toNat] at hv
  omega

theorem TableApi.Inv.insertFileContract {s : TableRun} (hi : smallTable.Inv s) (filename : CStr) :
    InsertFileContract s filename := by
  have hbk : smallTable.bucket filename = smallBucket filename := (smallBucket_eq filename).symm
  have hb := smallBucket_lt filename
  by_cases hf : (s.ht.buckets (smallBucket filename)).Full
  · have he := insertFile_full hf
    refine ⟨?_, fun _ => by rw [he], fun hne => absurd (congrArg Prod.fst he) hne⟩
    simp [he, TableApi.FullFor, hbk, hf]
  · obtain ⟨hv, -⟩ := insertFile_free hf
    have hs := Bucket.freeSlot_lt hf
    have hne := seg_ne_neg_one hv (by omega) hs
    refine ⟨?_, fun h => absurd h hne, fun _ => ⟨_, hs, ?_, ?_, ?_, ?_⟩⟩
    · simp [hne, TableApi.FullFor, hbk, hf]
    · intro i hlt
      rw [hbk]
      exact Bitmap.set_of_lt_firstZero hlt
    · rw [hbk]
      exact Bucket.freeSlot_clear hf
    · rw [hv, hbk]
    · rw [hv, hi.held_iff _ hb _ hs]
      simpa [HashTable.bit] using Bucket.freeSlot_clear hf

theorem smallTable_inv_step {s s' : TableRun} {op : TableOp} (hi : smallTable.Inv s)
    (hstep : smallTable.step s op = some s') : smallTable.Inv s' := by
  cases op with
  | insert filename =>
    simp only [TableApi.step, Option.some.injEq] at hstep
    subst hstep
    by_cases hf : (s.ht.buckets (smallBucket filename)).Full
    · -- a full bucket: nothing is held and nothing changes
      have he : smallTable.ins s.ht filename = (minusOne, s.ht) := insertFile_full hf
      simpa [he] using hi
    · obtain ⟨hv, hht⟩ := insertFile_free hf
      have hne := seg_ne_neg_one hv ((smallBucket_lt filename).trans (by norm_num))
        (Bucket.freeSlot_lt hf)
      have hi' := hi.take (smallBucket_lt filename) hf
      rw [← hv, ← hht] at hi'
      simpa [smallTable, hne] using hi'
  | delete b slt => exact hi.delete rfl hstep

/-- Every run of `insert_file` and `delete_file` on a fresh table keeps counters and
bitmaps together, and every call meets its contract in every state reached. -/
theorem fileTable_run {s : TableRun}
    (h : Reach smallTable.step anyStep ⟨initFileHt, ∅⟩ s) :
    (∀ b < 2 ^ 12, (s.ht.buckets b).validSlotCount.toNat = (s.ht.buckets b).slotBitmap.weight 8 ∧
      (s.ht.buckets b).validSlotCount.toNat ≤ 8) ∧
    (∀ filename, InsertFileContract s filename) ∧
    (∀ b < 2 ^ 12, ∀ slt < 8, smallTable.DeleteContract s b slt) ∧
    (∀ seg, seg ∈ s.held ↔ ∃ b < 2 ^ 12, ∃ slt < 8, seg = b * 8 + slt ∧ s.ht.bit b slt = true) := by
  have hi : smallTable.Inv s :=
    h.invariant smallTable.Inv (TableApi.inv_init _) fun _ _ _ hi _ hstep =>
      smallTable_inv_step hi hstep
  refine ⟨fun b hb => ?_, hi.insertFileContract, fun b hb slt hs => hi.deleteContract rfl hb hs,
    fun seg => ⟨fun hseg => ?_, ?_⟩⟩
  · have hc := hi.counted b hb
    exact ⟨hc, hc.le.trans (Bitmap.weight_le _ _)⟩
  · have hlt : seg < 2 ^ 12 * 8 := hi.held_lt seg hseg
    have he : seg = seg / 8 * 8 + seg % 8 := by omega
    refine ⟨seg / 8, by omega, seg % 8, by omega, he, ?_⟩
    rw [he] at hseg
    exact (hi.held_iff (seg / 8) (by change _ < 2 ^ 12; omega) (seg % 8) (by omega)).mp hseg
  · rintro ⟨b, hb, slt, hs, rfl, hbit⟩
    exact (hi.held_iff b hb slt hs).mpr hbit

theorem fileTable_run_one_insert : ∃ s : TableRun,
    run smallTable.step anyStep ⟨initFileHt, ∅⟩ [.insert [102, 49]] = some s ∧
    s.held = {smallTable.bucket [102, 49] * 8} ∧ InsertFileContract s [102, 49] := by
  obtain ⟨s, hrun, hheld⟩ := exists_of_check
    (r := run smallTable.step anyStep ⟨initFileHt, ∅⟩ [.insert [102, 49]])
    (p := fun s => s.held = {smallTable.bucket [102, 49] * 8}) (by decide +kernel)
  exact ⟨s, hrun, hheld, (fileTable_run (.of_run hrun)).2.1 _⟩

/-- What `insert_big_file` promises: failure on a full bucket alone, and then no change;
otherwise a segment of the name's bucket that no live file holds. -/
structure InsertBigFileContract (s : TableRun) (filename : CStr) : Prop where
  fails_iff : (insertBigFile s.ht filename).1 = minusOne ↔ bigTable.FullFor s filename
  fail_frame : (insertBigFile s.ht filename).1 = minusOne → (insertBigFile s.ht filename).2 = s.ht
  answer : (insertBigFile s.ht filename).1 ≠ minusOne → ∃ slt < 8,
    (insertBigFile s.ht filename).1.toNat = bigTable.bucket filename * 8 + slt ∧
    (insertBigFile s.ht filename).1.toNat ∉ s.held

/-- No insert meets a full bucket. -/
def FindsFreeSlot (s : TableRun) : TableOp → Prop
  | .insert filename => ¬ bigTable.FullFor s filename
  | .delete _ _ => True

instance (s : TableRun) : (op : TableOp) → Decidable (FindsFreeSlot s op)
  | .insert filename => inferInstanceAs (Decidable (¬ bigTable.FullFor s filename))
  | .delete _ _ => .isTrue trivial

theorem TableApi.Inv.insertBigFileContract_iff {s : TableRun} (hi : bigTable.Inv s)
    (filename : CStr) : InsertBigFileContract s filename ↔ ¬ bigTable.FullFor s filename := by
  have hbk : bigTable.bucket filename = bigBucket filename := (bigBucket_eq filename).symm
  have hne := insertBigFile_ne_neg_one s.ht filename
  constructor
  · intro hc hf
    exact hne (hc.fails_iff.mpr hf)
  · intro hf
    refine ⟨iff_of_false hne hf, fun h => absurd h hne, fun _ => ?_⟩
    rw [TableApi.FullFor, hbk] at hf
    obtain ⟨hv, -⟩ := insertBigFile_free hf
    have hs := Bucket.freeSlot_lt hf
    refine ⟨_, hs, by rw [hv, hbk], ?_⟩
    rw [hv, hi.held_iff _ (bigBucket_lt filename) _ hs]
    simpa [HashTable.bit] using Bucket.freeSlot_clear hf

theorem bigTable_inv_step {s s' : TableRun} {op : TableOp} (hi : bigTable.Inv s)
    (hok : FindsFreeSlot s op) (hstep : bigTable.step s op = some s') : bigTable.Inv s' := by
  cases op with
  | insert filename =>
    have hf : ¬ (s.ht.buckets (bigBucket filename)).Full := by
      rw [bigBucket_eq]
      exact hok
    simp only [TableApi.step, Option.some.injEq] at hstep
    subst hstep
    obtain ⟨hv, hht⟩ := insertBigFile_free hf
    have hi' := hi.take (bigBucket_lt filename) hf
    rw [← hv, ← hht] at hi'
    simpa [bigTable, insertBigFile_ne_neg_one] using hi'
  | delete b slt => exact hi.delete rfl hstep

/-- While no insert has met a full bucket, the counters of a big table are exact and
`insert_big_file` meets its contract exactly for the names whose bucket has a free slot. -/
theorem bigTable_run {s : TableRun}
    (h : Reach bigTable.step FindsFreeSlot ⟨initBigFileHt, ∅⟩ s) :
    (∀ b < 2 ^ 18,
      (s.ht.buckets b).validSlotCount.toNat = (s.ht.buckets b).slotBitmap.weight 8) ∧
    (∀ b < 2 ^ 18, ∀ slt < 8, bigTable.DeleteContract s b slt) ∧
    (∀ filename, InsertBigFileContract s filename ↔ ¬ bigTable.FullFor s filename) := by
  have hi : bigTable.Inv s :=
    h.invariant bigTable.Inv (TableApi.inv_init _) fun _ _ _ hi hok hstep =>
      bigTable_inv_step hi hok hstep
  exact ⟨hi.counted, fun b hb slt hs => hi.deleteContract rfl hb hs, hi.insertBigFileContract_iff⟩

/-- Eight names of bucket 97: `a`, `jz9`, `bd5h`, `g88d`, `lw28`, `prbi`, `svx2`, `vkiq`. -/
def bucket97 : List CStr :=
  [[97],
   [106, 122, 57],
   [98, 100, 53, 104],
   [103, 56, 56, 100],
   [108, 119, 50, 56],
   [112, 114, 98, 105],
   [115, 118, 120, 50],
   [118, 107, 105, 113]]

def ninthName : CStr := [49, 57, 110, 107]

theorem bigTable_run_eight_names : ∃ s : TableRun,
    run bigTable.step FindsFreeSlot ⟨initBigFileHt, ∅⟩ (bucket97.map .insert) = some s ∧
    s.held.card = 8 ∧ ¬ InsertBigFileContract s ninthName := by
  obtain ⟨s, hrun, hcard, hfull⟩ := exists_of_check
    (r := run bigTable.step FindsFreeSlot ⟨initBigFileHt, ∅⟩ (bucket97.map .insert))
    (p := fun s => s.held.card = 8 ∧ bigTable.FullFor s ninthName) (by decide +kernel)
  exact ⟨s, hrun, hcard, fun hc => ((bigTable_run (.of_run hrun)).2.2 _).mp hc hfull⟩

/-- The ninth insert into one bucket finds it full and still answers with a segment, the one of
the first name, and the counter leaves the bitmap behind. -/
theorem insertBigFile_ninth_name : ∃ s : TableRun,
    run bigTable.step anyStep ⟨initBigFileHt, ∅⟩ (bucket97.map .insert) = some s ∧
    bigTable.FullFor s ninthName ∧
    (insertBigFile s.ht ninthName).1 ≠ minusOne ∧
    (insertBigFile s.ht ninthName).1.toNat ∈ s.held ∧
    ((insertBigFile s.ht ninthName).2.buckets 97).validSlotCount.toNat = 9 ∧
    ((insertBigFile s.ht ninthName).2.buckets 97).slotBitmap.weight 8 = 8 := by
  exact exists_of_check (by decide +kernel)

end FlatFS
