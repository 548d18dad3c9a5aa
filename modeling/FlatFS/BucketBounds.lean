import FlatFS.BucketLock

namespace FlatFS
open Lib

def bigFileIno (d b slt : ℕ) : BitVec 64 :=
  segIno (fileSlotBits + minFileBucketBits + minDirBits)
    (fileSeg (BitVec.ofNat 8 slt) (BitVec.ofNat 64 b)) d

/-- The number decodes into its three fields, the shift of the directory id does not leave an
`int`, and the inode info made of it has the bucket of the table and the page that
`get_big_file_seg` reads. -/
structure BigInoDecodes (d b slt : ℕ) : Prop where
  bucket : bigInoToBucket (bigFileIno d b slt) = b
  slot : inoToSlot (bigFileIno d b slt) = slt
  dir : (bigFileIno d b slt >>> (fileSlotBits + minFileBucketBits + minDirBits)).toNat = d
  shift : (d : ℤ) * 2 ^ (fileSlotBits + minFileBucketBits + minDirBits) < 2 ^ 31
  stored : ∀ pos mem name, (bigFileInfo d pos (bigFileIno d b slt) mem name).bucketId = b
  page : ∀ pos mem name, fileMetaLba (bigFileInfo d pos (bigFileIno d b slt) mem name) =
    composeBigFileLba d b 0 0

def InTable (bits : ℕ) (bucketId slotId : ℤ) : Prop :=
  0 ≤ bucketId ∧ bucketId < 2 ^ bits ∧ 0 ≤ slotId ∧ slotId < 8

def DeleteFileInside (fi : FfsInodeInfo) : Prop :=
  ¬ Rejects minFileBucketBits fi.bucketId fi.slotId →
    InTable minFileBucketBits fi.bucketId fi.slotId

def DeleteBigFileInside (fi : FfsInodeInfo) : Prop :=
  ¬ Rejects (minFileBucketBits + minDirBits) fi.bucketId fi.slotId →
    InTable (minFileBucketBits + minDirBits) fi.bucketId fi.slotId

/-- The bucket whose address `ffs_mknod` takes is inside the table that it has chosen. -/
def MknodInside (fi : FfsInodeInfo) : Prop :=
  InTable (if fi.isBigDir = 0 then minFileBucketBits else minFileBucketBits + minDirBits)
    fi.bucketId fi.slotId

/-- Every later access with the bucket and slot that are stored for a file. The callback takes the
kind of the file from its record, which may be of the other kind. -/
structure AccessesInside (fi : FfsInodeInfo) : Prop where
  mknod : MknodInside fi
  deleteFile : DeleteFileInside fi
  deleteBigFile : DeleteBigFileInside fi

namespace Place

def BucketFits : Place → Prop
  | big d _ _ => d % 2 ^ 8 = 0
  | _ => True

/-- In a big table: the number stored is not that of the bucket behind the last one of a small
table. The slot number 8 of a full bucket makes the number odd. -/
def NotBehindSmall : Place → Prop
  | big d b slt => ¬ (d % 2 ^ 8 = 0 ∧ b = 2 ^ 12 ∧ slt ≠ 8)
  | _ => True

def NotBehindBig : Place → Prop
  | big d b slt => ¬ (d % 2 ^ 8 = 1 ∧ b = 0 ∧ slt ≠ 8)
  | _ => True

instance : (p : Place) → Decidable p.BucketFits
  | dir .. | small .. => .isTrue trivial
  | big .. => inferInstanceAs (Decidable (_ = _))

instance : (p : Place) → Decidable p.NotBehindSmall
  | dir .. | small .. => .isTrue trivial
  | big .. => inferInstanceAs (Decidable (¬ _))

instance : (p : Place) → Decidable p.NotBehindBig
  | dir .. | small .. => .isTrue trivial
  | big .. => inferInstanceAs (Decidable (¬ _))

end Place

theorem bigFileIno_toNat (d : ℕ) {b slt : ℕ} (hb : b < 2 ^ 18) (hs : slt < 8) :
    (bigFileIno d b slt).toNat = bigDirField d + (b * 8 + slt) := by
  have hbkt : (BitVec.ofNat 64 b).toNat = b := by
    rw [BitVec.toNat_ofNat]
    omega
  have hseg := fileSeg_toNat hs (show (BitVec.ofNat 64 b).toNat < 2 ^ 60 by omega)
  rw [hbkt] at hseg
  rw [bigFileIno, segIno_big d hseg hb hs, Nat.add_assoc]

/-- The inode number of a big file decodes into what it was made of exactly when the directory id
fits into the ten bits that the shift leaves and its low eight bits are zero. -/
theorem bigInoDecodes_iff {d b slt : ℕ} (hd : d < 2 ^ 14) (hb : b < 2 ^ 18) (hs : slt < 8) :
    BigInoDecodes d b slt ↔ d < 2 ^ 10 ∧ d % 2 ^ 8 = 0 := by
  have hino := bigFileIno_toNat d hb hs
  obtain ⟨hbkt, hslot⟩ := bigIno_decodes (by omega) hino
  have h21 : fileSlotBits + minFileBucketBits + minDirBits = 21 := rfl
  constructor
  · intro h
    have hb' := h.bucket
    have hsh := h.shift
    rw [hbkt] at hb'
    rw [h21] at hsh
    omega
  · rintro ⟨h10, h8⟩
    have hstored : bigInoToBucket (bigFileIno d b slt) = b := by
      rw [hbkt, h8]
      apply congrArg Nat.cast
      omega
    have hfield : bigDirField d = d * 2 ^ 21 := by
      rw [bigDirField, Nat.mod_eq_of_lt (by omega), if_pos h10]
    constructor
    case bucket => exact hstored
    case slot =>
      rw [hslot]
      apply congrArg Nat.cast
      omega
    case dir =>
      rw [BitVec.toNat_ushiftRight, Nat.shiftRight_eq_div_pow, hino, hfield, h21]
      omega
    case shift =>
      rw [h21]
      omega
    case stored => exact fun _ _ _ => hstored
    case page =>
      intro pos mem name
      have hbig : ¬ (bigFileInfo d pos (bigFileIno d b slt) mem name).isBigDir = 0 := by
        simp [bigFileInfo]
      rw [fileMetaLba, if_neg hbig]
      exact congrArg (composeBigFileLba d · 0 0) hstored

theorem bigInoDecodes_256 : BigInoDecodes 256 5 3 :=
  (bigInoDecodes_iff (by norm_num) (by norm_num) (by norm_num)).mpr (by decide)

/-- In directory 3 the stored bucket of the first slot is not 0, and in directory 1024 the shift
overflows. -/
theorem bigIno_keeps_dir_bits :
    bigInoToBucket (bigFileIno 3 0 0) = 3 * 2 ^ 18 ∧ ¬ BigInoDecodes 3 0 0 ∧
      (1024 : ℤ) * 2 ^ 21 = 2 ^ 31 ∧ (bigFileIno 1024 0 0 >>> 21).toNat ≠ 1024 := by
  have h3 : bigInoToBucket (bigFileIno 3 0 0) = 3 * 2 ^ 18 := by decide
  refine ⟨h3, fun h => ?_, by norm_num, by decide⟩
  have hb := h.bucket
  rw [h3] at hb
  norm_num at hb

/-- The segment of slot `slt` of bucket `b`. The slot number 8 of a full bucket is or'ed into the
low bit of the bucket. -/
def bigSeg (b slt : ℕ) : ℕ := if slt = 8 then b / 2 * 16 + 8 else b * 8 + slt

theorem bigSeg_lt {b slt : ℕ} (hb : b < 2 ^ 18) (hs : slt ≤ 8) : bigSeg b slt < 2 ^ 21 := by
  unfold bigSeg
  split_ifs <;> omega

theorem fileSeg_eight {bucketId : BitVec 64} (hb : bucketId.toNat < 2 ^ 60) :
    (fileSeg 8#8 bucketId).toNat = bucketId.toNat / 2 * 16 + 8 := by
  have hseg : (fileSeg 8#8 bucketId).toNat = 8 ||| 8 * bucketId.toNat := by
    simp only [fileSeg, BitVec.toNat_or, BitVec.toNat_setWidth, BitVec.toNat_ofNat,
      BitVec.toNat_shiftLeft, Nat.shiftLeft_eq, Nat.zero_mod, Nat.zero_or]
    rw [Nat.mul_comm, Nat.mod_eq_of_lt (show 2 ^ 3 * bucketId.toNat < 2 ^ 64 by omega)]
    rfl
  have hhigh : (8 ||| 8 * bucketId.toNat) / 2 ^ 4 = bucketId.toNat / 2 := by
    rw [Nat.or_div_two_pow, show 8 / 2 ^ 4 = 0 from rfl, Nat.zero_or]
    omega
  have hlow : (8 ||| 8 * bucketId.toNat) % 2 ^ 4 = 8 := by
    rw [Nat.or_mod_two_pow]
    rcases Nat.mod_two_eq_zero_or_one bucketId.toNat with h | h
    · rw [show 8 * bucketId.toNat % 2 ^ 4 = 0 by omega]
      rfl
    · rw [show 8 * bucketId.toNat % 2 ^ 4 = 8 by omega]
      rfl
  rw [hseg]
  omega

theorem bigFileSlotAlloc_toNat (ht : BigDirHashTable) (d : ℕ) (name : CStr) :
    let b := bigBucket name
    (flatfsBigFileSlotAllocByName ht d name).1.toNat =
      bigDirField d + bigSeg b (ht.buckets b).freeSlot := by
  intro b
  have hb : b < 2 ^ 18 := bigBucket_lt name
  by_cases hf : (ht.buckets b).Full
  · have h8 : (ht.buckets b).freeSlot = 8 := (Bucket.full_iff _).mp hf
    have hseg : (insertBigFile ht name).1.toNat = b / 2 * 16 + 8 := by
      rw [insertBigFile_eq]
      change (fileSeg (BitVec.ofNat 8 (ht.buckets b).freeSlot) _).toNat = _
      rw [h8]
      exact fileSeg_eight (hb.trans (by norm_num))
    have he : flatfsBigFileSlotAllocByName ht d name =
        (segIno (fileSlotBits + minFileBucketBits + minDirBits) (insertBigFile ht name).1 d,
          (insertBigFile ht name).2) := if_neg (insertBigFile_ne_neg_one ht name)
    rw [he, bigSeg, if_pos h8]
    -- the segment of slot 0 of the bucket with its low bit set
    have hodd : (insertBigFile ht name).1.toNat = (b / 2 * 2 + 1) * 8 + 0 := by omega
    dsimp only
    rw [segIno_big d hodd (by omega) (by norm_num)]
    omega
  · have hs := Bucket.freeSlot_lt hf
    rw [(bigFileSlotAlloc_free d hf).1, bigSeg, if_neg (by omega), Nat.add_assoc]

/-- A file that `ffs_mknod` has created at a place, with the number and the info it has made. -/
inductive CreatedAt (fi : FfsInodeInfo) : Place → Prop
  | small {d b slt : ℕ} (hb : b < 2 ^ 12) (hs : slt < 8) (small : fi.isBigDir = 0)
      (bucket : fi.bucketId = b) (slot : fi.slotId = slt) : CreatedAt fi (.small d b slt)
  | big {d b slt : ℕ} (hb : b < 2 ^ 18) (hs : slt ≤ 8) (big : fi.isBigDir ≠ 0)
      (bucket : fi.bucketId = (d % 2 ^ 8 * 2 ^ 18 + bigSeg b slt / 8 : ℕ))
      (slot : fi.slotId = (bigSeg b slt % 8 : ℕ)) : CreatedAt fi (.big d b slt)

section

variable {sb : SbInfo} {dfi : FfsInodeInfo} {mem : FfsName} {name : CStr} {d : ℕ}
  {r : MknodResult} {ino : BitVec 64} {fi : FfsInodeInfo}

theorem mknodBigFile_createdAt (hdfi : dfi.dirId = d)
    (h : mknodBigFile sb dfi mem name = some r) (hc : r.created = some (ino, fi)) :
    ∃ ht, sb.bigDirHashtbl dfi.bigDirId.toNat = some ht ∧
      CreatedAt fi (.big d (bigBucket name) (ht.buckets (bigBucket name)).freeSlot) := by
  obtain ⟨ht, hht, hr⟩ := Option.map_eq_some_iff.mp h
  rw [← hr, hdfi] at hc
  dsimp only at hc
  split_ifs at hc with hne
  cases hc
  have hb := bigBucket_lt name
  have hs := (ht.buckets (bigBucket name)).freeSlot_le
  obtain ⟨hbkt, hslot⟩ :=
    bigIno_decodes (bigSeg_lt hb hs) (bigFileSlotAlloc_toNat ht d name)
  exact ⟨ht, hht, .big hb hs (by simp [bigFileInfo]) hbkt hslot⟩

theorem mknodFile_createdAt (hd : d < 2 ^ 14) (hdfi : dfi.dirId = d)
    (h : ffsMknodFile sb dfi mem name = some r) (hc : r.created = some (ino, fi)) :
    ∃ p, createPlace sb dfi name = some p ∧ CreatedAt fi p := by
  by_cases hbig : dfi.isBigDir = 0
  · have h' := h
    rw [ffsMknodFile, mknodFileBy, if_pos hbig, hdfi, Int.toNat_natCast] at h'
    obtain ⟨ht, hht, -⟩ := Option.bind_eq_some_iff.mp h'
    simp only [createPlace, hbig, if_true, hdfi, Int.toNat_natCast, hht, Option.bind_some]
    by_cases hf : (ht.buckets (smallBucket name)).Full
    · by_cases hcan : FindsPosition sb
      · obtain ⟨pos, -, hres⟩ := resizeDir_can hcan
        rw [mknodFile_full mem hbig hdfi hht hf, hres, Option.bind_some] at h
        dsimp only at h
        rw [if_neg (by omega)] at h
        have hdfi' : ({ dfi with isBigDir := 1, bigDirId := pos } : FfsInodeInfo).dirId = d := hdfi
        obtain ⟨big, hbigHt, hat⟩ := mknodBigFile_createdAt hdfi' h hc
        cases (promotedSb_table sb pos).symm.trans hbigHt
        rw [(initBigFileHt_free (bigBucket name)).2] at hat
        exact ⟨_, by rw [if_neg (not_not.mpr hf), if_pos hcan], hat⟩
      · -- the create has returned an error
        rw [mknodFile_full mem hbig hdfi hht hf] at h
        rcases resizeDir_cannot hcan with he | he
        · simp [he] at h
        · simp only [he, Option.bind_some, if_true, Option.some.injEq] at h
          subst h
          cases hc
    · obtain ⟨ino', hmk, hino⟩ := mknodFile_free mem hbig hdfi hht hd hf
      cases hmk.symm.trans h
      cases hc
      have hb := smallBucket_lt name
      have hs := Bucket.freeSlot_lt hf
      obtain ⟨hbkt, hslot⟩ := smallIno_decodes hb hs hino
      exact ⟨_, if_pos hf, .small hb hs rfl hbkt hslot⟩
  · rw [ffsMknodFile, mknodFileBy, if_neg hbig] at h
    obtain ⟨ht, hht, hat⟩ := mknodBigFile_createdAt hdfi h hc
    refine ⟨_, ?_, hat⟩
    simp only [createPlace, hbig, if_false, hdfi, Int.toNat_natCast, hht, Option.map_some]

end

theorem not_rejects_iff {bits bucketId slotId : ℕ} (hs : slotId < 8) :
    ¬ Rejects bits bucketId slotId ↔ bucketId ≤ 2 ^ bits := by
  have h3 : 1 <<< fileSlotBits = 8 := rfl
  rw [Rejects, Nat.shiftLeft_eq, one_mul, h3]
  omega

theorem inTable_iff {bits bucketId slotId : ℕ} (hs : slotId < 8) :
    InTable bits bucketId slotId ↔ bucketId < 2 ^ bits := by
  have hpow : (2 : ℤ) ^ bits = ((2 ^ bits : ℕ) : ℤ) := by push_cast; rfl
  rw [InTable, hpow]
  omega

theorem CreatedAt.accesses_iff {fi : FfsInodeInfo} {p : Place} (h : CreatedAt fi p) :
    (MknodInside fi ↔ p.BucketFits) ∧ (DeleteFileInside fi ↔ p.NotBehindSmall) ∧
      (DeleteBigFileInside fi ↔ p.NotBehindBig) := by
  have h12 : minFileBucketBits = 12 := rfl
  have h18 : minFileBucketBits + minDirBits = 18 := rfl
  cases h with
  | @small d b slt hb hs small bucket slot =>
    rw [MknodInside, DeleteFileInside, DeleteBigFileInside, small, if_pos rfl, bucket, slot, h12,
      h18, not_rejects_iff hs, not_rejects_iff hs, inTable_iff hs, inTable_iff hs]
    refine ⟨iff_of_true hb trivial, iff_of_true (fun _ => hb) trivial, iff_of_true ?_ trivial⟩
    intro _
    omega
  | @big d b slt hb hs big bucket slot =>
    have hlt : bigSeg b slt % 8 < 8 := Nat.mod_lt _ (by norm_num)
    rw [MknodInside, DeleteFileInside, DeleteBigFileInside, if_neg big, bucket, slot, h12, h18,
      not_rejects_iff hlt, not_rejects_iff hlt, inTable_iff hlt, inTable_iff hlt]
    simp only [Place.BucketFits, Place.NotBehindSmall, Place.NotBehindBig, bigSeg]
    split_ifs <;> omega

/-- The accesses with what `ffs_mknod` stores for a file are inside their tables exactly when it is
in a small table, or in the big table of a directory whose id has eight low zero bits and not in
bucket `2 ^ 12`. The tests of the two deletes alone let something else through exactly for the
buckets just behind the last ones. -/
theorem accessesInside_iff {sb : SbInfo} {dfi : FfsInodeInfo} {mem : FfsName} {name : CStr} {d : ℕ}
    {r : MknodResult} {ino : BitVec 64} {fi : FfsInodeInfo} (hd : d < 2 ^ 14)
    (hdfi : dfi.dirId = d) (h : ffsMknodFile sb dfi mem name = some r)
    (hc : r.created = some (ino, fi)) :
    ∃ p, createPlace sb dfi name = some p ∧
      (AccessesInside fi ↔ p.BucketFits ∧ p.NotBehindSmall) ∧
      (DeleteFileInside fi ∧ DeleteBigFileInside fi ↔ p.NotBehindSmall ∧ p.NotBehindBig) := by
  obtain ⟨p, hp, hat⟩ := mknodFile_createdAt hd hdfi h hc
  obtain ⟨hmknod, hsmall, hbig⟩ := hat.accesses_iff
  -- a bucket number without bits of the directory id is not behind the last one
  have hfits : p.BucketFits → p.NotBehindBig := by
    cases p with
    | dir d => exact id
    | small d b slt => exact id
    | big d b slt =>
      intro h0 h1
      have h0' : d % 2 ^ 8 = 0 := h0
      omega
  refine ⟨p, hp, ⟨fun ha => ?_, fun hok => ?_⟩, and_congr hsmall hbig⟩
  · exact ⟨hmknod.mp ha.mknod, hsmall.mp ha.deleteFile⟩
  · exact ⟨hmknod.mpr hok.1, hsmall.mpr hok.2, hbig.mpr (hfits hok.1)⟩

def bigDirSb : SbInfo :=
  { fillSuper (fun _ _ => 0) fun _ => ⟨0, 0, 0⟩ with
    bigDirHashtbl := fun pos => if pos = 0 then some initBigFileHt else none }

def bigDirInfo (d : ℤ) : FfsInodeInfo := ⟨d, -1, -1, 1, 1, 0, 0, 0, fun _ => 0⟩

theorem accessesInside_256 : ∃ r ino fi,
    ffsMknodFile bigDirSb (bigDirInfo 256) ⟨0, fun _ => 0⟩ [102, 49] = some r ∧
      r.created = some (ino, fi) ∧ AccessesInside fi := by
  obtain ⟨r, hmk, hc⟩ := exists_of_check
    (r := ffsMknodFile bigDirSb (bigDirInfo 256) ⟨0, fun _ => 0⟩ [102, 49])
    (p := fun r => r.created.isSome = true) (by decide +kernel)
  obtain ⟨⟨ino, fi⟩, hc⟩ := Option.isSome_iff_exists.mp hc
  obtain ⟨p, hp, hall, -⟩ := accessesInside_iff (d := 256) (by norm_num) rfl hmk hc
  obtain ⟨q, hq, hok⟩ := exists_of_check (r := createPlace bigDirSb (bigDirInfo 256) [102, 49])
    (p := fun p => p.BucketFits ∧ p.NotBehindSmall) (by decide +kernel)
  cases hp.symm.trans hq
  exact ⟨r, ino, fi, hmk, hc, hall.mpr hok⟩

/-- In the promoted directory 257 the file `jj6v` goes to bucket 0; the bucket stored for it is
`2 ^ 18`, which the test of `delete_big_file` lets through. -/
theorem deleteBigFile_past_end : ∃ r ino fi,
    ffsMknodFile bigDirSb (bigDirInfo 257) ⟨0, fun _ => 0⟩ [106, 106, 54, 118] = some r ∧
      r.created = some (ino, fi) ∧ fi.bucketId = 2 ^ 18 ∧
      ¬ Rejects (minFileBucketBits + minDirBits) fi.bucketId fi.slotId ∧
      ¬ DeleteBigFileInside fi := by
  obtain ⟨r, hmk, hc⟩ := exists_of_check
    (r := ffsMknodFile bigDirSb (bigDirInfo 257) ⟨0, fun _ => 0⟩ [106, 106, 54, 118])
    (p := fun r => r.created.any (fun x => decide (x.2.bucketId = 2 ^ 18 ∧
      ¬ Rejects (minFileBucketBits + minDirBits) x.2.bucketId x.2.slotId)) = true)
    (by decide +kernel)
  obtain ⟨⟨ino, fi⟩, hc, hbkt, hpass⟩ := exists_of_check hc
  refine ⟨r, ino, fi, hmk, hc, hbkt, hpass, fun h => ?_⟩
  have hlt := (h hpass).2.1
  rw [hbkt] at hlt
  exact absurd hlt (by decide)

end FlatFS
