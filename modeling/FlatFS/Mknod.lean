import FlatFS.Inode

namespace FlatFS
open Lib

abbrev Device := BitVec 64 → FfsInodePage

/-- `resize_dir`. The search runs over more bits than `big_dir_bitmap` has; `none` is a position
outside the table array, where the code writes past its end. -/
def resizeDir (sb : SbInfo) : Option (ℤ × SbInfo) :=
  if sb.bigDirNum.toNat > 1 <<< minDirBits then some (-1, sb)
  else
    let pos := sb.bigDirBitmap.firstZero (1 <<< maxDirBits)
    if pos < 1 <<< minDirBits then
      some (pos, { sb with
        bigDirHashtbl := Function.update sb.bigDirHashtbl pos (some initBigFileHt)
        bigDirBitmap := sb.bigDirBitmap.set pos
        bigDirNum := sb.bigDirNum + 1#8 })
    else none

/-- The bits from the start of `big_dir_bitmap` on. Behind its 64 bits the structure has
`big_dir_num`, and zeros. -/
def SbInfo.bitmapMemory (sb : SbInfo) : Bitmap :=
  fun i => if i < 1 <<< minDirBits then sb.bigDirBitmap i else sb.bigDirNum.getLsbD (i - 64)

/-- `resize_dir` where every position is taken and the guard lets it go on. `big_dir_hashtbl[64]` is
the word of the bitmap, and the bit 64 that is set is bit 0 of the counter; `addr` is the address
that `vmalloc` returns for the new table. `none` is a write farther behind. -/
def resizeDirBehind (addr : BitVec 64) (sb : SbInfo) : Option (ℤ × SbInfo) :=
  let pos := sb.bitmapMemory.firstZero (1 <<< maxDirBits)
  if pos = 1 <<< minDirBits then
    some (pos, { sb with
      bigDirHashtbl := Function.update sb.bigDirHashtbl pos (some initBigFileHt)
      bigDirBitmap := addr.getLsbD
      bigDirNum := (sb.bigDirNum ||| 1#8) + 1#8 })
  else none

def resizeDirMem (addr : BitVec 64) (sb : SbInfo) : Option (ℤ × SbInfo) :=
  (resizeDir sb).or (resizeDirBehind addr sb)

/-- What `ffs_mknod` leaves behind: the superblock, the inode info of the parent, and the inode
number and info of the new file; no file when it has returned an error. -/
structure MknodResult where
  sb : SbInfo
  dfi : FfsInodeInfo
  created : Option (BitVec 64 × FfsInodeInfo)

def mknodBigFile (sb : SbInfo) (dfi : FfsInodeInfo) (mem : FfsName) (name : CStr) :
    Option MknodResult :=
  (sb.bigDirHashtbl dfi.bigDirId.toNat).map fun ht =>
    let r := flatfsBigFileSlotAllocByName ht dfi.dirId name
    let tables := Function.update sb.bigDirHashtbl dfi.bigDirId.toNat (some r.2)
    ⟨{ sb with bigDirHashtbl := tables }, dfi,
      if r.1 = minusOne then none
      else some (r.1, bigFileInfo dfi.dirId dfi.bigDirId r.1 mem name)⟩

/-- `ffs_mknod` of a file in the directory of `dfi`, over a model of `resize_dir`; `mem` is the
name field of the recycled inode, and `none` stands for a fault of the code. A full bucket promotes
the directory. -/
def mknodFileBy (resize : SbInfo → Option (ℤ × SbInfo)) (sb : SbInfo) (dfi : FfsInodeInfo)
    (mem : FfsName) (name : CStr) : Option MknodResult :=
  if dfi.isBigDir = 0 then
    (sb.hashtbl dfi.dirId.toNat).bind fun ht =>
      let r := flatfsFileSlotAllocByName ht dfi.dirId name
      let sb := { sb with hashtbl := Function.update sb.hashtbl dfi.dirId.toNat (some r.2) }
      if r.1 = minusOne then
        (resize sb).bind fun (pos, sb) =>
          if pos = -1 then some ⟨sb, dfi, none⟩
          else mknodBigFile sb { dfi with isBigDir := 1, bigDirId := pos } mem name
      else some ⟨sb, dfi, some (r.1, smallFileInfo dfi.dirId r.1 mem name)⟩
  else mknodBigFile sb dfi mem name

/-- `ffs_mknod` of a file, as far as it stays within the arrays. -/
def ffsMknodFile (sb : SbInfo) (dfi : FfsInodeInfo) (mem : FfsName) (name : CStr) :
    Option MknodResult :=
  mknodFileBy resizeDir sb dfi mem name

/-- `ffs_mknod` of a file, also where it promotes to the position behind the array. -/
def ffsMknodFileMem (addr : BitVec 64) (sb : SbInfo) (dfi : FfsInodeInfo) (mem : FfsName)
    (name : CStr) : Option MknodResult :=
  mknodFileBy (resizeDirMem addr) sb dfi mem name

/-- The block of a file's inode: `ffs_get_lba_meta` and `ffs_get_big_file_lba_meta`. -/
def fileMetaLba (fi : FfsInodeInfo) : BitVec 64 :=
  if fi.isBigDir = 0 then composeLba fi.dirId fi.bucketId 0 0
  else composeBigFileLba fi.dirId fi.bucketId 0 0

def ffsDirtyInode (dev : Device) (fi : FfsInodeInfo) : Device :=
  Function.update dev (fileMetaLba fi) (dirtyPage fi fi.valid (dev (fileMetaLba fi)))

/-- The directory field of a big file: the low eleven bits of the id, sign-extended. -/
def bigDirField (d : ℕ) : ℕ :=
  if d % 2 ^ 11 < 2 ^ 10 then d % 2 ^ 11 * 2 ^ 21 else 2 ^ 64 - 2 ^ 32 + d % 2 ^ 11 * 2 ^ 21

theorem bigDirField_toNat (d : ℕ) :
    (BitVec.ofInt 64 (shlInt d (fileSlotBits + minFileBucketBits + minDirBits))).toNat =
      bigDirField d := by
  have h21 : fileSlotBits + minFileBucketBits + minDirBits = 21 := rfl
  rw [BitVec.toNat_ofInt, shlInt, h21, Int.bmod_def, bigDirField]
  have hmod : ((d : ℤ) * 2 ^ 21) % ((2 ^ 32 : ℕ) : ℤ) = ((d % 2 ^ 11 * 2 ^ 21 : ℕ) : ℤ) := by
    push_cast
    omega
  rw [hmod]
  split_ifs <;> omega

theorem bigDirField_dvd (d : ℕ) : 2 ^ 21 ∣ bigDirField d := by
  unfold bigDirField
  split_ifs <;> omega

theorem segIno_big {seg : BitVec 64} {b slt : ℕ} (d : ℕ) (hseg : seg.toNat = b * 8 + slt)
    (hb : b < 2 ^ 18) (hs : slt < 8) :
    (segIno (fileSlotBits + minFileBucketBits + minDirBits) seg d).toNat =
      bigDirField d + b * 8 + slt := by
  have hdvd : 2 ^ 21 ∣ (BitVec.ofInt 64
      (shlInt d (fileSlotBits + minFileBucketBits + minDirBits))).toNat := by
    rw [bigDirField_toNat]
    exact bigDirField_dvd d
  rw [segIno, or_eq_add (k := 21) hdvd (by omega), bigDirField_toNat, hseg]
  omega

/-- `big_ino_to_bucket` keeps eight bits of the directory id above the bucket. -/
theorem bigIno_decodes {ino : BitVec 64} {d seg : ℕ} (hseg : seg < 2 ^ 21)
    (hino : ino.toNat = bigDirField d + seg) :
    bigInoToBucket ino = (d % 2 ^ 8 * 2 ^ 18 + seg / 8 : ℕ) ∧ inoToSlot ino = (seg % 8 : ℕ) := by
  rw [bigInoToBucket_eq, inoToSlot_eq, hino, bigDirField]
  constructor
  · apply congrArg Nat.cast
    split_ifs <;> omega
  · apply congrArg Nat.cast
    split_ifs <;> omega

theorem bigFileSlotAlloc_free {ht : BigDirHashTable} (d : ℕ) {name : CStr}
    (hf : ¬ (ht.buckets (bigBucket name)).Full) :
    let b := bigBucket name
    let slt := (ht.buckets b).freeSlot
    (flatfsBigFileSlotAllocByName ht d name).1.toNat = bigDirField d + b * 8 + slt ∧
      (flatfsBigFileSlotAllocByName ht d name).2 = ht.modify b (·.take slt) := by
  intro b slt
  obtain ⟨hseg, hht⟩ := insertBigFile_free hf
  have he : flatfsBigFileSlotAllocByName ht d name =
      (segIno (fileSlotBits + minFileBucketBits + minDirBits) (insertBigFile ht name).1 d,
        (insertBigFile ht name).2) := if_neg (insertBigFile_ne_neg_one ht name)
  rw [he]
  exact ⟨segIno_big d hseg (bigBucket_lt name) (Bucket.freeSlot_lt hf), hht⟩

section

variable {sb : SbInfo} {dfi : FfsInodeInfo} {mem : FfsName} {name : CStr} {r : MknodResult}

theorem mknodBigFile_result (h : mknodBigFile sb dfi mem name = some r) :
    r.dfi = dfi ∧ ∀ ino fi, r.created = some (ino, fi) →
      fi = bigFileInfo dfi.dirId dfi.bigDirId ino mem name := by
  obtain ⟨ht, -, hr⟩ := Option.map_eq_some_iff.mp h
  rw [← hr]
  refine ⟨rfl, fun ino fi hc => ?_⟩
  dsimp only at hc
  split_ifs at hc
  cases hc
  rfl

/-- Whatever branch `ffs_mknod` takes, it does not write the size of the directory, and a file that
it creates has the info of a small file or of a big one. -/
theorem mknodFile_result (h : ffsMknodFile sb dfi mem name = some r) :
    r.dfi.iSize = dfi.iSize ∧ ∀ ino fi, r.created = some (ino, fi) →
      fi = smallFileInfo dfi.dirId ino mem name ∨
        fi = bigFileInfo dfi.dirId r.dfi.bigDirId ino mem name := by
  unfold ffsMknodFile mknodFileBy at h
  split_ifs at h with hbig
  · obtain ⟨ht, -, h⟩ := Option.bind_eq_some_iff.mp h
    dsimp only at h
    split_ifs at h with hfull
    · obtain ⟨⟨pos, sb'⟩, -, h⟩ := Option.bind_eq_some_iff.mp h
      dsimp only at h
      split_ifs at h with hpos
      · cases h
        exact ⟨rfl, fun ino fi hc => by cases hc⟩
      · -- the directory has been promoted
        obtain ⟨hdfi, hcreated⟩ := mknodBigFile_result h
        rw [hdfi]
        exact ⟨rfl, fun ino fi hc => .inr (hcreated ino fi hc)⟩
    · cases h
      refine ⟨rfl, fun ino fi hc => .inl ?_⟩
      cases hc
      rfl
  · obtain ⟨hdfi, hcreated⟩ := mknodBigFile_result h
    rw [hdfi]
    exact ⟨rfl, fun ino fi hc => .inr (hcreated ino fi hc)⟩

end

def HasFreePosition (sb : SbInfo) : Prop := ∃ p < 64, sb.bigDirBitmap p = false

instance (sb : SbInfo) : Decidable (HasFreePosition sb) := inferInstanceAs (Decidable (∃ p < 64, _))

/-- `resize_dir` passes its guard and finds a position of the array. -/
def FindsPosition (sb : SbInfo) : Prop := sb.bigDirNum.toNat ≤ 64 ∧ HasFreePosition sb

instance (sb : SbInfo) : Decidable (FindsPosition sb) := inferInstanceAs (Decidable (_ ∧ _))

/-- When every position is taken, the counter says 64 at least. In every run it counts the set bits
(`BigRun.Inv.num`). -/
def CountsPositions (sb : SbInfo) : Prop := ¬ HasFreePosition sb → 64 ≤ sb.bigDirNum.toNat

section

variable {sb : SbInfo} {dfi : FfsInodeInfo} {name : CStr} {d : ℕ} {ht : HashTable}

variable {resize : SbInfo → Option (ℤ × SbInfo)}

theorem mknodFileBy_free (mem : FfsName) (hbig : dfi.isBigDir = 0) (hdfi : dfi.dirId = d)
    (hht : sb.hashtbl d = some ht) (hd : d < 2 ^ 14)
    (hf : ¬ (ht.buckets (smallBucket name)).Full) :
    let b := smallBucket name
    let slt := (ht.buckets b).freeSlot
    ∃ ino, mknodFileBy resize sb dfi mem name = some
        ⟨{ sb with hashtbl := Function.update sb.hashtbl d (some (ht.modify b (·.take slt))) }, dfi,
          some (ino, smallFileInfo d ino mem name)⟩ ∧
      ino.toNat = d * 2 ^ 15 + b * 8 + slt := by
  intro b slt
  obtain ⟨hino, htab, -⟩ := fileSlotAlloc_free hd hf
  have hlt := smallBucket_lt name
  have hs := Bucket.freeSlot_lt hf
  have hne : (flatfsFileSlotAllocByName ht d name).1 ≠ minusOne := by
    intro he
    rw [he, minusOne_toNat] at hino
    omega
  refine ⟨(flatfsFileSlotAllocByName ht d name).1, ?_, hino⟩
  simp only [mknodFileBy, hbig, if_true, hdfi, Int.toNat_natCast, hht, Option.bind_some]
  rw [if_neg hne, htab]

theorem mknodFile_free (mem : FfsName) (hbig : dfi.isBigDir = 0) (hdfi : dfi.dirId = d)
    (hht : sb.hashtbl d = some ht) (hd : d < 2 ^ 14)
    (hf : ¬ (ht.buckets (smallBucket name)).Full) :
    let b := smallBucket name
    let slt := (ht.buckets b).freeSlot
    ∃ ino, ffsMknodFile sb dfi mem name = some
        ⟨{ sb with hashtbl := Function.update sb.hashtbl d (some (ht.modify b (·.take slt))) }, dfi,
          some (ino, smallFileInfo d ino mem name)⟩ ∧
      ino.toNat = d * 2 ^ 15 + b * 8 + slt :=
  mknodFileBy_free mem hbig hdfi hht hd hf

/-- The last slot of the last bucket of a directory with the id bits all ones has the number -1:
the slot is taken, and the create fails. -/
theorem mknodBigFile_free (mem : FfsName) {pos : ℤ} (hpos : dfi.bigDirId = pos)
    (hdfi : dfi.dirId = d) (hht : sb.bigDirHashtbl pos.toNat = some ht)
    (hf : ¬ (ht.buckets (bigBucket name)).Full) :
    let b := bigBucket name
    let slt := (ht.buckets b).freeSlot
    ∃ ino, mknodBigFile sb dfi mem name = some
        ⟨{ sb with bigDirHashtbl :=
            Function.update sb.bigDirHashtbl pos.toNat (some (ht.modify b (·.take slt))) }, dfi,
          if ino = minusOne then none else some (ino, bigFileInfo d pos ino mem name)⟩ ∧
      ino.toNat = bigDirField d + b * 8 + slt := by
  intro b slt
  obtain ⟨hino, htab⟩ := bigFileSlotAlloc_free d hf
  refine ⟨(flatfsBigFileSlotAllocByName ht d name).1, ?_, hino⟩
  simp only [mknodBigFile, hpos, hht, Option.map_some, hdfi, htab]
  rfl

def promotedSb (sb : SbInfo) (pos : ℕ) (big : BigDirHashTable) : SbInfo :=
  { sb with
    bigDirHashtbl := Function.update sb.bigDirHashtbl pos (some big)
    bigDirBitmap := sb.bigDirBitmap.set pos
    bigDirNum := sb.bigDirNum + 1#8 }

theorem promotedSb_table (sb : SbInfo) (pos : ℕ) :
    (promotedSb sb pos initBigFileHt).bigDirHashtbl (Int.toNat pos) = some initBigFileHt := by
  simp [promotedSb]

theorem initBigFileHt_free (b : ℕ) :
    ¬ (initBigFileHt.buckets b).Full ∧ (initBigFileHt.buckets b).freeSlot = 0 := by
  change ¬ Bucket.empty.Full ∧ Bucket.empty.freeSlot = 0
  decide

theorem mknodFileBy_full (mem : FfsName) (hbig : dfi.isBigDir = 0) (hdfi : dfi.dirId = d)
    (hht : sb.hashtbl d = some ht) (hf : (ht.buckets (smallBucket name)).Full) :
    mknodFileBy resize sb dfi mem name = (resize sb).bind fun (pos, sb) =>
      if pos = -1 then some ⟨sb, dfi, none⟩
      else mknodBigFile sb { dfi with isBigDir := 1, bigDirId := pos } mem name := by
  -- the failed insert leaves the table as it was
  have hsame : Function.update sb.hashtbl d (some ht) = sb.hashtbl := by
    rw [← hht, Function.update_eq_self]
  simp only [mknodFileBy, hbig, if_true, hdfi, Int.toNat_natCast, hht, Option.bind_some,
    fileSlotAlloc_full _ hf, hsame]

theorem mknodFile_full (mem : FfsName) (hbig : dfi.isBigDir = 0) (hdfi : dfi.dirId = d)
    (hht : sb.hashtbl d = some ht) (hf : (ht.buckets (smallBucket name)).Full) :
    ffsMknodFile sb dfi mem name = (resizeDir sb).bind fun (pos, sb) =>
      if pos = -1 then some ⟨sb, dfi, none⟩
      else mknodBigFile sb { dfi with isBigDir := 1, bigDirId := pos } mem name :=
  mknodFileBy_full mem hbig hdfi hht hf

theorem resizeDir_eq (sb : SbInfo) :
    let pos := sb.bigDirBitmap.firstZero (2 ^ 14)
    resizeDir sb = if 64 < sb.bigDirNum.toNat then some (-1, sb)
      else if pos < 64 then some ((pos : ℤ), promotedSb sb pos initBigFileHt) else none := rfl

theorem resizeDir_cannot (h : ¬ FindsPosition sb) :
    resizeDir sb = none ∨ resizeDir sb = some (-1, sb) := by
  rw [resizeDir_eq]
  split_ifs with hnum hpos
  · exact .inr rfl
  · exact absurd ⟨not_lt.mp hnum, _, hpos, Bitmap.firstZero_clear (hpos.trans (by norm_num))⟩ h
  · exact .inl rfl

theorem resizeDir_can (h : FindsPosition sb) :
    ∃ pos : ℕ, sb.bigDirBitmap pos = false ∧
      resizeDir sb = some ((pos : ℤ), promotedSb sb pos initBigFileHt) := by
  obtain ⟨hnum, p, hp, hclear⟩ := h
  have hpos : sb.bigDirBitmap.firstZero (2 ^ 14) < 64 := by
    by_contra hge
    have hset := Bitmap.set_of_lt_firstZero (lt_of_lt_of_le hp (not_lt.mp hge))
    rw [hclear] at hset
    cases hset
  exact ⟨_, Bitmap.firstZero_clear (hpos.trans (by norm_num)),
    by rw [resizeDir_eq, if_neg (not_lt.mpr hnum), if_pos hpos]⟩

/-- With every position taken the code goes on behind the array. -/
theorem resizeDir_full (hnum : sb.bigDirNum.toNat ≤ 64) (hfull : ¬ HasFreePosition sb) :
    resizeDir sb = none := by
  rw [resizeDir_eq, if_neg (not_lt.mpr hnum), if_neg]
  exact fun hlt => hfull ⟨_, hlt, Bitmap.firstZero_clear (hlt.trans (by norm_num))⟩

/-- With 64 positions taken and 64 in the counter, bit 0 of the counter is the first zero. -/
theorem resizeDirBehind_eq (addr : BitVec 64) (hfull : ¬ HasFreePosition sb)
    (hnum : sb.bigDirNum.toNat = 64) :
    resizeDirBehind addr sb = some (64, { sb with
      bigDirHashtbl := Function.update sb.bigDirHashtbl 64 (some initBigFileHt)
      bigDirBitmap := addr.getLsbD
      bigDirNum := 66#8 }) := by
  have h6 : 1 <<< minDirBits = 64 := rfl
  have h14 : 1 <<< maxDirBits = 2 ^ 14 := rfl
  have h64 : sb.bigDirNum = 64#8 := BitVec.eq_of_toNat_eq hnum
  have hpos : sb.bitmapMemory.firstZero (2 ^ 14) = 64 := by
    apply Bitmap.firstZero_eq (by norm_num)
    · intro p hp
      rw [SbInfo.bitmapMemory, h6, if_pos hp]
      by_contra hclear
      exact hfull ⟨p, hp, by simpa using hclear⟩
    · rw [SbInfo.bitmapMemory, h64]
      rfl
  rw [resizeDirBehind, h14, hpos, h6, if_pos rfl, h64]
  rfl

structure PromotedAt (sb sb' : SbInfo) (pos : ℕ) : Prop where
  dtree : sb'.dtree = sb.dtree
  hashtbl : sb'.hashtbl = sb.hashtbl
  table : sb'.bigDirHashtbl pos = some initBigFileHt

/-- Unless the guard refuses, a directory is promoted, if need be to the position behind the
array. -/
theorem resizeDirMem_promotes (addr : BitVec 64) (hnum : sb.bigDirNum.toNat ≤ 64)
    (hcount : CountsPositions sb) :
    ∃ (pos : ℕ) (sb' : SbInfo), resizeDirMem addr sb = some ((pos : ℤ), sb') ∧
      PromotedAt sb sb' pos := by
  by_cases hfree : HasFreePosition sb
  · obtain ⟨pos, -, hres⟩ := resizeDir_can ⟨hnum, hfree⟩
    refine ⟨pos, promotedSb sb pos initBigFileHt, ?_, rfl, rfl, promotedSb_table sb pos⟩
    rw [resizeDirMem, hres, Option.some_or]
  · have hbehind := resizeDirBehind_eq addr hfree (le_antisymm hnum (hcount hfree))
    rw [resizeDirMem, resizeDir_full hnum hfree, Option.none_or, hbehind]
    refine ⟨64, _, rfl, rfl, rfl, ?_⟩
    simp

/-- The create that promotes the directory takes slot 0 of the name's bucket in a fresh table. -/
theorem mknodFileBy_promotes {sb' : SbInfo} {pos : ℕ} (mem : FfsName) (hbig : dfi.isBigDir = 0)
    (hdfi : dfi.dirId = d) (hht : sb.hashtbl d = some ht)
    (hf : (ht.buckets (smallBucket name)).Full) (hres : resize sb = some ((pos : ℤ), sb'))
    (hpos : sb'.bigDirHashtbl pos = some initBigFileHt) :
    ∃ ino : BitVec 64, mknodFileBy resize sb dfi mem name = some
        ⟨{ sb' with
            bigDirHashtbl := Function.update sb'.bigDirHashtbl pos
              (some (initBigFileHt.modify (bigBucket name) (·.take 0))) },
          { dfi with isBigDir := 1, bigDirId := pos },
          some (ino, bigFileInfo d pos ino mem name)⟩ ∧
      ino.toNat = bigDirField d + bigBucket name * 8 := by
  obtain ⟨hfree, hslot⟩ := initBigFileHt_free (bigBucket name)
  obtain ⟨ino, hmk, hino⟩ := mknodBigFile_free mem (rfl : FfsInodeInfo.bigDirId
    { dfi with isBigDir := 1, bigDirId := (pos : ℤ) } = pos) hdfi hpos hfree
  rw [hslot] at hmk hino
  have hne : ino ≠ minusOne := by
    intro he
    have hlt := bigBucket_lt name
    rw [he, minusOne_toNat, bigDirField] at hino
    split_ifs at hino <;> omega
  have hpos' : ¬ (pos : ℤ) = -1 := by omega
  rw [if_neg hne] at hmk
  refine ⟨ino, ?_, hino⟩
  rw [mknodFileBy_full mem hbig hdfi hht hf, hres, Option.bind_some]
  dsimp only
  rw [if_neg hpos', hmk]
  rfl

end

end FlatFS
