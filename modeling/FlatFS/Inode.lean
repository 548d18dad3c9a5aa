import FlatFS.DirTree

namespace FlatFS
open Lib

structure FfsName where
  nameLen : UInt8
  name : ℕ → UInt8

structure FfsInode where
  valid : ℤ
  size : ℤ
  filename : FfsName

structure FfsInodePage where
  slotBitmap : Bitmap
  validSlotNum : ℤ
  inode : ℕ → FfsInode

def zeroPage : FfsInodePage := ⟨Bitmap.zero, 0, fun _ => ⟨0, 0, 0, fun _ => 0⟩⟩

/-- `struct ffs_inode_info` with the `i_size` of its inode. -/
structure FfsInodeInfo where
  dirId : ℤ
  bucketId : ℤ
  slotId : ℤ
  valid : ℤ
  isBigDir : UInt8
  bigDirId : ℤ
  iSize : ℤ
  filename : FfsName

def FfsName.bytes (x : FfsName) : List UInt8 := (List.range x.nameLen.toNat).map x.name

theorem map_memcpy (dst : ℕ → UInt8) {src : List UInt8} {n : ℕ} (h : src.length = n) :
    (List.range n).map (memcpy dst src) = src := by
  apply List.ext_getElem
  · rw [List.length_map, List.length_range, h]
  · intro i hi hi'
    simp [memcpy, hi']

/-- `ffs_io_end_t`, the record at `b_private`. -/
structure FfsIoEnd where
  dirId : ℤ
  bucketId : ℤ
  slotId : ℤ
  isBigDir : UInt8
  bigDirId : ℤ
deriving DecidableEq

def inoToSlot (ino : BitVec 64) : ℤ := (ino &&& ((1#64 <<< fileSlotBits) - 1#64)).toNat

def inoToBucket (ino : BitVec 64) : ℤ :=
  ((ino >>> fileSlotBits) &&& ((1#64 <<< minFileBucketBits) - 1#64)).toNat

/-- `big_ino_to_bucket`, with the mask of `BUCKETS_PER_BIG_DIR`. -/
def bigInoToBucket (ino : BitVec 64) : ℤ :=
  ((ino >>> fileSlotBits) &&& ((1#64 <<< (maxFileBucketBits + minDirBits)) - 1#64)).toNat

/-- A segment or'ed with the directory id, which is shifted as an `int` and then extended. -/
def segIno (shift : ℕ) (fileSeg : BitVec 64) (parentDirId : ℤ) : BitVec 64 :=
  fileSeg ||| BitVec.ofInt 64 (shlInt parentDirId shift)

/-- The common body of the two allocation functions. -/
def slotAllocByName (ins : HashTable → CStr → BitVec 64 × HashTable) (shift : ℕ)
    (hashtbl : HashTable) (parentDirId : ℤ) (child : CStr) : BitVec 64 × HashTable :=
  let r := ins hashtbl child
  if r.1 = minusOne then r else (segIno shift r.1 parentDirId, r.2)

def flatfsFileSlotAllocByName : HashTable → ℤ → CStr → BitVec 64 × HashTable :=
  slotAllocByName insertFile (fileSlotBits + minFileBucketBits)

def flatfsBigFileSlotAllocByName : BigDirHashTable → ℤ → CStr → BitVec 64 × BigDirHashTable :=
  slotAllocByName insertBigFile (fileSlotBits + minFileBucketBits + minDirBits)

/-- `name_len` is one byte, and only that many bytes are copied over what the inode cache left. -/
def fillName (mem : FfsName) (name : CStr) : FfsName :=
  let nameLen := UInt8.ofNat (myStrlen name)
  ⟨nameLen, memcpy mem.name (name.take nameLen.toNat)⟩

/-- The branch for a file in the small table; `mem` is the recycled name field. -/
def smallFileInfo (dirId : ℤ) (ino : BitVec 64) (mem : FfsName) (name : CStr) : FfsInodeInfo where
  dirId := dirId
  bucketId := inoToBucket ino
  slotId := inoToSlot ino
  valid := 1
  isBigDir := 0
  bigDirId := -1
  iSize := 0
  filename := fillName mem name

def bigFileInfo (dirId bigDirId : ℤ) (ino : BitVec 64) (mem : FfsName) (name : CStr) :
    FfsInodeInfo where
  dirId := dirId
  bucketId := bigInoToBucket ino
  slotId := inoToSlot ino
  valid := 1
  isBigDir := 1
  bigDirId := bigDirId
  iSize := 0
  filename := fillName mem name

/-- What `ffs_dirty_inode` writes for a file, given the value of `fi->valid` it has read. A name
length is one byte and never above `FFS_MAX_FILENAME_LEN`. -/
def dirtyPage (fi : FfsInodeInfo) (valid : ℤ) (page : FfsInodePage) : FfsInodePage :=
  let slot := fi.slotId.toNat
  if valid ≠ 0 then
    { page with
      slotBitmap := page.slotBitmap.set slot
      inode := Function.update page.inode slot
        ⟨valid, fi.iSize, fi.filename.nameLen,
          memcpy (page.inode slot).filename.name
            ((List.range fi.filename.nameLen.toNat).map fi.filename.name)⟩ }
  else page

/-- What `ffs_unlink` writes under the buffer lock. -/
def clearPage (fi : FfsInodeInfo) (page : FfsInodePage) : FfsInodePage :=
  { page with
    slotBitmap := page.slotBitmap.clear fi.slotId.toNat
    validSlotNum := (page.validSlotNum - 1).bmod (2 ^ 32) }

/-- The end of `ffs_unlink`: the inode is invalid and has no name. -/
def invalidate (fi : FfsInodeInfo) : FfsInodeInfo :=
  { fi with
    valid := 0
    filename := ⟨0, fun i => if i < fi.filename.nameLen.toNat then 0 else fi.filename.name i⟩ }

/-- `init_handler_for_discard`. It does not write `is_big_dir`. -/
def initHandlerForDiscard (ioEnd : FfsIoEnd) (fi : FfsInodeInfo) : FfsIoEnd :=
  { ioEnd with
    bigDirId := fi.bigDirId
    dirId := fi.dirId
    bucketId := fi.bucketId
    slotId := fi.slotId }

def callbackForDiscard (sb : SbInfo) (ioEnd : FfsIoEnd) : SbInfo :=
  if ioEnd.isBigDir = 0 then
    let ht := (sb.hashtbl ioEnd.dirId.toNat).map fun ht =>
      (deleteFile ht ioEnd.bucketId ioEnd.slotId).2
    { sb with hashtbl := Function.update sb.hashtbl ioEnd.dirId.toNat ht }
  else
    let ht := (sb.bigDirHashtbl ioEnd.bigDirId.toNat).map fun ht =>
      (deleteBigFile ht ioEnd.bucketId ioEnd.slotId).2
    { sb with bigDirHashtbl := Function.update sb.bigDirHashtbl ioEnd.bigDirId.toNat ht }

theorem dirtyPage_inode (fi : FfsInodeInfo) {valid : ℤ} (h : valid ≠ 0) (page : FfsInodePage)
    (j : ℕ) :
    (dirtyPage fi valid page).inode j =
      if j = fi.slotId.toNat then
        ⟨valid, fi.iSize, fi.filename.nameLen,
          memcpy (page.inode j).filename.name fi.filename.bytes⟩
      else page.inode j := by
  rw [dirtyPage, if_pos h]
  dsimp only
  rw [Function.update_apply]
  split_ifs with hj
  · rw [hj]
    rfl
  · rfl

theorem dirtyPage_header (fi : FfsInodeInfo) {valid : ℤ} (h : valid ≠ 0) (page : FfsInodePage) :
    (dirtyPage fi valid page).slotBitmap = page.slotBitmap.set fi.slotId.toNat ∧
      (dirtyPage fi valid page).validSlotNum = page.validSlotNum := by
  rw [dirtyPage, if_pos h]
  exact ⟨rfl, rfl⟩

theorem dirtyPage_name (fi : FfsInodeInfo) {valid : ℤ} (h : valid ≠ 0) (page : FfsInodePage)
    (j : ℕ) :
    ((dirtyPage fi valid page).inode j).filename.name =
      if j = fi.slotId.toNat then memcpy (page.inode j).filename.name fi.filename.bytes
      else (page.inode j).filename.name := by
  rw [dirtyPage_inode fi h]
  split_ifs <;> rfl

/-- The inode number of a small file: directory, bucket and slot side by side. -/
theorem segIno_small {seg : BitVec 64} {d b slt : ℕ} (hd : d < 2 ^ 14)
    (hseg : seg.toNat = b * 8 + slt) (hb : b < 2 ^ 12) (hs : slt < 8) :
    (segIno (fileSlotBits + minFileBucketBits) seg d).toNat = d * 2 ^ 15 + b * 8 + slt := by
  have hsh : shlInt d (fileSlotBits + minFileBucketBits) = ((d * 2 ^ 15 : ℕ) : ℤ) := by
    have h15 : fileSlotBits + minFileBucketBits = 15 := rfl
    rw [shlInt, h15, Int.bmod_def]
    push_cast
    omega
  have hx : (BitVec.ofNat 64 (d * 2 ^ 15)).toNat = 2 ^ 15 * d := by
    rw [BitVec.toNat_ofNat, Nat.mod_eq_of_lt (by omega), mul_comm]
  rw [segIno, hsh, BitVec.ofInt_natCast, or_eq_add (k := 15) ⟨d, hx⟩ (by omega), hx, hseg]
  omega

theorem mask_low {x : BitVec 64} {k : ℕ} (hk : k < 64) :
    (x &&& ((1#64 <<< k) - 1#64)).toNat = x.toNat % 2 ^ k := by
  rw [BitVec.toNat_and, mask_toNat hk, Nat.and_two_pow_sub_one_eq_mod]

theorem inoToSlot_eq (ino : BitVec 64) : inoToSlot ino = (ino.toNat % 8 : ℕ) := by
  rw [inoToSlot, mask_low (by norm_num)]
  rfl

theorem inoToBucket_eq (ino : BitVec 64) : inoToBucket ino = (ino.toNat / 8 % 2 ^ 12 : ℕ) := by
  rw [inoToBucket, mask_low (by norm_num), BitVec.toNat_ushiftRight, Nat.shiftRight_eq_div_pow]
  rfl

theorem bigInoToBucket_eq (ino : BitVec 64) :
    bigInoToBucket ino = (ino.toNat / 8 % 2 ^ 26 : ℕ) := by
  rw [bigInoToBucket, mask_low (by norm_num), BitVec.toNat_ushiftRight, Nat.shiftRight_eq_div_pow]
  rfl

/-- The number of a small file decodes into the bucket and the slot it was made of. -/
theorem smallIno_decodes {ino : BitVec 64} {d b slt : ℕ} (hb : b < 2 ^ 12) (hs : slt < 8)
    (hino : ino.toNat = d * 2 ^ 15 + b * 8 + slt) : inoToBucket ino = b ∧ inoToSlot ino = slt := by
  rw [inoToBucket_eq, inoToSlot_eq, hino]
  constructor
  · apply congrArg Nat.cast
    omega
  · apply congrArg Nat.cast
    omega

theorem fileSlotAlloc_free {ht : HashTable} {d : ℕ} (hd : d < 2 ^ 14) {name : CStr}
    (hf : ¬ (ht.buckets (smallBucket name)).Full) :
    let b := smallBucket name
    let slt := (ht.buckets b).freeSlot
    (flatfsFileSlotAllocByName ht d name).1.toNat = d * 2 ^ 15 + b * 8 + slt ∧
      (flatfsFileSlotAllocByName ht d name).2 = ht.modify b (·.take slt) ∧
      inoToBucket (flatfsFileSlotAllocByName ht d name).1 = b ∧
      inoToSlot (flatfsFileSlotAllocByName ht d name).1 = slt := by
  intro b slt
  obtain ⟨hseg, hht⟩ := insertFile_free hf
  have hb := smallBucket_lt name
  have hs : slt < 8 := Bucket.freeSlot_lt hf
  have hne : (insertFile ht name).1 ≠ minusOne := seg_ne_neg_one hseg (by omega) hs
  have he : flatfsFileSlotAllocByName ht d name =
      (segIno (fileSlotBits + minFileBucketBits) (insertFile ht name).1 d,
        (insertFile ht name).2) := if_neg hne
  have hino : (segIno (fileSlotBits + minFileBucketBits) (insertFile ht name).1 d).toNat =
      d * 2 ^ 15 + b * 8 + slt := segIno_small hd hseg hb hs
  rw [he]
  exact ⟨hino, hht, smallIno_decodes hb hs hino⟩

theorem fileSlotAlloc_full {ht : HashTable} (d : ℤ) {name : CStr}
    (hf : (ht.buckets (smallBucket name)).Full) :
    flatfsFileSlotAllocByName ht d name = (minusOne, ht) := by
  simp [flatfsFileSlotAllocByName, slotAllocByName, insertFile_full hf]

end FlatFS
