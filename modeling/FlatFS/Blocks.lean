import FlatFS.Inode

namespace FlatFS
open Lib

abbrev blockShift : ℕ := 12

def ffsGetLbaData (fi : FfsInodeInfo) (iblock : BitVec 64) : BitVec 64 :=
  composeLba fi.dirId fi.bucketId fi.slotId 1 ||| iblock <<< blockShift

def ffsGetBigFileLbaData (fi : FfsInodeInfo) (iblock : BitVec 64) : BitVec 64 :=
  composeBigFileLba fi.dirId fi.bucketId fi.slotId 1 ||| iblock <<< blockShift

/-- `ffs_get_lba_dir_meta`: an inode number other than -1 overrides the given id, an `int`. -/
def ffsGetLbaDirMeta (ino : BitVec 64) (dirId : ℤ) : BitVec 64 :=
  BitVec.ofInt 64 (if ino ≠ minusOne then ((inodeToDirId ino).setWidth 32).toInt else dirId)

def lbaToBlock (lba : BitVec 64) : BitVec 64 := lba &&& ((1#64 <<< defaultFileBlockBits) - 1#64)

def lbaToSlot (lba : BitVec 64) : BitVec 64 :=
  (lba >>> defaultFileBlockBits) &&& ((1#64 <<< fileSlotBits) - 1#64)

def lbaToDir (lba : BitVec 64) : BitVec 64 :=
  lba >>> (defaultFileBlockBits + fileSlotBits + minFileBucketBits)

/-- `compose_to_lba`, on arguments of the type `lba_t`. -/
def composeToLba (dir bucket slot block : BitVec 64) : BitVec 64 :=
  block + ((slot + ((bucket + (dir <<< minFileBucketBits)) <<< fileSlotBits)) <<<
    defaultFileBlockBits)

/-- What `ffs_get_block_prep` does to a buffer: the device block it maps, and whether the buffer
is marked new. -/
structure MappedBlock where
  pblk : BitVec 64
  isNew : Bool

/-- `ffs_get_block_prep`; `size` is the field of that name in the inode info, which the comparison
with the block number makes unsigned. -/
def ffsGetBlockPrep (fi : FfsInodeInfo) (size : ℤ) (iblock : BitVec 64) : MappedBlock where
  pblk := (if fi.isBigDir = 0 then ffsGetLbaData fi iblock else ffsGetBigFileLbaData fi iblock) >>>
    blockShift
  isNew := decide (BitVec.ofInt 64 size ≤ iblock)

def logicSbBlock : BitVec 64 := 1#64

structure SmallFile (fi : FfsInodeInfo) (d b slt : ℕ) : Prop where
  dirId : fi.dirId = d
  bucketId : fi.bucketId = b
  slotId : fi.slotId = slt
  small : fi.isBigDir = 0
  two_le : 2 ≤ d
  dir_lt : d < 2 ^ 14
  bucket_lt : b < 2 ^ 12
  slot_lt : slt < 8

structure BigFile (fi : FfsInodeInfo) (d b slt : ℕ) : Prop where
  dirId : fi.dirId = d
  bucketId : fi.bucketId = b
  slotId : fi.slotId = slt
  big : fi.isBigDir ≠ 0
  two_le : 2 ≤ d
  dir_lt : d < 2 ^ 14
  bucket_lt : b < 2 ^ 18
  slot_lt : slt < 8

def fileNumber (d b slt : ℕ) : ℕ := d * 2 ^ 15 + b * 8 + slt

def fileAt (d b slt : ℕ) (isBigDir : UInt8) : FfsInodeInfo where
  dirId := d
  bucketId := b
  slotId := slt
  valid := 1
  isBigDir := isBigDir
  bigDirId := -1
  iSize := 0
  filename := ⟨0, fun _ => 0⟩

theorem composeDataLba_toNat {bits d b slt : ℕ} (hbits : bits ≤ 20) (hb : b < 2 ^ bits)
    (hs : slt < 8) :
    (composeDataLba bits d b slt).toNat =
      d * 2 ^ (bits + 35) % 2 ^ 64 + b * 2 ^ 35 + slt * 2 ^ 32 := by
  have hlt : 2 ^ bits ≤ 2 ^ 20 := Nat.pow_le_pow_right (by norm_num) hbits
  have hfields : 2 ^ (bits + 35) = 2 ^ bits * 2 ^ 35 := pow_add 2 bits 35
  have hbkt : (BitVec.ofNat 64 (b * 2 ^ 35)).toNat = b * 2 ^ 35 := by
    rw [BitVec.toNat_ofNat]
    omega
  have hslt : (BitVec.ofNat 64 (slt * 2 ^ 32)).toNat = slt * 2 ^ 32 := by
    rw [BitVec.toNat_ofNat]
    omega
  have hdir : 2 ^ (bits + 35) ∣ (BitVec.ofNat 64 (d * 2 ^ (bits + 35))).toNat := by
    rw [BitVec.toNat_ofNat]
    apply (Nat.dvd_mod_iff (pow_dvd_pow 2 (by omega))).mpr
    exact dvd_mul_left _ d
  have hor : (BitVec.ofNat 64 (d * 2 ^ (bits + 35)) ||| BitVec.ofNat 64 (b * 2 ^ 35)).toNat =
      d * 2 ^ (bits + 35) % 2 ^ 64 + b * 2 ^ 35 := by
    rw [BitVec.or_comm, or_eq_add hdir (by rw [hbkt, hfields]; omega), hbkt, BitVec.toNat_ofNat]
  have h35 : fileSlotBits + defaultFileBlockBits = 35 := rfl
  have h32 : defaultFileBlockBits = 32 := rfl
  rw [composeDataLba, BitVec.zero_or, add_assoc, h35, h32]
  simp only [BitVec.ofInt_natCast, ofNat_shl]
  have hdvd : 2 ^ 35 ∣ (BitVec.ofNat 64 (d * 2 ^ (bits + 35)) |||
      BitVec.ofNat 64 (b * 2 ^ 35)).toNat := by
    rw [hor]
    apply dvd_add _ (dvd_mul_left _ b)
    apply (Nat.dvd_mod_iff (pow_dvd_pow 2 (by omega))).mpr
    exact dvd_mul_of_dvd_right (pow_dvd_pow 2 (by omega)) d
  rw [BitVec.or_comm, or_eq_add hdvd (by omega), hor, hslt]

theorem iblock_toNat {i : ℕ} (hi : i < 2 ^ 52) :
    (BitVec.ofNat 64 i <<< blockShift).toNat = 2 ^ 12 * i := by
  change (BitVec.ofNat 64 i <<< 12).toNat = _
  rw [ofNat_shl, BitVec.toNat_ofNat, Nat.mod_eq_of_lt (by omega), mul_comm]

/-- The base address of a small file: its number over 32 bits. -/
theorem composeLba_data {d b slt : ℕ} (hd : d < 2 ^ 14) (hb : b < 2 ^ 12) (hs : slt < 8) :
    (composeLba d b slt 1).toNat = 2 ^ 12 * (2 ^ 20 * fileNumber d b slt) := by
  rw [composeLba, if_neg one_ne_zero, composeDataLba_toNat (by norm_num) hb hs,
    Nat.mod_eq_of_lt (by omega), fileNumber]
  omega

/-- The device block of block `i` of a small file: the file number over the low twenty bits, and
the block number or'ed in. -/
theorem SmallFile.pblk {fi : FfsInodeInfo} {d b slt : ℕ} (h : SmallFile fi d b slt) (size : ℤ)
    {i : ℕ} (hi : i < 2 ^ 52) :
    (ffsGetBlockPrep fi size (BitVec.ofNat 64 i)).pblk.toNat =
      2 ^ 20 * fileNumber d b slt ||| i := by
  simp only [ffsGetBlockPrep, h.small, if_true, ffsGetLbaData, h.dirId, h.bucketId, h.slotId]
  rw [BitVec.toNat_ushiftRight, BitVec.toNat_or, composeLba_data h.dir_lt h.bucket_lt h.slot_lt,
    iblock_toNat hi, Nat.shiftRight_or_distrib, Nat.shiftRight_eq_div_pow,
    Nat.shiftRight_eq_div_pow, Nat.mul_div_cancel_left _ (by norm_num),
    Nat.mul_div_cancel_left _ (by norm_num)]

/-- Below `2 ^ 20` the block number does not reach the file number. -/
theorem SmallFile.pblk_of_lt {fi : FfsInodeInfo} {d b slt : ℕ} (h : SmallFile fi d b slt)
    (size : ℤ) {i : ℕ} (hi : i < 2 ^ 20) :
    (ffsGetBlockPrep fi size (BitVec.ofNat 64 i)).pblk.toNat =
      2 ^ 20 * fileNumber d b slt + i := by
  rw [h.pblk size (by omega), ← Nat.two_pow_add_eq_or_of_lt hi]

/-- Two blocks of small files, below the size limit of the mount, are on different device blocks
exactly when they differ in the low twenty bits of the block number or in what the remaining bits
make of the file number. -/
theorem dataBlocks_ne_iff {fi fi' : FfsInodeInfo} {d b slt d' b' slt' : ℕ}
    (h : SmallFile fi d b slt) (h' : SmallFile fi' d' b' slt') (size size' : ℤ) {i j : ℕ}
    (hi : i * 2 ^ 12 < 2 ^ 63 - 1) (hj : j * 2 ^ 12 < 2 ^ 63 - 1) :
    (ffsGetBlockPrep fi size (BitVec.ofNat 64 i)).pblk ≠
        (ffsGetBlockPrep fi' size' (BitVec.ofNat 64 j)).pblk ↔
      i % 2 ^ 20 ≠ j % 2 ^ 20 ∨
        fileNumber d b slt ||| i / 2 ^ 20 ≠ fileNumber d' b' slt' ||| j / 2 ^ 20 := by
  have hlow : ∀ n k : ℕ, (2 ^ 20 * n ||| k) % 2 ^ 20 = k % 2 ^ 20 := by
    intro n k
    rw [Nat.or_mod_two_pow, Nat.mul_mod_right, Nat.zero_or]
  have hhigh : ∀ n k : ℕ, (2 ^ 20 * n ||| k) / 2 ^ 20 = n ||| k / 2 ^ 20 := by
    intro n k
    rw [Nat.or_div_two_pow, Nat.mul_div_cancel_left _ (by norm_num)]
  rw [ne_eq, BitVec.toNat_eq, h.pblk size (by omega), h'.pblk size' (by omega), ← not_and_or]
  apply not_congr
  rw [← hlow (fileNumber d b slt) i, ← hlow (fileNumber d' b' slt') j,
    ← hhigh (fileNumber d b slt) i, ← hhigh (fileNumber d' b' slt') j]
  omega

theorem fileAt_small (d b slt : ℕ) (h2 : 2 ≤ d) (hd : d < 2 ^ 14) (hb : b < 2 ^ 12) (hs : slt < 8) :
    SmallFile (fileAt d b slt 0) d b slt := ⟨rfl, rfl, rfl, rfl, h2, hd, hb, hs⟩

/-- All blocks of all small files below a limit are apart exactly when the limit is at most `2 ^ 20`
blocks, which is four gigabytes. -/
theorem dataBlocks_below_iff {n : ℕ} (hn : n ≤ 2 ^ 51) :
    (∀ fi fi' d b slt d' b' slt' size size' i j, SmallFile fi d b slt → SmallFile fi' d' b' slt' →
      i < n → j < n → (d, b, slt, i) ≠ (d', b', slt', j) →
      (ffsGetBlockPrep fi size (BitVec.ofNat 64 i)).pblk ≠
        (ffsGetBlockPrep fi' size' (BitVec.ofNat 64 j)).pblk) ↔ n ≤ 2 ^ 20 := by
  constructor
  · intro hall
    by_contra hlt
    -- block 2 ^ 20 of slot 0 falls on block 0 of slot 1
    have h0 := fileAt_small 2 0 0 le_rfl (by norm_num) (by norm_num) (by norm_num)
    have h1 := fileAt_small 2 0 1 le_rfl (by norm_num) (by norm_num) (by norm_num)
    apply hall _ _ _ _ _ _ _ _ 0 0 (2 ^ 20) 0 h0 h1 (by omega) (by omega) (by decide)
    decide
  · intro hle fi fi' d b slt d' b' slt' size size' i j h h' hi hj hne he
    have he' := congrArg BitVec.toNat he
    rw [h.pblk_of_lt size (by omega), h'.pblk_of_lt size' (by omega)] at he'
    have hb := h.bucket_lt
    have hs := h.slot_lt
    have hb' := h'.bucket_lt
    have hs' := h'.slot_lt
    simp only [fileNumber] at he'
    apply hne
    simp only [Prod.mk.injEq]
    omega

theorem dataBlocks_ne_first :
    (ffsGetBlockPrep (fileAt 2 0 0 0) 0 (BitVec.ofNat 64 0)).pblk ≠
      (ffsGetBlockPrep (fileAt 2 0 1 0) 0 (BitVec.ofNat 64 0)).pblk :=
  (dataBlocks_ne_iff
    (fileAt_small 2 0 0 le_rfl (by norm_num) (by norm_num) (by norm_num))
    (fileAt_small 2 0 1 le_rfl (by norm_num) (by norm_num) (by norm_num)) 0 0
    (by norm_num) (by norm_num)).mpr (by decide)

/-- Block `2 ^ 20` of the file in slot 0 is block 0 of the file in slot 1, and block `2 ^ 36` of
the first file is its own block 0. -/
theorem dataBlocks_shared :
    2 ^ 20 * 2 ^ 12 < 2 ^ 63 - 1 ∧ 2 ^ 36 * 2 ^ 12 < 2 ^ 63 - 1 ∧
    (ffsGetBlockPrep (fileAt 2 0 0 0) 0 (BitVec.ofNat 64 (2 ^ 20))).pblk =
      (ffsGetBlockPrep (fileAt 2 0 1 0) 0 (BitVec.ofNat 64 0)).pblk ∧
    (ffsGetBlockPrep (fileAt 2 0 0 0) 0 (BitVec.ofNat 64 (2 ^ 36))).pblk =
      (ffsGetBlockPrep (fileAt 2 0 0 0) 0 (BitVec.ofNat 64 0)).pblk := by
  decide

theorem or_tag {x : ℕ} (hx : x < 2 ^ 9) : x ||| 2 ^ 6 = x % 2 ^ 6 + 2 ^ 6 + x / 2 ^ 7 * 2 ^ 7 := by
  have hall : ∀ x < 2 ^ 9, x ||| 2 ^ 6 = x % 2 ^ 6 + 2 ^ 6 + x / 2 ^ 7 * 2 ^ 7 := by decide +kernel
  exact hall x hx

/-- The address of block `i` of a big file: of the directory id there remain the low six bits and
the two above the tag. -/
theorem BigFile.lba {fi : FfsInodeInfo} {d b slt : ℕ} (h : BigFile fi d b slt) {i : ℕ}
    (hi : i < 2 ^ 20) :
    (ffsGetBigFileLbaData fi (BitVec.ofNat 64 i)).toNat =
      (d % 2 ^ 6 + 2 ^ 6 + d / 2 ^ 7 % 2 ^ 2 * 2 ^ 7) * 2 ^ 55 + b * 2 ^ 35 + slt * 2 ^ 32 +
        i * 2 ^ 12 := by
  have hb := h.bucket_lt
  have hs := h.slot_lt
  have hdir : d * 2 ^ (20 + 35) % 2 ^ 64 = d % 2 ^ 9 * 2 ^ 55 := by omega
  have hlow : b * 2 ^ 35 + slt * 2 ^ 32 < 2 ^ 55 := by omega
  have hb20 : b < 2 ^ maxFileBucketBits := show b < 2 ^ 20 by omega
  have hbase : (composeBigFileLba fi.dirId fi.bucketId fi.slotId 1).toNat =
      (d % 2 ^ 6 + 2 ^ 6 + d / 2 ^ 7 % 2 ^ 2 * 2 ^ 7) * 2 ^ 55 + (b * 2 ^ 35 + slt * 2 ^ 32) := by
    have htag : bigTagBase.toNat = 2 ^ 55 * 2 ^ 6 := by decide
    have hor : d % 2 ^ 9 ||| 2 ^ 6 = d % 2 ^ 6 + 2 ^ 6 + d / 2 ^ 7 % 2 ^ 2 * 2 ^ 7 := by
      rw [or_tag (by omega)]
      omega
    rw [composeBigFileLba, if_neg one_ne_zero, h.dirId, h.bucketId, h.slotId, BitVec.toNat_or,
      composeDataLba_toNat (by norm_num) hb20 hs, hdir, htag, add_assoc,
      mul_comm _ (2 ^ 55), add_or_mul hlow, hor, mul_comm]
  have hblk := iblock_toNat (hi.trans (by norm_num))
  have hdvd : 2 ^ 32 ∣ (composeBigFileLba fi.dirId fi.bucketId fi.slotId 1).toNat := by
    rw [hbase]
    omega
  rw [ffsGetBigFileLbaData, BitVec.or_comm, or_eq_add hdvd (by omega), hbase, hblk]
  omega

/-- Two big files have no data address in common exactly when their buckets or slots differ, or
their directory ids do in the bits that the addresses keep. -/
theorem bigData_separated_iff {fi fi' : FfsInodeInfo} {d b slt d' b' slt' : ℕ}
    (h : BigFile fi d b slt) (h' : BigFile fi' d' b' slt') :
    (∀ i < 2 ^ 20, ∀ j < 2 ^ 20, ffsGetBigFileLbaData fi (BitVec.ofNat 64 i) ≠
        ffsGetBigFileLbaData fi' (BitVec.ofNat 64 j)) ↔
      d % 2 ^ 6 ≠ d' % 2 ^ 6 ∨ d / 2 ^ 7 % 2 ^ 2 ≠ d' / 2 ^ 7 % 2 ^ 2 ∨ b ≠ b' ∨ slt ≠ slt' := by
  have hb := h.bucket_lt
  have hs := h.slot_lt
  have hb' := h'.bucket_lt
  have hs' := h'.slot_lt
  constructor
  · intro hall
    by_contra hsame
    apply hall 0 (by norm_num) 0 (by norm_num)
    rw [BitVec.toNat_eq, h.lba (by norm_num), h'.lba (by norm_num)]
    omega
  · intro hdiff i hi j hj he
    rw [BitVec.toNat_eq, h.lba hi, h'.lba hj] at he
    omega

theorem fileAt_big (d b slt : ℕ) (h2 : 2 ≤ d) (hd : d < 2 ^ 14) (hb : b < 2 ^ 18) (hs : slt < 8) :
    BigFile (fileAt d b slt 1) d b slt := ⟨rfl, rfl, rfl, by simp [fileAt], h2, hd, hb, hs⟩

theorem bigData_separated_two_dirs :
    BigFile (fileAt 2 0 0 1) 2 0 0 ∧ BigFile (fileAt 3 0 0 1) 3 0 0 ∧
      ∀ i < 2 ^ 20, ∀ j < 2 ^ 20, ffsGetBigFileLbaData (fileAt 2 0 0 1) (BitVec.ofNat 64 i) ≠
        ffsGetBigFileLbaData (fileAt 3 0 0 1) (BitVec.ofNat 64 j) := by
  have h2 := fileAt_big 2 0 0 le_rfl (by norm_num) (by norm_num) (by norm_num)
  have h3 := fileAt_big 3 0 0 (by norm_num) (by norm_num) (by norm_num) (by norm_num)
  exact ⟨h2, h3, (bigData_separated_iff h2 h3).mpr (by decide)⟩

/-- Directories 2 and 66 share the data addresses of their big files, and so do 2 and 514. -/
theorem bigData_shared :
    BigFile (fileAt 2 0 0 1) 2 0 0 ∧ BigFile (fileAt 66 0 0 1) 66 0 0 ∧
      BigFile (fileAt 514 0 0 1) 514 0 0 ∧
    ffsGetBigFileLbaData (fileAt 2 0 0 1) (BitVec.ofNat 64 0) =
      ffsGetBigFileLbaData (fileAt 66 0 0 1) (BitVec.ofNat 64 0) ∧
    ffsGetBigFileLbaData (fileAt 2 0 0 1) (BitVec.ofNat 64 0) =
      ffsGetBigFileLbaData (fileAt 514 0 0 1) (BitVec.ofNat 64 0) := by
  refine ⟨fileAt_big _ _ _ ?_ ?_ ?_ ?_, fileAt_big _ _ _ ?_ ?_ ?_ ?_,
    fileAt_big _ _ _ ?_ ?_ ?_ ?_, ?_, ?_⟩ <;> decide

/-- The address of block `i` of the file in slot `slt` of bucket `b` of the small table of
directory `d`, `composeToLba` of the four and decoded into them again. -/
structure SmallAddress (a : BitVec 64) (d b slt i : ℕ) : Prop where
  composed : a = composeToLba (BitVec.ofNat 64 d) (BitVec.ofNat 64 b) (BitVec.ofNat 64 slt)
    (BitVec.ofNat 64 (i * 4096))
  dir : (lbaToDir a).toNat = d
  bucket : (a.extractLsb' 35 12).toNat = b
  slot : (lbaToSlot a).toNat = slt
  block : (lbaToBlock a).toNat = i * 4096
  lt : a.toNat < 2 ^ 61

theorem composeToLba_toNat {d b slt i : ℕ} (hd : d < 2 ^ 14) (hb : b < 2 ^ 12) (hs : slt < 8)
    (hi : i < 2 ^ 20) :
    (composeToLba (BitVec.ofNat 64 d) (BitVec.ofNat 64 b) (BitVec.ofNat 64 slt)
      (BitVec.ofNat 64 (i * 4096))).toNat = fileNumber d b slt * 2 ^ 32 + i * 2 ^ 12 := by
  have h12 : minFileBucketBits = 12 := rfl
  have h3 : fileSlotBits = 3 := rfl
  have h32 : defaultFileBlockBits = 32 := rfl
  rw [composeToLba, h12, h3, h32]
  simp only [ofNat_shl, ofNat_add]
  rw [BitVec.toNat_ofNat, fileNumber]
  omega

theorem lbaData_toNat {fi : FfsInodeInfo} {d b slt i : ℕ} (hdir : fi.dirId = d)
    (hbkt : fi.bucketId = b) (hslot : fi.slotId = slt) (hd : d < 2 ^ 14) (hb : b < 2 ^ 12)
    (hs : slt < 8) (hi : i < 2 ^ 20) :
    (ffsGetLbaData fi (BitVec.ofNat 64 i)).toNat = fileNumber d b slt * 2 ^ 32 + i * 2 ^ 12 := by
  have hbase := composeLba_data hd hb hs
  have hblk := iblock_toNat (hi.trans (show 2 ^ 20 < 2 ^ 52 by norm_num))
  have hdvd : 2 ^ 32 ∣ (composeLba d b slt 1).toNat := by
    rw [hbase]
    omega
  rw [ffsGetLbaData, hdir, hbkt, hslot, BitVec.or_comm, or_eq_add hdvd (by omega), hbase, hblk]
  omega

theorem smallAddress {fi : FfsInodeInfo} {d b slt i : ℕ} (hdir : fi.dirId = d)
    (hbkt : fi.bucketId = b) (hslot : fi.slotId = slt) (hd : d < 2 ^ 14) (hb : b < 2 ^ 12)
    (hs : slt < 8) (hi : i < 2 ^ 20) :
    SmallAddress (ffsGetLbaData fi (BitVec.ofNat 64 i)) d b slt i := by
  have ha := lbaData_toNat hdir hbkt hslot hd hb hs hi
  generalize ffsGetLbaData fi (BitVec.ofNat 64 i) = a at ha
  constructor
  case composed => rw [BitVec.toNat_eq, ha, composeToLba_toNat hd hb hs hi]
  case dir =>
    change (a >>> 47).toNat = d
    rw [BitVec.toNat_ushiftRight, Nat.shiftRight_eq_div_pow, ha, fileNumber]
    omega
  case bucket =>
    rw [BitVec.extractLsb'_toNat, Nat.shiftRight_eq_div_pow, ha, fileNumber]
    omega
  case slot =>
    rw [lbaToSlot, mask_low (by norm_num), BitVec.toNat_ushiftRight, Nat.shiftRight_eq_div_pow, ha,
      fileNumber]
    change (_ / 2 ^ 32) % 2 ^ 3 = slt
    omega
  case block =>
    rw [lbaToBlock, mask_low (by norm_num), ha]
    change _ % 2 ^ 32 = _
    omega
  case lt =>
    rw [ha, fileNumber]
    omega

/-- Bit 61 is or'ed in last, and the block number cannot take it away. -/
theorem bigFileLbaData_tag (fi : FfsInodeInfo) (iblock : BitVec 64) :
    (ffsGetBigFileLbaData fi iblock).getLsbD 61 = true := by
  have htag : bigTagBase.getLsbD 61 = true := by decide
  rw [ffsGetBigFileLbaData, composeBigFileLba, BitVec.getLsbD_or, BitVec.getLsbD_or, htag,
    Bool.or_true, Bool.true_or]

theorem bigFileLbaData_ge (fi : FfsInodeInfo) (iblock : BitVec 64) :
    2 ^ 61 ≤ (ffsGetBigFileLbaData fi iblock).toNat :=
  Nat.ge_two_pow_of_testBit (bigFileLbaData_tag fi iblock)

/-- Data addresses of small files are composed as `compose_to_lba` does it and decode into their
fields; those of big files have the tag bit whatever the fields are, and so the two never meet,
neither as addresses nor as device blocks. -/
theorem dataRegions_apart {fi : FfsInodeInfo} {d b slt i : ℕ} (hdir : fi.dirId = d)
    (hbkt : fi.bucketId = b) (hslot : fi.slotId = slt) (hd : d < 2 ^ 14) (hb : b < 2 ^ 12)
    (hs : slt < 8) (hi : i < 2 ^ 20) :
    SmallAddress (ffsGetLbaData fi (BitVec.ofNat 64 i)) d b slt i ∧
      ∀ (fi' : FfsInodeInfo) (iblock : BitVec 64),
        (ffsGetBigFileLbaData fi' iblock).getLsbD 61 = true ∧
        ffsGetLbaData fi (BitVec.ofNat 64 i) ≠ ffsGetBigFileLbaData fi' iblock ∧
        ∀ size size' : ℤ, fi.isBigDir = 0 → fi'.isBigDir ≠ 0 →
          (ffsGetBlockPrep fi size (BitVec.ofNat 64 i)).pblk ≠
            (ffsGetBlockPrep fi' size' iblock).pblk := by
  have hsmall := smallAddress hdir hbkt hslot hd hb hs hi
  refine ⟨hsmall, fun fi' iblock => ⟨bigFileLbaData_tag fi' iblock, fun he => ?_, ?_⟩⟩
  · have hlt := hsmall.lt
    have hge := bigFileLbaData_ge fi' iblock
    rw [he] at hlt
    omega
  · intro size size' h0 h1 he
    have hlt := hsmall.lt
    have hge := bigFileLbaData_ge fi' iblock
    simp only [ffsGetBlockPrep, h0, h1, if_true, if_false] at he
    -- the shift leaves the tag above all small addresses
    have he' := congrArg BitVec.toNat he
    change (ffsGetLbaData fi (BitVec.ofNat 64 i) >>> 12).toNat =
      (ffsGetBigFileLbaData fi' iblock >>> 12).toNat at he'
    rw [BitVec.toNat_ushiftRight, BitVec.toNat_ushiftRight, Nat.shiftRight_eq_div_pow,
      Nat.shiftRight_eq_div_pow] at he'
    omega

theorem dataRegions_apart_last :
    SmallAddress (ffsGetLbaData (fileAt 16383 4095 7 0) (BitVec.ofNat 64 1048575))
        16383 4095 7 1048575 ∧
      ffsGetLbaData (fileAt 16383 4095 7 0) (BitVec.ofNat 64 1048575) ≠
        ffsGetBigFileLbaData (fileAt 16383 4095 7 1) (BitVec.ofNat 64 1048575) := by
  have h := @dataRegions_apart (fileAt 16383 4095 7 0) 16383 4095 7 1048575 rfl rfl rfl
    (by norm_num) (by norm_num) (by norm_num) (by norm_num)
  exact ⟨h.1, (h.2 _ _).2.1⟩

def shiftedDir (d b : ℕ) : ℕ := d * 2 ^ ((12 + b) % 64) % 2 ^ 61

theorem shiftedDir_le {d : ℕ} (hd : d < 2 ^ 14) (b : ℕ) : shiftedDir d b ≤ 2 ^ 61 - 2 ^ 47 := by
  unfold shiftedDir
  generalize (12 + b) % 64 = r
  rcases le_or_gt r 47 with hr | hr
  · have hp : 2 ^ r ≤ 2 ^ 47 := Nat.pow_le_pow_right (by norm_num) hr
    have hm : d * 2 ^ r ≤ (2 ^ 14 - 1) * 2 ^ 47 := Nat.mul_le_mul (by omega) hp
    apply (Nat.mod_le _ _).trans
    omega
  · -- the low bits that remain stand above bit 47
    have hdvd : 2 ^ 48 ∣ d * 2 ^ r % 2 ^ 61 := by
      apply (Nat.dvd_mod_iff (pow_dvd_pow 2 (by norm_num))).mpr
      exact dvd_mul_of_dvd_right (pow_dvd_pow 2 hr) d
    have hlt : d * 2 ^ r % 2 ^ 61 < 2 ^ 61 := Nat.mod_lt _ (by norm_num)
    omega

theorem inodePage_toNat {d b : ℕ} (hd : d < 2 ^ 14) (hb : b < 2 ^ 12) :
    (composeLba d b 0 0).toNat = 8 * shiftedDir d b + 2 ^ 35 := by
  have hle := shiftedDir_le hd b
  have hmod : d * 2 ^ ((12 + b) % 64 + 3) % 2 ^ 64 = 8 * shiftedDir d b := by
    have he : d * 2 ^ ((12 + b) % 64 + 3) = 8 * (d * 2 ^ ((12 + b) % 64)) := by ring
    rw [shiftedDir, he]
    omega
  rw [composeLba_inode d b hb, BitVec.toNat_ofNat]
  omega

theorem dirMeta_toNat {d : ℕ} (hd : d < 2 ^ 14) : (ffsGetLbaDirMeta minusOne d).toNat = d := by
  rw [ffsGetLbaDirMeta, if_neg (not_not.mpr rfl), BitVec.ofInt_natCast, BitVec.toNat_ofNat]
  omega

/-- The inode page of bucket `b` is on no block of the superblock, of a directory inode or of the
data of a small file. -/
def PageApart (d b : ℕ) : Prop :=
  composeLba d b 0 0 ≠ logicSbBlock ∧
    (∀ d' : ℕ, 2 ≤ d' → d' < 2 ^ 14 → composeLba d b 0 0 ≠ ffsGetLbaDirMeta minusOne d') ∧
    ∀ fi d' b' slt' size, SmallFile fi d' b' slt' → ∀ i < 2 ^ 20,
      composeLba d b 0 0 ≠ (ffsGetBlockPrep fi size (BitVec.ofNat 64 i)).pblk

/-- An inode page is apart from everything else exactly when its shifted directory id stays below
the data region or passes over it. -/
theorem pageApart_iff {d b : ℕ} (hd : d < 2 ^ 14) (hb : b < 2 ^ 12) :
    PageApart d b ↔ shiftedDir d b < 2 ^ 32 ∨ 2 ^ 46 - 2 ^ 32 ≤ shiftedDir d b := by
  have hpage := inodePage_toNat hd hb
  generalize shiftedDir d b = x at hpage ⊢
  constructor
  · intro hapart
    by_contra hin
    -- the data region has no gaps: read the block number as directory, bucket, slot and block
    have hfile := fileAt_small ((8 * x + 2 ^ 35) / 2 ^ 35) ((8 * x + 2 ^ 35) / 2 ^ 23 % 2 ^ 12)
      ((8 * x + 2 ^ 35) / 2 ^ 20 % 8) (by omega) (by omega) (by omega) (by omega)
    apply hapart.2.2 _ _ _ _ 0 hfile ((8 * x + 2 ^ 35) % 2 ^ 20) (by omega)
    rw [BitVec.toNat_eq, hpage, hfile.pblk_of_lt 0 (by omega), fileNumber]
    omega
  · intro hout
    refine ⟨fun he => ?_, fun d' _ hd' he => ?_, fun fi d' b' slt' size hfile i hi he => ?_⟩
    · have hsb : (logicSbBlock).toNat = 1 := rfl
      rw [BitVec.toNat_eq, hpage, hsb] at he
      omega
    · rw [BitVec.toNat_eq, hpage, dirMeta_toNat hd'] at he
      omega
    · rw [BitVec.toNat_eq, hpage, hfile.pblk_of_lt size hi, fileNumber] at he
      have h2 := hfile.two_le
      have hd' := hfile.dir_lt
      have hb' := hfile.bucket_lt
      have hs' := hfile.slot_lt
      omega

theorem pageApart_root : PageApart 2 0 :=
  (pageApart_iff (by norm_num) (by norm_num)).mpr (by decide)

/-- The page of bucket 20 of the root is a data block of directory 3. -/
theorem page_is_data_block : ¬ PageApart 2 20 ∧
    composeLba 2 20 0 0 = (ffsGetBlockPrep (fileAt 3 0 0 0) 0 (BitVec.ofNat 64 0)).pblk := by
  have he : composeLba 2 20 0 0 =
      (ffsGetBlockPrep (fileAt 3 0 0 0) 0 (BitVec.ofNat 64 0)).pblk := by decide
  refine ⟨fun h => h.2.2 _ _ _ _ 0 (fileAt_small 3 0 0 ?_ ?_ ?_ ?_) 0 ?_ he, he⟩ <;> norm_num

end FlatFS
