import FlatFS.Defs
import FlatFS.Lib.Word

namespace FlatFS
open Lib

def fileMetaLbaBase : BitVec 64 := 1#64 <<< (fileSlotBits + defaultFileBlockBits)

def bigTagBase : BitVec 64 :=
  1#64 <<< (minDirBits + maxFileBucketBits + fileSlotBits + defaultFileBlockBits)

/-- The count of the first shift of `compose_lba`: `+` binds before `<<`. -/
def inodeShift (bucketBits : ℕ) (bucketId : ℤ) : BitVec 64 :=
  BitVec.ofNat 64 bucketBits + BitVec.ofInt 64 bucketId

/-- The inode branch that `compose_lba` and `compose_big_file_lba` share. -/
def composeInodeLba (bucketBits : ℕ) (dirId bucketId slotId : ℤ) : BitVec 64 :=
  let lba := 0#64 |||
    (shl64 (BitVec.ofInt 64 dirId) (inodeShift bucketBits bucketId) <<< fileSlotBits)
  if slotId ≠ -1 then (lba ||| BitVec.ofInt 64 slotId) + fileMetaLbaBase else lba

def composeDataLba (bucketBits : ℕ) (dirId bucketId slotId : ℤ) : BitVec 64 :=
  0#64 ||| BitVec.ofInt 64 dirId <<< (bucketBits + fileSlotBits + defaultFileBlockBits)
    ||| BitVec.ofInt 64 bucketId <<< (fileSlotBits + defaultFileBlockBits)
    ||| BitVec.ofInt 64 slotId <<< defaultFileBlockBits

/-- `compose_lba`: flag 0 for the inode, any other for the data. -/
def composeLba (dirId bucketId slotId flag : ℤ) : BitVec 64 :=
  if flag = 0 then composeInodeLba minFileBucketBits dirId bucketId slotId
  else composeDataLba minFileBucketBits dirId bucketId slotId

def composeBigFileLba (dirId bucketId slotId flag : ℤ) : BitVec 64 :=
  (if flag = 0 then composeInodeLba maxFileBucketBits dirId bucketId slotId
    else composeDataLba maxFileBucketBits dirId bucketId slotId) ||| bigTagBase

/-- The counts of the shifts that `compose_lba` performs on the way to an inode address. -/
def inodeLbaShifts (bucketId : ℤ) : List ℕ :=
  [(inodeShift minFileBucketBits bucketId).toNat, fileSlotBits]

def inodeToDirId (inode : BitVec 64) : BitVec 64 :=
  (inode - 1#64) >>> (minFileBucketBits + fileSlotBits)

def dirIdToInode (dirId : BitVec 64) : BitVec 64 :=
  (dirId <<< (minFileBucketBits + fileSlotBits)) + 1#64

theorem inodeToDirId_dirIdToInode {d : ℕ} (h : d < 2 ^ 49) :
    (inodeToDirId (dirIdToInode (BitVec.ofNat 64 d))).toNat = d := by
  have hs : dirIdToInode (BitVec.ofNat 64 d) - 1#64 = BitVec.ofNat 64 (d * 2 ^ 15) := by
    rw [dirIdToInode, ofNat_shl, BitVec.add_sub_cancel]
    rfl
  rw [inodeToDirId, hs, BitVec.toNat_ushiftRight, BitVec.toNat_ofNat, Nat.shiftRight_eq_div_pow,
    Nat.mod_eq_of_lt (by omega)]
  exact Nat.mul_div_cancel d (by norm_num)

theorem inodeShift_toNat {bucketBits b : ℕ} (h : bucketBits + b < 2 ^ 64) :
    (inodeShift bucketBits b).toNat = bucketBits + b := by
  rw [inodeShift, BitVec.ofInt_natCast, ofNat_add, BitVec.toNat_ofNat, Nat.mod_eq_of_lt h]

theorem composeInodeLba_eq {bits : ℕ} (d b : ℕ) (hb : bits + b < 2 ^ 64) :
    composeInodeLba bits d b 0 = BitVec.ofNat 64 (d * 2 ^ ((bits + b) % 64 + 3) + 2 ^ 35) := by
  have hbase : fileMetaLbaBase = BitVec.ofNat 64 (2 ^ 35) := by decide
  simp only [composeInodeLba, shl64, inodeShift_toNat hb, hbase, BitVec.ofInt_natCast, ofNat_shl,
    BitVec.zero_or, if_pos (show (0 : ℤ) ≠ -1 by decide)]
  rw [show BitVec.ofInt 64 0 = 0#64 from rfl, BitVec.or_zero, ofNat_add, mul_assoc, ← pow_add]

theorem composeLba_inode (d b : ℕ) (hb : b < 2 ^ 12) :
    composeLba d b 0 0 = BitVec.ofNat 64 (d * 2 ^ ((12 + b) % 64 + 3) + 2 ^ 35) := by
  rw [composeLba, if_pos rfl]
  exact composeInodeLba_eq d b (show 12 + b < 2 ^ 64 by omega)

theorem composeBigFileLba_inode (d b : ℕ) (hb : b < 2 ^ 26) :
    composeBigFileLba d b 0 0 =
      BitVec.ofNat 64 (d * 2 ^ ((20 + b) % 64 + 3) + 2 ^ 35) ||| bigTagBase := by
  rw [composeBigFileLba, if_pos rfl, composeInodeLba_eq d b (show 20 + b < 2 ^ 64 by omega)]

theorem inodeLbaShifts_lt (b : ℕ) (hb : b < 2 ^ 12) :
    (∀ n ∈ inodeLbaShifts b, n < 64) ↔ b < 52 := by
  have hc : (inodeShift minFileBucketBits b).toNat = 12 + b :=
    inodeShift_toNat (show 12 + b < 2 ^ 64 by omega)
  simp only [inodeLbaShifts, hc, List.forall_mem_cons, List.not_mem_nil, false_implies,
    implies_true, and_true]
  have h3 : fileSlotBits < 64 := by decide
  omega

/-- Below bucket 52 two inode pages are one block exactly when `d * 2 ^ b` agrees modulo
`2 ^ 49`. -/
theorem composeLba_inode_eq_iff {d b d' b' : ℕ} (hb : b < 52) (hb' : b' < 52) :
    composeLba d b 0 0 = composeLba d' b' 0 0 ↔ d * 2 ^ b ≡ d' * 2 ^ b' [MOD 2 ^ 49] := by
  -- below bucket 52 the shift count does not wrap at 64
  have hs : ∀ e c : ℕ, c < 52 → e * 2 ^ ((12 + c) % 64 + 3) = 2 ^ 15 * (e * 2 ^ c) := by
    intro e c hc
    rw [Nat.mod_eq_of_lt (by omega), show 12 + c + 3 = 15 + c by omega, pow_add]
    ring
  rw [composeLba_inode d b (by omega), composeLba_inode d' b' (by omega), ofNat_inj_iff,
    hs d b hb, hs d' b' hb']
  constructor
  · intro h
    -- the common shift by 15 cancels against the width of the word
    have h' : 2 ^ 15 * (d * 2 ^ b) ≡ 2 ^ 15 * (d' * 2 ^ b') [MOD 2 ^ 15 * 2 ^ 49] :=
      Nat.ModEq.add_right_cancel' _ h
    exact Nat.ModEq.mul_left_cancel' (by norm_num) h'
  · intro h
    have h' : 2 ^ 15 * (d * 2 ^ b) ≡ 2 ^ 15 * (d' * 2 ^ b') [MOD 2 ^ 15 * 2 ^ 49] :=
      h.mul_left' (2 ^ 15)
    exact Nat.ModEq.add_right _ h'

/-- Two buckets have different inode pages, computed by shifts below 64, exactly when
both buckets are below 52 and `d * 2 ^ b` tells them apart modulo `2 ^ 49`. -/
theorem inodePage_separated_iff (d d' b b' : ℕ) (hb : b < 2 ^ 12) (hb' : b' < 2 ^ 12) :
    (composeLba d b 0 0 ≠ composeLba d' b' 0 0 ∧ (∀ n ∈ inodeLbaShifts b, n < 64) ∧
      ∀ n ∈ inodeLbaShifts b', n < 64) ↔
    b < 52 ∧ b' < 52 ∧ d * 2 ^ b % 2 ^ 49 ≠ d' * 2 ^ b' % 2 ^ 49 := by
  rw [inodeLbaShifts_lt b hb, inodeLbaShifts_lt b' hb']
  constructor
  · rintro ⟨hpage, h, h'⟩
    exact ⟨h, h', fun he => hpage ((composeLba_inode_eq_iff h h').mpr he)⟩
  · rintro ⟨h, h', hmod⟩
    exact ⟨fun he => hmod ((composeLba_inode_eq_iff h h').mp he), h, h'⟩

theorem inodePage_separated_two :
    composeLba 2 0 0 0 ≠ composeLba 2 1 0 0 ∧ (∀ n ∈ inodeLbaShifts 0, n < 64) ∧
      ∀ n ∈ inodeLbaShifts 1, n < 64 :=
  (inodePage_separated_iff 2 2 0 1 (by decide) (by decide)).mpr (by decide)

/-- Bucket 1 of directory 2 and bucket 0 of directory 4 share their inode page, and
bucket 52 shifts by 64. -/
theorem inodePage_shared :
    (2, 1) ≠ (4, 0) ∧ composeLba 2 1 0 0 = composeLba 4 0 0 0 ∧ 64 ∈ inodeLbaShifts 52 := by
  decide

end FlatFS
