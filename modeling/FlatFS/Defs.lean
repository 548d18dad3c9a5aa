import FlatFS.Lib.Bitmap

namespace FlatFS
open Lib

abbrev maxDirBits : ℕ := 14
abbrev minDirBits : ℕ := 6
abbrev maxFileBucketBits : ℕ := 20
abbrev minFileBucketBits : ℕ := 12
abbrev fileSlotBits : ℕ := 3
abbrev defaultFileBlockBits : ℕ := 32
abbrev ffsMaxFilenameLen : ℕ := 480
abbrev flatfsRootIno : ℕ := 2

def minusOne : BitVec 64 := -1#64

theorem minusOne_toNat : minusOne.toNat = 2 ^ 64 - 1 := by decide

/-- A C string given by the bytes before its terminator. -/
abbrev CStr := List UInt8

/-- `my_strlen`: the number of bytes before the first zero byte. -/
def myStrlen (name : CStr) : ℕ := (name.takeWhile (· ≠ 0)).length

def memcpy (dst : ℕ → UInt8) (src : List UInt8) : ℕ → UInt8 := fun i => src.getD i (dst i)

def arrayStrlen (mem : ℕ → UInt8) : ℕ :=
  Bitmap.firstZero (fun i => mem i != 0) (ffsMaxFilenameLen + 2)

/-- One round of the loop of `BKDRHash`; `char` is signed. -/
def bkdrStep (hash : BitVec 32) (c : UInt8) : BitVec 32 :=
  hash * 131#32 + c.toBitVec.signExtend 32

def bkdrLoop : BitVec 32 → CStr → BitVec 32
  | hash, [] => hash
  | hash, c :: str => if c = 0 then hash else bkdrLoop (bkdrStep hash c) str

def bkdrHash (str : CStr) : BitVec 32 := bkdrLoop 0#32 str &&& 0x7FFFFFFF#32

/-- `struct bucket`. The bitmap is one machine word, so that its bits do not end
with the eight slots. -/
structure Bucket where
  slotBitmap : Bitmap
  validSlotCount : BitVec 8

structure HashTable where
  buckets : ℕ → Bucket

abbrev BigDirHashTable := HashTable

namespace Bucket

def empty : Bucket := ⟨Bitmap.zero, 0#8⟩

def take (b : Bucket) (slt : ℕ) : Bucket := ⟨b.slotBitmap.set slt, b.validSlotCount + 1#8⟩

def release (b : Bucket) (slt : ℕ) : Bucket := ⟨b.slotBitmap.clear slt, b.validSlotCount - 1#8⟩

def freeSlot (b : Bucket) : ℕ := b.slotBitmap.firstZero (1 <<< fileSlotBits)

def Full (b : Bucket) : Prop := ∀ i < 8, b.slotBitmap i = true

/-- The separate counter agrees with the bitmap. -/
def Counted (b : Bucket) : Prop := b.validSlotCount.toNat = b.slotBitmap.weight 8

instance (b : Bucket) : Decidable b.Full := inferInstanceAs (Decidable (∀ i < 8, _))

theorem freeSlot_le (b : Bucket) : b.freeSlot ≤ 8 := Bitmap.firstZero_le _ _

theorem full_iff (b : Bucket) : b.Full ↔ b.freeSlot = 8 := Bitmap.firstZero_eq_size_iff.symm

theorem freeSlot_lt {b : Bucket} (h : ¬ b.Full) : b.freeSlot < 8 :=
  lt_of_le_of_ne b.freeSlot_le fun he => h (b.full_iff.mpr he)

theorem freeSlot_clear {b : Bucket} (h : ¬ b.Full) : b.slotBitmap b.freeSlot = false :=
  Bitmap.firstZero_clear (freeSlot_lt h)

theorem empty_counted : empty.Counted := by simp [Counted, empty]

/-- Taking a clear slot below eight keeps the counter exact: it cannot wrap. -/
theorem Counted.take {b : Bucket} (hb : b.Counted) {slt : ℕ} (hs : slt < 8)
    (hc : b.slotBitmap slt = false) : (b.take slt).Counted := by
  have hw := Bitmap.weight_le (b.slotBitmap.set slt) 8
  have hset := Bitmap.weight_set b.slotBitmap hs hc
  unfold Counted at hb ⊢
  simp only [Bucket.take, BitVec.toNat_add, BitVec.toNat_ofNat, hb, hset]
  omega

theorem Counted.release {b : Bucket} (hb : b.Counted) {slt : ℕ} (hs : slt < 8)
    (hc : b.slotBitmap slt = true) : (b.release slt).Counted := by
  have hw := Bitmap.weight_le b.slotBitmap 8
  have hclear := Bitmap.weight_clear b.slotBitmap hs hc
  unfold Counted at hb ⊢
  simp only [Bucket.release, BitVec.toNat_sub, BitVec.toNat_ofNat, hb]
  omega

end Bucket

namespace HashTable

def modify (ht : HashTable) (b : ℕ) (f : Bucket → Bucket) : HashTable :=
  ⟨Function.update ht.buckets b (f (ht.buckets b))⟩

@[simp] theorem modify_self (ht : HashTable) (b : ℕ) (f : Bucket → Bucket) :
    (ht.modify b f).buckets b = f (ht.buckets b) := by simp [modify]

theorem modify_of_ne (ht : HashTable) {b b' : ℕ} (h : b' ≠ b) (f : Bucket → Bucket) :
    (ht.modify b f).buckets b' = ht.buckets b' := by simp [modify, h]

def bit (ht : HashTable) (b slt : ℕ) : Bool := (ht.buckets b).slotBitmap slt

theorem bit_take (ht : HashTable) (b slt b' slt' : ℕ) :
    (ht.modify b (·.take slt)).bit b' slt' = true ↔
      (b' = b ∧ slt' = slt) ∨ ht.bit b' slt' = true := by
  by_cases h : b' = b
  · subst h
    simp [bit, Bucket.take, Bitmap.set_iff]
  · simp [bit, modify_of_ne ht h, h]

theorem bit_release (ht : HashTable) (b slt b' slt' : ℕ) :
    (ht.modify b (·.release slt)).bit b' slt' = true ↔
      ¬ (b' = b ∧ slt' = slt) ∧ ht.bit b' slt' = true := by
  by_cases h : b' = b
  · subst h
    simp [bit, Bucket.release, Bitmap.clear_iff]
  · simp [bit, modify_of_ne ht h, h]

end HashTable

end FlatFS
