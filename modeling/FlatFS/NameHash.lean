import FlatFS.FileTable
import FlatFS.Lib.Horner

namespace FlatFS
open Lib

/-- A signed `char` as `BKDRHash` adds it to its 32-bit word. -/
def charValue (c : UInt8) : ℕ := (c.toBitVec.signExtend 32).toNat

/-- The number that `BKDRHash` would compute without wrapping around. -/
def nameNumber (name : CStr) : ℕ := horner 131 charValue 0 name

theorem bkdrStep_toNat (hash : BitVec 32) (c : UInt8) :
    (bkdrStep hash c).toNat = (hash.toNat * 131 + charValue c) % 2 ^ 32 := by
  rw [bkdrStep, BitVec.toNat_add, BitVec.toNat_mul, charValue]
  exact Nat.mod_add_mod _ _ _

/-- The loop computes modulo the word size, up to the terminator. -/
theorem bkdrLoop_modEq {str : CStr} (h : 0 ∉ str) (hash : BitVec 32) :
    (bkdrLoop hash str).toNat ≡ horner 131 charValue hash.toNat str [MOD 2 ^ 32] := by
  induction str generalizing hash with
  | nil => exact Nat.ModEq.refl _
  | cons c str ih =>
    rw [List.mem_cons, not_or] at h
    obtain ⟨hc, hstr⟩ := h
    rw [bkdrLoop, if_neg (Ne.symm hc), horner_cons]
    refine (ih hstr _).trans ?_
    rw [horner_acc, horner_acc 131 charValue (hash.toNat * 131 + charValue c), bkdrStep_toNat]
    exact ((Nat.mod_modEq _ _).mul_right _).add_right _

theorem bkdrHash_eq {str : CStr} (h : 0 ∉ str) :
    (bkdrHash str).toNat = nameNumber str % 2 ^ 31 := by
  have hmask : (0x7FFFFFFF#32).toNat = 2 ^ 31 - 1 := rfl
  have hloop := (bkdrLoop_modEq h 0#32).of_dvd (show 2 ^ 31 ∣ 2 ^ 32 by norm_num)
  rw [bkdrHash, BitVec.toNat_and, hmask, Nat.and_two_pow_sub_one_eq_mod]
  exact hloop

theorem bkdrHash_append {s t : CStr} (hs : 0 ∉ s) (ht : 0 ∉ t) :
    (bkdrHash (s ++ t)).toNat =
      ((bkdrHash s).toNat * 131 ^ t.length + (bkdrHash t).toNat) % 2 ^ 31 := by
  have hst : 0 ∉ s ++ t := by
    rw [List.mem_append]
    exact not_or.mpr ⟨hs, ht⟩
  rw [bkdrHash_eq hst, bkdrHash_eq hs, bkdrHash_eq ht, nameNumber, horner_append]
  exact (((Nat.mod_modEq _ _).mul_right _).add (Nat.mod_modEq _ _)).symm

/-- A table with `2 ^ bits` buckets sees of the two parts no more than their buckets. -/
theorem bucketOf_append {bits : ℕ} (hbits : bits ≤ 31) {s t : CStr} (hs : 0 ∉ s) (ht : 0 ∉ t) :
    (bucketOf bits (s ++ t)).toNat =
      ((bucketOf bits s).toNat * 131 ^ t.length + (bucketOf bits t).toNat) % 2 ^ bits := by
  have hlt : bits < 64 := by omega
  have hdvd : 2 ^ bits ∣ 2 ^ 31 := pow_dvd_pow 2 hbits
  rw [bucketOf_toNat hlt, bucketOf_toNat hlt, bucketOf_toNat hlt, bkdrHash_append hs ht,
    Nat.mod_mod_of_dvd _ hdvd]
  exact (((Nat.mod_modEq _ _).mul_right _).add (Nat.mod_modEq _ _)).symm

/-- Names in one bucket of a small or of a big table stay in one bucket behind any common beginning,
when they are of one length, and before any common end; and a big table tells names of one small
bucket apart by six bits. -/
theorem bkdrHash_families {s t : CStr} (hs : 0 ∉ s) (ht : 0 ∉ t) :
    (bkdrHash (s ++ t)).toNat =
        ((bkdrHash s).toNat * 131 ^ t.length + (bkdrHash t).toNat) % 2 ^ 31 ∧
      (∀ u, 0 ∉ u →
        (smallBucket s = smallBucket t → smallBucket (s ++ u) = smallBucket (t ++ u)) ∧
        (bigBucket s = bigBucket t → bigBucket (s ++ u) = bigBucket (t ++ u))) ∧
      (s.length = t.length → ∀ u, 0 ∉ u →
        (smallBucket s = smallBucket t → smallBucket (u ++ s) = smallBucket (u ++ t)) ∧
        (bigBucket s = bigBucket t → bigBucket (u ++ s) = bigBucket (u ++ t))) ∧
      (bigBucket s = bigBucket t → smallBucket s = smallBucket t) ∧
      bigBucket s % 2 ^ 12 = smallBucket s ∧ bigBucket s / 2 ^ 12 < 2 ^ 6 := by
  have hend : ∀ bits ≤ 31, ∀ u, 0 ∉ u → (bucketOf bits s).toNat = (bucketOf bits t).toNat →
      (bucketOf bits (s ++ u)).toNat = (bucketOf bits (t ++ u)).toNat := by
    intro bits hbits u hu he
    rw [bucketOf_append hbits hs hu, bucketOf_append hbits ht hu, he]
  have hbegin : ∀ bits ≤ 31, s.length = t.length → ∀ u, 0 ∉ u →
      (bucketOf bits s).toNat = (bucketOf bits t).toNat →
      (bucketOf bits (u ++ s)).toNat = (bucketOf bits (u ++ t)).toNat := by
    intro bits hbits hlen u hu he
    rw [bucketOf_append hbits hu hs, bucketOf_append hbits hu ht, hlen, he]
  have h12 : minFileBucketBits ≤ 31 := by norm_num
  have h18 : minFileBucketBits + minDirBits ≤ 31 := by norm_num
  refine ⟨bkdrHash_append hs ht, fun u hu => ⟨hend _ h12 u hu, hend _ h18 u hu⟩,
    fun hlen u hu => ⟨hbegin _ h12 hlen u hu, hbegin _ h18 hlen u hu⟩, fun he => ?_,
    bigBucket_mod s, ?_⟩
  · rw [← bigBucket_mod, ← bigBucket_mod, he]
  · have hlt := bigBucket_lt s
    omega

theorem bkdrHash_families_log : bigBucket [97] = bigBucket [106, 122, 57] ∧
    bigBucket ([97] ++ [46, 108, 111, 103]) =
      bigBucket ([106, 122, 57] ++ [46, 108, 111, 103]) := by
  have he : bigBucket [97] = bigBucket [106, 122, 57] := by decide +kernel
  exact ⟨he, ((bkdrHash_families (by decide) (by decide)).2.1 _ (by decide)).2 he⟩

end FlatFS
