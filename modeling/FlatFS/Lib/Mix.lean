import Mathlib.Tactic

namespace Lib
open Function

section Words
variable {w : ℕ}

theorem add_word_injective (c : BitVec w) : Injective fun x : BitVec w => x + c := by
  intro x y h
  exact (BitVec.add_left_inj c).mp h

theorem xor_word_injective (c : BitVec w) : Injective fun x : BitVec w => x ^^^ c := by
  intro x y h
  exact (BitVec.xor_left_inj c).mp h

theorem word_xor_injective (c : BitVec w) : Injective fun x : BitVec w => c ^^^ x := by
  intro x y h
  exact (BitVec.xor_right_inj c).mp h

theorem mul_odd_injective {c : BitVec w} (hc : c.toNat % 2 = 1) :
    Injective fun x : BitVec w => x * c := by
  intro x y h
  have hcop : Nat.Coprime (2 ^ w) c.toNat := by
    apply Nat.Coprime.pow_left
    rw [Nat.coprime_two_left]
    exact Nat.odd_iff.mpr hc
  have hmod : x.toNat * c.toNat ≡ y.toNat * c.toNat [MOD 2 ^ w] := by
    rw [Nat.ModEq, ← BitVec.toNat_mul, ← BitVec.toNat_mul]
    exact congrArg BitVec.toNat h
  have he : x.toNat ≡ y.toNat [MOD 2 ^ w] := Nat.ModEq.cancel_right_of_coprime hcop hmod
  apply BitVec.eq_of_toNat_eq
  exact Nat.ModEq.eq_of_lt_of_lt he x.isLt y.isLt

/-- A word is found again in its rotation, bit by bit. -/
theorem rotate_injective {r : ℕ} (hr : r ≤ w) :
    Injective fun x : BitVec w => x <<< r ||| x >>> (w - r) := by
  have hlow : ∀ (x : BitVec w) i, i < r → (x <<< r ||| x >>> (w - r)).getLsbD i =
      x.getLsbD (w - r + i) := by
    intro x i hi
    simp [hi, Nat.lt_of_lt_of_le hi hr]
  have hhigh : ∀ (x : BitVec w) i, i + r < w → (x <<< r ||| x >>> (w - r)).getLsbD (i + r) =
      x.getLsbD i := by
    intro x i hi
    have hge : w ≤ w - r + (i + r) := by omega
    rw [BitVec.getLsbD_or, BitVec.getLsbD_ushiftRight, BitVec.getLsbD_of_ge x _ hge,
      BitVec.getLsbD_shiftLeft, Nat.add_sub_cancel]
    simp [hi]
  intro x y h
  apply BitVec.eq_of_getLsbD_eq
  intro i hi
  by_cases hir : i + r < w
  · rw [← hhigh x i hir, ← hhigh y i hir]
    exact congrArg (BitVec.getLsbD · (i + r)) h
  · have he : w - r + (i + r - w) = i := by omega
    have hj : i + r - w < r := by omega
    have hb := congrArg (BitVec.getLsbD · (i + r - w)) h
    simpa only [hlow _ _ hj, he] using hb

/-- The difference of two words with one xor shift is its own shift to the right, so it is zero. -/
theorem xorShift_injective {r : ℕ} (hr : 0 < r) :
    Injective fun x : BitVec w => x ^^^ x >>> r := by
  intro x y h
  have hself : x ^^^ y = (x ^^^ y) >>> r := by
    have hx : (x ^^^ x >>> r) ^^^ (y ^^^ y >>> r) = 0#w := by
      rw [show x ^^^ x >>> r = y ^^^ y >>> r from h, BitVec.xor_self]
    rw [BitVec.ushiftRight_xor_distrib]
    apply BitVec.xor_left_inj (x >>> r ^^^ y >>> r) |>.mp
    rw [BitVec.xor_self, ← hx]
    ac_rfl
  have hzero : (x ^^^ y).toNat = 0 := by
    by_contra hne
    have hlt := Nat.div_lt_self (Nat.pos_of_ne_zero hne) (Nat.one_lt_two_pow hr.ne')
    have he := congrArg BitVec.toNat hself
    rw [BitVec.toNat_ushiftRight, Nat.shiftRight_eq_div_pow] at he
    omega
  exact BitVec.xor_eq_zero_iff.mp (BitVec.eq_of_toNat_eq hzero)

/-- A wider word holds what a narrower one held. -/
theorem zeroExtend_injective {v : ℕ} (h : v ≤ w) :
    Injective fun x : BitVec v => x.setWidth w := by
  intro x y he
  have hn := congrArg BitVec.toNat he
  apply BitVec.eq_of_toNat_eq
  simpa only [BitVec.toNat_setWidth_of_le h] using hn

end Words

section Lanes
variable {σ α : Type*} {step : σ → α → σ}

/-- A chain of steps, each one-to-one in the state, is one-to-one in the state. -/
theorem foldl_injective (hstep : ∀ a, Injective (step · a)) (as : List α) :
    Injective fun s => as.foldl step s := by
  induction as with
  | nil => exact injective_id
  | cons a as ih => exact ih.comp (hstep a)

/-- Two runs that part at one lane do not meet again in the lanes they share. -/
theorem foldl_ne_of_lane (hstep : ∀ a, Injective (step · a)) (hlane : ∀ s, Injective (step s))
    (s : σ) (xs ys : List α) {a b : α} (hab : a ≠ b) :
    (xs ++ a :: ys).foldl step s ≠ (xs ++ b :: ys).foldl step s := by
  rw [List.foldl_append, List.foldl_append, List.foldl_cons, List.foldl_cons]
  intro h
  exact hab (hlane _ (foldl_injective hstep ys h))

end Lanes

end Lib
