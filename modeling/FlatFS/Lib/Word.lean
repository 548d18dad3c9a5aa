import Mathlib.Tactic

namespace Lib

/-- A 64-bit left shift by a count held in a register: the machine uses the count modulo 64.
The language defines it for counts below 64 only. -/
def shl64 (x count : BitVec 64) : BitVec 64 := x <<< (count.toNat % 64)

def shlInt (x : ℤ) (count : ℕ) : ℤ := (x * 2 ^ count).bmod (2 ^ 32)

theorem ofNat_shl (a k : ℕ) : BitVec.ofNat 64 a <<< k = BitVec.ofNat 64 (a * 2 ^ k) := by
  apply BitVec.eq_of_toNat_eq
  simp only [BitVec.toNat_shiftLeft, BitVec.toNat_ofNat, Nat.shiftLeft_eq, Nat.mod_mul_mod]

theorem ofNat_add (a b : ℕ) : BitVec.ofNat 64 a + BitVec.ofNat 64 b = BitVec.ofNat 64 (a + b) :=
  (BitVec.ofNat_add a b).symm

theorem ofNat_inj_iff {a b : ℕ} : BitVec.ofNat 64 a = BitVec.ofNat 64 b ↔ a ≡ b [MOD 2 ^ 64] := by
  rw [BitVec.toNat_eq, BitVec.toNat_ofNat, BitVec.toNat_ofNat, Nat.ModEq]

/-- A field below `k` bits or'ed under a multiple of `2 ^ k` is added to it. -/
theorem or_eq_add {x seg : BitVec 64} {k : ℕ} (hx : 2 ^ k ∣ x.toNat) (hs : seg.toNat < 2 ^ k) :
    (seg ||| x).toNat = x.toNat + seg.toNat := by
  obtain ⟨c, hc⟩ := hx
  rw [BitVec.toNat_or, Nat.or_comm, hc, ← Nat.two_pow_add_eq_or_of_lt hs]

/-- A multiple of `2 ^ k` or'ed into a number changes the bits from `k` on alone. -/
theorem add_or_mul {k low a t : ℕ} (hlow : low < 2 ^ k) :
    2 ^ k * a + low ||| 2 ^ k * t = 2 ^ k * (a ||| t) + low := by
  rw [← Nat.div_add_mod (2 ^ k * a + low ||| 2 ^ k * t) (2 ^ k), Nat.or_div_two_pow,
    Nat.or_mod_two_pow, Nat.mul_add_div (Nat.two_pow_pos k), Nat.div_eq_of_lt hlow, add_zero,
    Nat.mul_div_cancel_left _ (Nat.two_pow_pos k), Nat.mul_add_mod, Nat.mod_eq_of_lt hlow,
    Nat.mul_mod_right, Nat.or_zero]

end Lib
