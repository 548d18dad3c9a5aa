import Mathlib.Data.Nat.Count
import Mathlib.Data.Set.Card
import Mathlib.Tactic

namespace Lib

abbrev Bitmap := ℕ → Bool

namespace Bitmap

def zero : Bitmap := fun _ => false

def set (m : Bitmap) (i : ℕ) : Bitmap := Function.update m i true

def clear (m : Bitmap) (i : ℕ) : Bitmap := Function.update m i false

def firstZeroFrom (m : Bitmap) (i : ℕ) : ℕ → ℕ
  | 0 => i
  | n + 1 => if m i then firstZeroFrom m (i + 1) n else i

/-- `find_first_zero_bit`: the least clear position below `n`, and `n` itself when there is none. -/
def firstZero (m : Bitmap) (n : ℕ) : ℕ := firstZeroFrom m 0 n

def weight (m : Bitmap) (n : ℕ) : ℕ := Nat.count (fun i => m i = true) n

@[simp] theorem zero_apply (i : ℕ) : zero i = false := rfl

@[simp] theorem set_self (m : Bitmap) (i : ℕ) : m.set i i = true := by simp [set]

theorem set_of_ne (m : Bitmap) {i j : ℕ} (h : j ≠ i) : m.set i j = m j := by simp [set, h]

@[simp] theorem clear_self (m : Bitmap) (i : ℕ) : m.clear i i = false := by simp [clear]

theorem clear_of_ne (m : Bitmap) {i j : ℕ} (h : j ≠ i) : m.clear i j = m j := by simp [clear, h]

theorem set_iff (m : Bitmap) (i j : ℕ) : m.set i j = true ↔ j = i ∨ m j = true := by
  by_cases h : j = i
  · simp [h]
  · simp [set_of_ne m h, h]

theorem clear_iff (m : Bitmap) (i j : ℕ) : m.clear i j = true ↔ j ≠ i ∧ m j = true := by
  by_cases h : j = i
  · simp [h]
  · simp [clear_of_ne m h, h]

theorem firstZeroFrom_le (m : Bitmap) (i n : ℕ) :
    i ≤ firstZeroFrom m i n ∧ firstZeroFrom m i n ≤ i + n := by
  induction n generalizing i with
  | zero => simp [firstZeroFrom]
  | succ n ih =>
    have h := ih (i + 1)
    unfold firstZeroFrom
    split_ifs <;> omega

theorem firstZeroFrom_set (m : Bitmap) (i n j : ℕ) (hi : i ≤ j) (hj : j < firstZeroFrom m i n) :
    m j = true := by
  induction n generalizing i with
  | zero => simp only [firstZeroFrom] at hj; omega
  | succ n ih =>
    unfold firstZeroFrom at hj
    split_ifs at hj with hm
    · by_cases he : j = i
      · rw [he]; exact hm
      · exact ih (i + 1) (by omega) hj
    · omega

theorem firstZeroFrom_clear (m : Bitmap) (i n : ℕ) (h : firstZeroFrom m i n < i + n) :
    m (firstZeroFrom m i n) = false := by
  induction n generalizing i with
  | zero => simp only [firstZeroFrom] at h; omega
  | succ n ih =>
    unfold firstZeroFrom at h ⊢
    split_ifs at h ⊢ with hm
    · exact ih (i + 1) (by omega)
    · simpa using hm

theorem firstZero_le (m : Bitmap) (n : ℕ) : m.firstZero n ≤ n := by
  simpa [firstZero] using (firstZeroFrom_le m 0 n).2

theorem set_of_lt_firstZero {m : Bitmap} {n j : ℕ} (h : j < m.firstZero n) : m j = true :=
  firstZeroFrom_set m 0 n j (Nat.zero_le j) h

theorem firstZero_clear {m : Bitmap} {n : ℕ} (h : m.firstZero n < n) :
    m (m.firstZero n) = false :=
  firstZeroFrom_clear m 0 n (by simpa [firstZero] using h)

theorem firstZero_eq {m : Bitmap} {n k : ℕ} (hk : k < n) (hset : ∀ j < k, m j = true)
    (hclear : m k = false) : m.firstZero n = k := by
  rcases lt_trichotomy (m.firstZero n) k with hlt | he | hgt
  · have hz := firstZero_clear (hlt.trans hk)
    rw [hset _ hlt] at hz
    cases hz
  · exact he
  · rw [set_of_lt_firstZero hgt] at hclear
    cases hclear

theorem firstZero_eq_size_iff {m : Bitmap} {n : ℕ} :
    m.firstZero n = n ↔ ∀ j < n, m j = true := by
  constructor
  · intro h j hj
    exact set_of_lt_firstZero (h.symm ▸ hj)
  · intro h
    by_contra hne
    have hlt : m.firstZero n < n := lt_of_le_of_ne (firstZero_le m n) hne
    have hz := firstZero_clear hlt
    rw [h _ hlt] at hz
    cases hz

@[simp] theorem weight_zero (n : ℕ) : weight zero n = 0 := by
  simp [weight]

theorem weight_le (m : Bitmap) (n : ℕ) : m.weight n ≤ n := Nat.count_le _

theorem weight_congr {m m' : Bitmap} {n : ℕ} (h : ∀ i < n, m i = m' i) :
    m.weight n = m'.weight n := by
  induction n with
  | zero => rfl
  | succ n ih =>
    have hn := ih (fun i hi => h i (by omega))
    simp only [weight, Nat.count_succ] at hn ⊢
    rw [hn, h n (Nat.lt_succ_self n)]

theorem weight_set_of_ge (m : Bitmap) {n i : ℕ} (h : n ≤ i) : (m.set i).weight n = m.weight n :=
  weight_congr fun _ hj => set_of_ne m (by omega)

theorem weight_set (m : Bitmap) {n i : ℕ} (hi : i < n) (hm : m i = false) :
    (m.set i).weight n = m.weight n + 1 := by
  induction n with
  | zero => omega
  | succ n ih =>
    simp only [weight, Nat.count_succ] at ih ⊢
    by_cases h : i = n
    · subst h
      have hc := weight_set_of_ge m (le_refl i)
      simp only [weight] at hc
      simp [hc, hm]
    · rw [ih (by omega), set_of_ne m (Ne.symm h)]
      omega

theorem set_eq_self {m : Bitmap} {i : ℕ} (h : m i = true) : m.set i = m := by
  rw [set, ← h]
  exact Function.update_eq_self i m

theorem set_clear_self {m : Bitmap} {i : ℕ} (h : m i = true) : (m.clear i).set i = m := by
  funext j
  by_cases hj : j = i
  · rw [hj, set_self, h]
  · rw [set_of_ne _ hj, clear_of_ne _ hj]

theorem weight_clear (m : Bitmap) {n i : ℕ} (hi : i < n) (hm : m i = true) :
    (m.clear i).weight n + 1 = m.weight n := by
  have h := weight_set (m.clear i) hi (clear_self m i)
  rw [set_clear_self hm] at h
  exact h.symm

theorem ncard_Iio (n : ℕ) : (Set.Iio n).ncard = n := by
  rw [← Finset.coe_Iio, Set.ncard_coe_finset, Nat.card_Iio]

/-- The set positions, all of them below `n`, are `n` in number when every one is set. -/
theorem ncard_eq_iff {m : Bitmap} {n : ℕ} (h : {i | m i = true} ⊆ Set.Iio n) :
    {i | m i = true}.ncard = n ↔ ∀ i < n, m i = true := by
  constructor
  · intro hn i hi
    have hall := Set.eq_of_subset_of_ncard_le h ((ncard_Iio n).trans hn.symm).le
    exact hall.symm.subset hi
  · intro hall
    rw [h.antisymm hall, ncard_Iio]

theorem ncard_le {m : Bitmap} {n : ℕ} (h : {i | m i = true} ⊆ Set.Iio n) :
    {i | m i = true}.ncard ≤ n :=
  (Set.ncard_le_ncard h).trans (ncard_Iio n).le

end Bitmap

end Lib
