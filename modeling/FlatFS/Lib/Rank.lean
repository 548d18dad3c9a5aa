import Mathlib.Tactic

namespace Lib

def ones (p : ℕ → Bool) (i n : ℕ) : List ℕ := (List.range' i n).filter p

/-- Moves on from position `i`, `n` steps at most, until `k` positions that satisfy `p` have been
counted, `c` of them before. The answer is the position it stops at and the count. -/
def seek (p : ℕ → Bool) (k : ℕ) : ℕ → ℕ → ℕ → ℕ × ℕ
  | i, c, 0 => (i, c)
  | i, c, n + 1 => if k ≤ c then (i, c) else seek p k (i + 1) (if p i then c + 1 else c) n

/-- The places of a table with rows of width `w` that satisfy `p`, in `n` rows from `r` on. -/
def cells (p : ℕ → ℕ → Bool) (w r n : ℕ) : List (ℕ × ℕ) :=
  (List.range' r n).flatMap fun i => (ones (p i) 0 w).map (Prod.mk i)

def seekRows (p : ℕ → ℕ → Bool) (w k : ℕ) : ℕ → ℕ → ℕ → ℕ × ℕ
  | r, _, 0 => (r, w)
  | r, c, n + 1 =>
    let s := seek (p r) k 0 c w
    if k ≤ s.2 then (r, s.1) else seekRows p w k (r + 1) s.2 n

section

variable {p : ℕ → Bool} {i n : ℕ}

theorem ones_succ (p : ℕ → Bool) (i n : ℕ) :
    ones p i (n + 1) = if p i then i :: ones p (i + 1) n else ones p (i + 1) n := by
  rw [ones, List.range'_succ, List.filter_cons]
  rfl

theorem mem_ones {j : ℕ} : j ∈ ones p i n ↔ i ≤ j ∧ j < i + n ∧ p j = true := by
  rw [ones, List.mem_filter, List.mem_range'_1, and_assoc]

theorem ones_sorted (p : ℕ → Bool) (i n : ℕ) : (ones p i n).Pairwise (· < ·) :=
  List.Pairwise.filter p List.pairwise_lt_range'

/-- Where the search stops, the positions left are those of rank `k` and above. -/
theorem seek_spec {k c : ℕ} (hc : c ≤ k) : ∃ j ≤ n,
    seek p k i c n = (i + j, min k (c + (ones p i n).length)) ∧
      ones p (i + j) (n - j) = (ones p i n).drop (k - c) := by
  induction n generalizing i c with
  | zero => exact ⟨0, le_rfl, by simp [seek, ones, hc], by simp [ones]⟩
  | succ n ih =>
    by_cases hk : k ≤ c
    · have hck : c = k := le_antisymm hc hk
      refine ⟨0, Nat.zero_le _, ?_, ?_⟩
      · rw [seek, if_pos hk, hck, min_eq_left (Nat.le_add_right _ _), add_zero]
      · rw [hck, Nat.sub_self, List.drop_zero, add_zero, Nat.sub_zero]
    · rw [seek, if_neg hk, ones_succ]
      by_cases hp : p i = true
      · obtain ⟨j, hj, hseek, hrest⟩ := ih (i := i + 1) (c := c + 1) (by omega)
        refine ⟨j + 1, by omega, ?_, ?_⟩
        · rw [if_pos hp, if_pos hp, hseek, List.length_cons]
          congr 1 <;> omega
        · rw [if_pos hp, show k - c = k - (c + 1) + 1 by omega, List.drop_succ_cons, ← hrest]
          congr 1 <;> omega
      · obtain ⟨j, hj, hseek, hrest⟩ := ih (i := i + 1) hc
        refine ⟨j + 1, by omega, ?_, ?_⟩
        · rw [if_neg hp, if_neg hp, hseek]
          congr 1
          omega
        · rw [if_neg hp, ← hrest]
          congr 1 <;> omega

end

section rows

variable {p : ℕ → ℕ → Bool} {w r n : ℕ}

theorem cells_succ (p : ℕ → ℕ → Bool) (w r n : ℕ) :
    cells p w r (n + 1) = (ones (p r) 0 w).map (Prod.mk r) ++ cells p w (r + 1) n := by
  rw [cells, List.range'_succ, List.flatMap_cons]
  rfl

theorem mem_cells {x : ℕ × ℕ} :
    x ∈ cells p w r n ↔ (r ≤ x.1 ∧ x.1 < r + n) ∧ x.2 < w ∧ p x.1 x.2 = true := by
  simp only [cells, List.mem_flatMap, List.mem_map, List.mem_range'_1, mem_ones]
  constructor
  · rintro ⟨i, hi, j, hj, rfl⟩
    exact ⟨hi, by omega, hj.2.2⟩
  · rintro ⟨hi, hj, hp⟩
    exact ⟨x.1, hi, x.2, ⟨Nat.zero_le _, by omega, hp⟩, rfl⟩

/-- Row by row, and in each row from left to right. -/
theorem cells_sorted (p : ℕ → ℕ → Bool) (w r n : ℕ) :
    (cells p w r n).Pairwise fun x y => x.1 < y.1 ∨ x.1 = y.1 ∧ x.2 < y.2 := by
  induction n generalizing r with
  | zero => exact .nil
  | succ n ih =>
    rw [cells_succ, List.pairwise_append]
    refine ⟨?_, ih (r + 1), fun x hx y hy => .inl ?_⟩
    · rw [List.pairwise_map]
      exact (ones_sorted (p r) 0 w).imp fun h => .inr ⟨rfl, h⟩
    · obtain ⟨j, -, rfl⟩ := List.mem_map.mp hx
      have := (mem_cells.mp hy).1.1
      omega

theorem seekRows_spec {k c : ℕ} (hc : c < k) (hk : k ≤ c + (cells p w r n).length) :
    ∃ i j, seekRows p w k r c n = (i, j) ∧ r ≤ i ∧ i < r + n ∧ j ≤ w ∧
      (ones (p i) j (w - j)).map (Prod.mk i) ++ cells p w (i + 1) (r + n - (i + 1)) =
        (cells p w r n).drop (k - c) := by
  induction n generalizing r c with
  | zero =>
    simp only [cells, List.range'_zero, List.flatMap_nil, List.length_nil] at hk
    omega
  | succ n ih =>
    rw [cells_succ, List.length_append, List.length_map] at hk
    obtain ⟨j, hj, hseek, hrest⟩ := seek_spec (p := p r) (i := 0) (n := w) hc.le
    rw [Nat.zero_add] at hseek hrest
    rw [seekRows, hseek, cells_succ]
    dsimp only
    by_cases hrow : k ≤ c + (ones (p r) 0 w).length
    · refine ⟨r, j, by rw [if_pos (by omega)], le_rfl, by omega, hj, ?_⟩
      rw [List.drop_append_of_le_length (by rw [List.length_map]; omega), ← List.map_drop, ← hrest]
      congr 2
      omega
    · -- the whole row is behind
      rw [if_neg (by omega), min_eq_right (by omega)]
      obtain ⟨i, j', hrows, hi, hlt, hj', hleft⟩ := ih (r := r + 1)
        (c := c + (ones (p r) 0 w).length) (by omega) (by omega)
      refine ⟨i, j', hrows, by omega, by omega, hj', ?_⟩
      have hlen : ((ones (p r) 0 w).map (Prod.mk r)).length = (ones (p r) 0 w).length :=
        List.length_map _
      rw [List.drop_append, List.drop_eq_nil_of_le (by omega), List.nil_append, hlen,
        Nat.sub_sub, ← hleft]
      congr 2
      omega

end rows

end Lib
