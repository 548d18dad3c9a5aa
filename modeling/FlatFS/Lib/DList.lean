import Mathlib.Tactic

namespace Lib

/-- The nodes met from `p` on by following `next`, at most `n` of them; address 0 is `NULL`. -/
def walk (next : ℕ → ℕ) : ℕ → ℕ → List ℕ
  | _, 0 => []
  | p, n + 1 => if p = 0 then [] else p :: walk next (next p) n

/-- A doubly linked segment: following `next` from `p` meets exactly `xs` and then stands
at `q`; the back pointers lead the other way, the first of them to `prev`. -/
def Seg (next last : ℕ → ℕ) : ℕ → ℕ → List ℕ → ℕ → Prop
  | _, p, [], q => p = q
  | prev, p, x :: xs, q => p = x ∧ x ≠ 0 ∧ last x = prev ∧ Seg next last x (next x) xs q

variable {next last next' last' : ℕ → ℕ} {prev p q : ℕ} {xs ys : List ℕ}

theorem walk_take (next : ℕ → ℕ) (p n : ℕ) : walk next p n = (walk next p (n + 1)).take n := by
  induction n generalizing p with
  | zero => rfl
  | succ n ih =>
    rw [walk, walk]
    split_ifs
    · rfl
    · rw [List.take_succ_cons, ← ih]

theorem seg_append :
    Seg next last prev p (xs ++ ys) q ↔
      ∃ r, Seg next last prev p xs r ∧ Seg next last (xs.getLastD prev) r ys q := by
  induction xs generalizing prev p with
  | nil => simp [Seg]
  | cons x xs ih =>
    simp only [List.cons_append, Seg, ih, List.getLastD_cons]
    constructor
    · rintro ⟨hp, h0, hl, r, hx, hy⟩
      exact ⟨r, ⟨hp, h0, hl, hx⟩, hy⟩
    · rintro ⟨r, ⟨hp, h0, hl, hx⟩, hy⟩
      exact ⟨hp, h0, hl, r, hx, hy⟩

theorem Seg.congr (h : Seg next last prev p xs q) (hn : ∀ x ∈ xs, next' x = next x)
    (hl : ∀ x ∈ xs, last' x = last x) : Seg next' last' prev p xs q := by
  induction xs generalizing prev p with
  | nil => exact h
  | cons x xs ih =>
    obtain ⟨hp, h0, hlast, hrest⟩ := h
    refine ⟨hp, h0, by rw [hl x (by simp), hlast], ?_⟩
    rw [hn x (by simp)]
    exact ih hrest (fun y hy => hn y (by simp [hy])) (fun y hy => hl y (by simp [hy]))

theorem Seg.ne_zero (h : Seg next last prev p xs q) : ∀ x ∈ xs, x ≠ 0 := by
  induction xs generalizing prev p with
  | nil => simp
  | cons x xs ih =>
    obtain ⟨-, h0, -, hrest⟩ := h
    intro y hy
    rcases List.mem_cons.mp hy with rfl | hy
    · exact h0
    · exact ih hrest y hy

theorem Seg.start (h : Seg next last prev p xs q) : p = xs.headD q := by
  cases xs with
  | nil => exact h
  | cons x xs => exact h.1

/-- A walk over a list that ends in `NULL` visits the list and nothing else. -/
theorem Seg.walk_eq (h : Seg next last prev p xs 0) {n : ℕ} (hn : xs.length ≤ n) :
    walk next p n = xs := by
  induction xs generalizing prev p n with
  | nil =>
    cases n with
    | zero => rfl
    | succ n =>
      rw [Seg] at h
      rw [walk, if_pos h]
  | cons x xs ih =>
    obtain ⟨rfl, h0, -, hrest⟩ := h
    cases n with
    | zero => simp at hn
    | succ n => rw [walk, if_neg h0, ih hrest (by simpa using hn)]

/-- A walk that comes to its end, with back pointers that lead the other way, is over a list. -/
theorem Seg.of_walk {n : ℕ} (hlen : (walk next p (n + 1)).length ≤ n)
    (hback : (walk next p (n + 1)).map last =
      (prev :: walk next p (n + 1)).take (walk next p (n + 1)).length) :
    Seg next last prev p (walk next p (n + 1)) 0 := by
  induction n generalizing prev p with
  | zero =>
    by_cases h0 : p = 0
    · rw [walk, if_pos h0]
      exact h0
    · simp [walk, h0] at hlen
  | succ n ih =>
    by_cases h0 : p = 0
    · rw [walk, if_pos h0]
      exact h0
    · rw [walk, if_neg h0] at hlen hback ⊢
      rw [List.map_cons, List.length_cons, List.take_succ_cons, List.cons_eq_cons] at hback
      exact ⟨rfl, h0, hback.1, ih (by simpa using hlen) hback.2⟩

theorem walk_congr {x n : ℕ} (hx : x ≠ 0) (hn : ∀ q, q ≠ x → next' q = next q ∨ next q = x)
    (hp : x ∉ walk next p n) : walk next' p n = walk next p n := by
  induction n generalizing p with
  | zero => rfl
  | succ n ih =>
    by_cases h0 : p = 0
    · rw [walk, walk, if_pos h0, if_pos h0]
    · rw [walk, if_neg h0, List.mem_cons, not_or] at hp
      rw [walk, walk, if_neg h0, if_neg h0]
      congr 1
      rcases hn p (Ne.symm hp.1) with he | he
      · rw [he]
        exact ih hp.2
      · -- the walk would step on `x`, unless this is its last step
        cases n with
        | zero => rfl
        | succ n => simp [he, walk, hx] at hp

theorem Seg.map_last (h : Seg next last prev p xs q) :
    xs.map last = (prev :: xs).take xs.length := by
  induction xs generalizing prev p with
  | nil => rfl
  | cons x xs ih =>
    obtain ⟨-, -, hl, hrest⟩ := h
    rw [List.map_cons, hl, ih hrest, List.length_cons, List.take_succ_cons]

theorem Seg.next_last {x : ℕ} (h : Seg next last 0 p (xs ++ x :: ys) q) (h0 : last x ≠ 0) :
    next (last x) = x := by
  obtain ⟨r, hxs, hr, -, hlast, -⟩ := seg_append.mp h
  rcases List.eq_nil_or_concat xs with rfl | ⟨zs, z, rfl⟩
  · exact absurd hlast (by simpa using h0)
  · rw [List.concat_eq_append] at hxs hlast
    obtain ⟨u, -, hz⟩ := seg_append.mp hxs
    rw [hlast, List.getLastD_concat]
    exact hz.2.2.2.trans hr

section update

variable {x t new prev' : ℕ}

/-- Redirecting the `next` pointer of the last node moves the end of a segment. -/
theorem Seg.retarget_end (h : Seg next last prev p (xs ++ [t]) q) {r : ℕ}
    (hn : ∀ y ∈ xs, next' y = next y) (hl : ∀ y ∈ xs ++ [t], last' y = last y)
    (ht : next' t = r) : Seg next' last' prev p (xs ++ [t]) r := by
  obtain ⟨u, hx, hu, ht0, hlt, -⟩ := seg_append.mp h
  refine seg_append.mpr ⟨u, hx.congr hn fun y hy => hl y (by simp [hy]), hu, ht0, ?_, ht⟩
  rw [hl t (by simp), hlt]

/-- Redirecting the `last` pointer of the first node moves the front of a segment. -/
theorem Seg.retarget_front (h : Seg next last prev p (x :: ys) q)
    (hn : ∀ y ∈ x :: ys, next' y = next y) (hl : ∀ y ∈ ys, last' y = last y)
    (hx : last' x = prev') : Seg next' last' prev' p (x :: ys) q := by
  obtain ⟨hp, h0, -, hrest⟩ := h
  refine ⟨hp, h0, hx, ?_⟩
  rw [hn x (by simp)]
  exact hrest.congr (fun y hy => hn y (by simp [hy])) hl

/-- Appending a node behind the last node `t`. -/
theorem Seg.snoc (h : Seg next last 0 p (xs ++ [t]) 0) (h0 : new ≠ 0)
    (hn : ∀ y ∈ xs, next' y = next y) (hl : ∀ y ∈ xs ++ [t], last' y = last y)
    (ht : next' t = new) (hnn : next' new = 0) (hln : last' new = t) :
    Seg next' last' 0 p (xs ++ [t] ++ [new]) 0 :=
  seg_append.mpr ⟨new, h.retarget_end hn hl ht, rfl, h0, by simp [hln], hnn⟩

/-- Unlinking the node `x` between `xs` and `ys`: its predecessor takes over its `next`
pointer, its successor its `last` pointer. -/
theorem Seg.unlink (h : Seg next last 0 p (xs ++ x :: ys) 0) (hnd : (xs ++ x :: ys).Nodup)
    (hp : q = if xs = [] then next x else p)
    (hn : ∀ y ∈ xs ++ ys, next' y = if y = last x then next x else next y)
    (hl : ∀ y ∈ xs ++ ys, last' y = if y = next x then last x else last y) :
    Seg next' last' 0 q (xs ++ ys) 0 := by
  obtain ⟨r, hx, -, -, hlx, hy⟩ := seg_append.mp h
  obtain ⟨hxnd, hynd, hdis⟩ := List.nodup_append.mp hnd
  have hnx : next x = ys.headD 0 := hy.start
  -- neighbours of `x` are met once, on their own side of it
  have hxs : ∀ y ∈ xs, y ≠ next x := by
    intro y hmem he
    cases ys with
    | nil => exact hx.ne_zero y hmem (by simpa [hnx] using he)
    | cons z zs => exact hdis y hmem z (by simp) (by simpa [hnx] using he)
  have hys : ∀ y ∈ ys, y ≠ last x := by
    intro y hmem he
    rcases List.eq_nil_or_concat xs with rfl | ⟨zs, z, rfl⟩
    · exact hy.ne_zero y hmem (by simpa [hlx] using he)
    · refine hdis z (by simp) y (by simp [hmem]) ?_
      rw [he, hlx]
      simp
  refine seg_append.mpr ⟨next x, ?_, ?_⟩
  · rcases List.eq_nil_or_concat xs with rfl | ⟨zs, z, rfl⟩
    · simpa [Seg] using hp
    · have hz : z = last x := by rw [hlx]; simp
      have hzs : ∀ y ∈ zs, y ≠ z := by
        intro y hmem
        exact (List.nodup_append.mp (by simpa using hxnd)).2.2 y hmem z (by simp)
      rw [hp, if_neg (by simp)]
      simp only [List.concat_eq_append] at hx hn hl hxs ⊢
      refine hx.retarget_end (fun y hmem => ?_) (fun y hmem => ?_) ?_
      · rw [hn y (by simp [hmem]), if_neg (hz ▸ hzs y hmem)]
      · rw [hl y (List.mem_append_left _ hmem), if_neg (hxs y hmem)]
      · rw [hn z (by simp), if_pos hz]
  · cases ys with
    | nil => simpa [Seg] using hy
    | cons z zs =>
      have hz : next x = z := hnx
      refine hy.retarget_front (fun y hmem => ?_) (fun y hmem => ?_) ?_
      · rw [hn y (List.mem_append_right _ hmem), if_neg (hys y hmem)]
      · rw [hl y (by simp [hmem]), if_neg]
        rw [hz]
        rintro rfl
        exact (List.nodup_cons.mp (List.nodup_cons.mp hynd).2).1 hmem
      · rw [hl z (by simp), if_pos hz.symm, hlx]

end update

end Lib
