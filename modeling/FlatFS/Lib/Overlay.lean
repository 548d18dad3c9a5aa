import Mathlib.Data.List.GetD
import Mathlib.Tactic

namespace Lib

variable {α : Type*}

/-- The memory `mem` when lists have been written to its front, the first of them last. -/
def overlay (mem : ℕ → α) : List (List α) → ℕ → α
  | [] => mem
  | src :: srcs => fun i => src.getD i (overlay mem srcs i)

variable {mem : ℕ → α} {src : List α} {srcs : List (List α)} {i : ℕ}

theorem overlay_cons_of_lt (h : i < src.length) : overlay mem (src :: srcs) i = src[i] :=
  List.getD_eq_getElem _ _ h

theorem overlay_cons_of_le (h : src.length ≤ i) :
    overlay mem (src :: srcs) i = overlay mem srcs i :=
  List.getD_eq_default _ _ h

theorem overlay_twice : overlay mem (src :: src :: srcs) = overlay mem (src :: srcs) := by
  funext i
  by_cases h : i < src.length
  · rw [overlay_cons_of_lt h, overlay_cons_of_lt h]
  · rw [overlay_cons_of_le (not_lt.mp h)]

/-- Over a memory of zeros, the zeros left are those that no list has reached. -/
theorem overlay_eq_zero_iff [Zero α] (h : ∀ src ∈ srcs, 0 ∉ src) :
    overlay (fun _ => 0) srcs i = 0 ↔ ∀ src ∈ srcs, src.length ≤ i := by
  induction srcs with
  | nil => simp [overlay]
  | cons src srcs ih =>
    have hsrc : 0 ∉ src := h src List.mem_cons_self
    rw [List.forall_mem_cons, ← ih fun s hs => h s (List.mem_cons_of_mem _ hs)]
    by_cases hi : i < src.length
    · rw [overlay_cons_of_lt hi]
      refine iff_of_false (fun hz => hsrc ?_) fun hle => absurd hle.1 (not_le.mpr hi)
      rw [← hz]
      exact List.getElem_mem hi
    · rw [overlay_cons_of_le (not_lt.mp hi), and_iff_right (not_lt.mp hi)]

end Lib
