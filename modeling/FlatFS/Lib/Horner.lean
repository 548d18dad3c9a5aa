import Mathlib.Tactic

namespace Lib

variable {R α : Type*} [CommSemiring R]

/-- Horner's scheme from the left: what is there times the base, plus the next digit. -/
def horner (base : R) (digit : α → R) (acc : R) (xs : List α) : R :=
  xs.foldl (fun acc x => acc * base + digit x) acc

variable (base : R) (digit : α → R)

theorem horner_nil (acc : R) : horner base digit acc [] = acc := rfl

theorem horner_cons (acc : R) (x : α) (xs : List α) :
    horner base digit acc (x :: xs) = horner base digit (acc * base + digit x) xs := rfl

/-- What stood at the start is shifted past all the digits. -/
theorem horner_acc (acc : R) (xs : List α) :
    horner base digit acc xs = acc * base ^ xs.length + horner base digit 0 xs := by
  induction xs generalizing acc with
  | nil => simp [horner_nil]
  | cons x xs ih =>
    rw [horner_cons, horner_cons, ih, ih (0 * base + digit x), List.length_cons, pow_succ]
    ring

theorem horner_append (xs ys : List α) :
    horner base digit 0 (xs ++ ys) =
      horner base digit 0 xs * base ^ ys.length + horner base digit 0 ys := by
  rw [← horner_acc, horner, List.foldl_append]
  rfl

end Lib
