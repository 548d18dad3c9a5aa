import Mathlib.Logic.Relation

namespace Lib

variable {α : Type*} {r r' : α → α → Prop}

def Acyclic (r : α → α → Prop) : Prop := ∀ a, ¬ Relation.TransGen r a a

theorem Acyclic.mono (h : Acyclic r) (hsub : ∀ a b, r' a b → r a b) : Acyclic r' := by
  intro a ha
  apply h a
  exact Relation.TransGen.mono hsub _ _ ha

/-- New edges into an element that has none out of it close no cycle. -/
theorem Acyclic.add_leaf (h : Acyclic r) {v : α} (hr : ∀ a b, r' a b → b ≠ v → r a b)
    (hv : ∀ b, ¬ r' v b) : Acyclic r' := by
  have hchain : ∀ a b, Relation.TransGen r' a b → b ≠ v → Relation.TransGen r a b := by
    intro a b hab
    induction hab with
    | single hab => exact fun hb => .single (hr _ _ hab hb)
    | tail _ hbc ih =>
      intro hc
      refine .tail (ih ?_) (hr _ _ hbc hc)
      rintro rfl
      exact hv _ hbc
  intro a ha
  by_cases hav : a = v
  · subst hav
    obtain ⟨b, hab, -⟩ := Relation.TransGen.head'_iff.mp ha
    exact hv b hab
  · exact h a (hchain a a ha hav)

end Lib
