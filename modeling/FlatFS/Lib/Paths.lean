import Mathlib.Tactic
import Mathlib.Logic.Function.Basic

namespace Lib

variable {ν κ : Type*}

/-- The node that a path of names leads to, when every node has named children. -/
def resolve (kids : ν → κ → Option ν) : ν → List κ → Option ν
  | d, [] => some d
  | d, name :: names => (kids d name).bind fun c => resolve kids c names

def UniquePaths (kids : ν → κ → Option ν) (root : ν) : Prop :=
  ∀ p q d, resolve kids root p = some d → resolve kids root q = some d → p = q

section
variable {kids : ν → κ → Option ν} {root d : ν}

theorem resolve_append (kids : ν → κ → Option ν) (d : ν) (p q : List κ) :
    resolve kids d (p ++ q) = (resolve kids d p).bind fun c => resolve kids c q := by
  induction p generalizing d with
  | nil => rfl
  | cons name names ih =>
    rw [List.cons_append, resolve, resolve, Option.bind_assoc]
    exact congrArg (Option.bind _) (funext ih)

theorem resolve_concat (kids : ν → κ → Option ν) (d : ν) (p : List κ) (name : κ) :
    resolve kids d (p ++ [name]) = (resolve kids d p).bind fun c => kids c name := by
  rw [resolve_append]
  apply congrArg (Option.bind _)
  funext c
  exact Option.bind_fun_some _

/-- A node is not its own child when it is reached on one path only. -/
theorem UniquePaths.kid_ne (h : UniquePaths kids root) {p : List κ} {c : ν} {name : κ}
    (hp : resolve kids root p = some d) (hc : kids d name = some c) : c ≠ d := by
  intro he
  have hcp : resolve kids root (p ++ [name]) = some d := by
    rw [resolve_concat, hp, Option.bind_some, hc, he]
  have hlen := congrArg List.length (h _ _ _ hcp hp)
  rw [List.length_append, List.length_singleton] at hlen
  omega

end

section set
variable [DecidableEq ν] [DecidableEq κ]

def setKid (kids : ν → κ → Option ν) (d : ν) (name : κ) (o : Option ν) : ν → κ → Option ν :=
  Function.update kids d (Function.update (kids d) name o)

theorem setKid_apply (kids : ν → κ → Option ν) (d : ν) (name : κ) (o : Option ν) (e : ν)
    (name' : κ) :
    setKid kids d name o e name' = if e = d ∧ name' = name then o else kids e name' := by
  rw [setKid, Function.update_apply]
  by_cases he : e = d
  · rw [if_pos he, Function.update_apply, he]
    simp
  · rw [if_neg he, if_neg fun h => he h.1]

/-- One name of the node `d` on the path `p` is led from a leaf or nowhere to a new leaf or
nowhere. -/
structure Relink (kids kids' : ν → κ → Option ν) (root : ν) (p : List κ) (name : κ) (d : ν)
    (o : Option ν) : Prop where
  parent : resolve kids root p = some d
  kids_eq : kids' = setKid kids d name o
  old : ∀ c, kids d name = some c → ∀ name', kids c name' = none
  new : ∀ c, o = some c → (∀ q, resolve kids root q ≠ some c) ∧ ∀ name', kids c name' = none

variable {kids kids' : ν → κ → Option ν} {root d : ν} {p : List κ} {name : κ} {o : Option ν}

theorem Relink.behind (h : Relink kids kids' root p name d o) (name' : κ) :
    (o.bind fun c => kids' c name') = none ∧
      (resolve kids root (p ++ [name])).bind (fun c => kids c name') = none := by
  constructor
  · apply Option.bind_eq_none_iff.mpr
    intro c hc
    obtain ⟨hnew, hleaf⟩ := h.new c hc
    have hcd : c ≠ d := fun he => hnew p (he ▸ h.parent)
    rw [h.kids_eq, setKid_apply, if_neg fun he => hcd he.1, hleaf]
  · apply Option.bind_eq_none_iff.mpr
    intro c hc
    rw [resolve_concat, h.parent, Option.bind_some] at hc
    exact h.old c hc name'

theorem Relink.resolve_eq (h : Relink kids kids' root p name d o) (hu : UniquePaths kids root)
    (q : List κ) :
    resolve kids' root q = if q = p ++ [name] then o else resolve kids root q := by
  induction q using List.reverseRecOn with
  | nil =>
    rw [if_neg (List.append_ne_nil_of_right_ne_nil _ (List.cons_ne_nil _ _)).symm]
    rfl
  | append_singleton q name' ih =>
    rw [resolve_concat, ih, resolve_concat]
    by_cases hq : q = p ++ [name]
    · have hne : q ++ [name'] ≠ p ++ [name] := by
        intro he
        have hlen := congrArg List.length he
        rw [hq, List.length_append, List.length_append] at hlen
        simp at hlen
      obtain ⟨hafter, hbefore⟩ := h.behind name'
      rw [if_pos hq, if_neg hne, hq, hafter, hbefore]
    · rw [if_neg hq]
      cases he : resolve kids root q with
      | none =>
        have hne : q ++ [name'] ≠ p ++ [name] := by
          intro heq
          rw [(List.append_singleton_inj.mp heq).1, h.parent] at he
          cases he
        rw [if_neg hne]
        rfl
      | some e =>
        have hed : e = d ↔ q = p := by
          constructor
          · intro hed
            exact hu q p d (hed ▸ he) h.parent
          · intro hqp
            rw [hqp, h.parent] at he
            exact (Option.some.inj he).symm
        have hcond : e = d ∧ name' = name ↔ q ++ [name'] = p ++ [name] := by
          rw [hed, List.append_singleton_inj]
        rw [Option.bind_some, Option.bind_some, h.kids_eq, setKid_apply]
        simp only [hcond]

theorem Relink.unique (h : Relink kids kids' root p name d o) (hu : UniquePaths kids root) :
    UniquePaths kids' root := by
  intro q q' e hq hq'
  rw [h.resolve_eq hu] at hq hq'
  split_ifs at hq hq' with h1 h2 h2
  · rw [h1, h2]
  · exact absurd hq' ((h.new e hq).1 q')
  · exact absurd hq ((h.new e hq').1 q)
  · exact hu q q' e hq hq'

theorem Relink.reached_iff (h : Relink kids kids' root p name d o) (hu : UniquePaths kids root)
    (e : ν) : (∃ q, resolve kids' root q = some e) ↔
      o = some e ∨ (∃ q, resolve kids root q = some e) ∧ kids d name ≠ some e := by
  have hat : resolve kids root (p ++ [name]) = kids d name := by
    rw [resolve_concat, h.parent, Option.bind_some]
  constructor
  · intro hex
    obtain ⟨q, hq⟩ := hex
    rw [h.resolve_eq hu] at hq
    split_ifs at hq with hne
    · exact .inl hq
    · refine .inr ⟨⟨q, hq⟩, fun he => hne ?_⟩
      exact hu q _ e hq (hat.trans he)
  · intro hor
    rcases hor with ho | ⟨⟨q, hq⟩, hne⟩
    · refine ⟨p ++ [name], ?_⟩
      rw [h.resolve_eq hu, if_pos rfl, ho]
    · refine ⟨q, ?_⟩
      rw [h.resolve_eq hu, if_neg, hq]
      intro he
      rw [he, hat] at hq
      exact hne hq

end set

end Lib
