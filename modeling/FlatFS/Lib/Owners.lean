import Mathlib.Data.Set.Card
import Mathlib.Tactic

namespace Lib
open Function

variable {ι κ : Type*}

/-- Every resource in use is the one that some owner has, and no two owners have the same. -/
structure Owned (own : ι → Option κ) (used : κ → Prop) : Prop where
  used_iff : ∀ k, used k ↔ ∃ i, own i = some k
  inj : ∀ i j k, own i = some k → own j = some k → i = j

namespace Owned

variable {own : ι → Option κ} {used used' : κ → Prop} {i : ι} {k : κ}

theorem congr (h : Owned own used) (hu : ∀ k, used' k ↔ used k) : Owned own used' :=
  ⟨fun k => (hu k).trans (h.used_iff k), h.inj⟩

/-- There are as many owners of resources of a kind as such resources in use. -/
theorem ncard_eq (h : Owned own used) (P : κ → Prop) :
    {i | ∃ k, own i = some k ∧ P k}.ncard = {k | used k ∧ P k}.ncard := by
  have hsome : ∀ i ∈ {i | ∃ k, own i = some k ∧ P k}, (own i).isSome := by
    intro i ⟨k, hi, _⟩
    exact Option.isSome_of_eq_some hi
  apply Set.ncard_congr fun i hi => (own i).get (hsome i hi)
  case h₁ =>
    intro i ⟨k, hi, hk⟩
    rw [Option.get_of_eq_some _ hi]
    exact ⟨(h.used_iff k).mpr ⟨i, hi⟩, hk⟩
  case h₂ =>
    intro i j hi hj he
    apply h.inj i j _ (Option.some_get (hsome i hi)).symm
    rw [he, Option.some_get]
  case h₃ =>
    intro k ⟨hk, hP⟩
    obtain ⟨i, hi⟩ := (h.used_iff k).mp hk
    exact ⟨i, ⟨k, hi, hP⟩, Option.get_of_eq_some _ hi⟩

theorem owners (h : Owned own used) {l : List κ} (hl : l.Nodup) (hu : ∀ k ∈ l, used k) :
    ∃ is : List ι, is.map own = l.map some ∧ is.Nodup ∧ ∀ i, i ∈ is ↔ ∃ k ∈ l, own i = some k := by
  have hlist : ∃ is : List ι, is.map own = l.map some := by
    clear hl
    induction l with
    | nil => exact ⟨[], rfl⟩
    | cons k l ih =>
      obtain ⟨is, his⟩ := ih fun j hj => hu j (List.mem_cons_of_mem k hj)
      obtain ⟨i, hi⟩ := (h.used_iff k).mp (hu k List.mem_cons_self)
      exact ⟨i :: is, by rw [List.map_cons, List.map_cons, his, hi]⟩
  obtain ⟨is, his⟩ := hlist
  have hnd : (is.map own).Nodup := by
    rw [his]
    exact hl.map (Option.some_injective κ)
  refine ⟨is, his, hnd.of_map _, fun i => ⟨fun hi => ?_, fun hi => ?_⟩⟩
  · have hmem := List.mem_map_of_mem (f := own) hi
    rw [his] at hmem
    obtain ⟨k, hk, he⟩ := List.mem_map.mp hmem
    exact ⟨k, hk, he.symm⟩
  · obtain ⟨k, hk, hik⟩ := hi
    have hmem := List.mem_map_of_mem (f := some) hk
    rw [← his] at hmem
    obtain ⟨j, hj, hjk⟩ := List.mem_map.mp hmem
    rw [h.inj i j k hik hjk]
    exact hj

variable [DecidableEq ι]

/-- An owner of nothing takes a free resource. -/
theorem acquire (h : Owned own used) (hi : own i = none) (hk : ¬ used k)
    (hu : ∀ j, used' j ↔ j = k ∨ used j) : Owned (update own i (some k)) used' := by
  have hfree : ∀ j, own j ≠ some k := fun j hj => hk ((h.used_iff k).mpr ⟨j, hj⟩)
  constructor
  case used_iff =>
    intro m
    rw [hu, h.used_iff]
    constructor
    · intro hm
      rcases hm with rfl | ⟨j, hj⟩
      · exact ⟨i, update_self ..⟩
      · have hne : j ≠ i := fun he => by
          rw [he, hi] at hj
          cases hj
        exact ⟨j, (update_of_ne hne ..).trans hj⟩
    · intro ⟨j, hj⟩
      rw [update_apply] at hj
      split_ifs at hj
      · exact .inl (Option.some.inj hj).symm
      · exact .inr ⟨j, hj⟩
  case inj =>
    intro a b m ha hb
    rw [update_apply] at ha hb
    split_ifs at ha hb with hai hbi hbi
    · rw [hai, hbi]
    · cases ha
      exact absurd hb (hfree b)
    · cases hb
      exact absurd ha (hfree a)
    · exact h.inj a b m ha hb

/-- The owner gives its resource back. -/
theorem release (h : Owned own used) (hi : own i = some k) (hu : ∀ j, used' j ↔ j ≠ k ∧ used j) :
    Owned (update own i none) used' := by
  have hold : ∀ j m, update own i none j = some m → j ≠ i ∧ own j = some m := by
    intro j m hj
    rw [update_apply] at hj
    split_ifs at hj with hji
    exact ⟨hji, hj⟩
  constructor
  case used_iff =>
    intro m
    rw [hu, h.used_iff]
    constructor
    · intro ⟨hm, j, hj⟩
      have hne : j ≠ i := fun he => by
        rw [he, hi] at hj
        exact hm (Option.some.inj hj).symm
      exact ⟨j, (update_of_ne hne ..).trans hj⟩
    · intro ⟨j, hj⟩
      obtain ⟨hji, hj⟩ := hold j m hj
      refine ⟨fun he => hji ?_, j, hj⟩
      exact h.inj j i k (he ▸ hj) hi
  case inj =>
    intro a b m ha hb
    exact h.inj a b m (hold a m ha).2 (hold b m hb).2

end Owned

section count

variable {f : ℕ → Option κ} {n c : ℕ} {p k : κ}

theorem finite_assigned (hf : ∀ j, n ≤ j → f j = none) (k : κ) : {j | f j = some k}.Finite := by
  apply (Set.finite_Iio n).subset
  intro j hj
  by_contra hle
  rw [Set.mem_ofPred_eq, hf j (not_lt.mp hle)] at hj
  cases hj

theorem ncard_assign [DecidableEq κ] (hf : ∀ j, n ≤ j → f j = none) (hc : f c = none) :
    {j | update f c (some p) j = some k}.ncard =
      {j | f j = some k}.ncard + if k = p then 1 else 0 := by
  have hmem : c ∉ {j | f j = some k} := by
    rw [Set.mem_ofPred_eq, hc]
    exact (Option.some_ne_none k).symm
  by_cases hk : k = p
  · rw [if_pos hk, ← Set.ncard_insert_of_notMem hmem (finite_assigned hf k)]
    congr 1
    ext j
    rw [Set.mem_insert_iff, Set.mem_ofPred_eq, Set.mem_ofPred_eq, update_apply]
    by_cases hj : j = c <;> simp [hj, hk]
  · rw [if_neg hk, add_zero]
    congr 1
    ext j
    rw [Set.mem_ofPred_eq, Set.mem_ofPred_eq, update_apply]
    by_cases hj : j = c
    · simp [hj, hc, Ne.symm hk]
    · rw [if_neg hj]

theorem ncard_unassign [DecidableEq κ] (hf : ∀ j, n ≤ j → f j = none) (hc : f c = some p) :
    {j | f j = some k}.ncard =
      {j | update f c none j = some k}.ncard + if k = p then 1 else 0 := by
  have hnone : ∀ j, n ≤ j → update f c none j = none := by
    intro j hj
    rw [update_apply]
    split_ifs
    · rfl
    · exact hf j hj
  have h := ncard_assign (p := p) (k := k) hnone (update_self c none f)
  rwa [update_idem, ← hc, update_eq_self] at h

end count

section family

variable (T : ℕ → Option (κ × Option ℕ))

def nameAt (i : ℕ) : Option κ := (T i).map Prod.fst

def parentAt (i : ℕ) : Option κ := (T i).bind fun e => e.2.bind (nameAt T)

def childAt [DecidableEq κ] (k : κ) (i : ℕ) : Option κ :=
  if parentAt T i = some k then nameAt T i else none

def childNames [DecidableEq κ] (n : ℕ) (k : κ) : List κ := (List.range n).filterMap (childAt T k)

structure Family (n : ℕ) : Prop where
  fresh : ∀ i, n ≤ i → T i = none
  parent : ∀ i k p, T i = some (k, some p) → ∃ e, T p = some e

variable {T} {n c p : ℕ} {k : κ} {e : κ × Option ℕ}

theorem nameAt_eq (h : T p = some e) : nameAt T p = some e.1 := congrArg (Option.map Prod.fst) h

theorem nameAt_update (o : Option (κ × Option ℕ)) :
    nameAt (update T c o) = update (nameAt T) c (o.map Prod.fst) := comp_update ..

theorem parentAt_update (hc : ∀ i a, T i ≠ some (a, some c)) (o : Option (κ × Option ℕ)) {i : ℕ}
    (hi : i ≠ c) : parentAt (update T c o) i = parentAt T i := by
  rw [parentAt, parentAt, update_of_ne hi]
  apply Option.bind_congr
  intro e he
  apply Option.bind_congr
  intro q hq
  have hne : q ≠ c := fun hqc => hc i e.1 (by rw [he, ← hqc, ← hq])
  rw [nameAt_update, update_of_ne hne]

theorem filterMap_update_of_notMem (f : ℕ → Option κ) {l : List ℕ} (h : c ∉ l) (o : Option κ) :
    l.filterMap (update f c o) = l.filterMap f := by
  apply List.filterMap_congr
  intro i hi
  exact update_of_ne (fun he : i = c => h (he ▸ hi)) ..

variable [DecidableEq κ]

theorem childNames_succ (h : T n = none) : childNames T (n + 1) = childNames T n := by
  have hnone : ∀ k, childAt T k n = none := by
    intro k
    rw [childAt, nameAt, h]
    exact ite_self _
  funext k
  rw [childNames, List.range_succ, List.filterMap_append, List.filterMap_cons_none (hnone k),
    List.filterMap_nil, List.append_nil, childNames]

theorem childAt_update (hc : ∀ i a, T i ≠ some (a, some c)) (o : Option (κ × Option ℕ)) (k : κ) :
    childAt (update T c o) k = update (childAt T k) c (childAt (update T c o) k c) := by
  funext i
  by_cases hi : i = c
  · rw [hi, update_self]
  · rw [update_of_ne hi, childAt, parentAt_update hc o hi, nameAt_update, update_of_ne hi, childAt]

theorem filterMap_update_none {f : ℕ → Option κ} (hc : f c = some k)
    (hinj : ∀ i, f i = some k → i = c) {l : List ℕ} (hl : l.Nodup) :
    l.filterMap (update f c none) = (l.filterMap f).erase k := by
  induction l with
  | nil => rfl
  | cons a l ih =>
    obtain ⟨ha, hl⟩ := List.nodup_cons.mp hl
    by_cases hac : a = c
    · subst hac
      rw [List.filterMap_cons_none (update_self ..), filterMap_update_of_notMem f ha,
        List.filterMap_cons_some hc, List.erase_cons_head]
    · have hsame : update f c none a = f a := update_of_ne hac ..
      cases hfa : f a with
      | none =>
        rw [List.filterMap_cons_none (hsame.trans hfa), List.filterMap_cons_none hfa, ih hl]
      | some m =>
        have hm : m ≠ k := fun he => hac (hinj a (he ▸ hfa))
        rw [List.filterMap_cons_some (hsame.trans hfa), List.filterMap_cons_some hfa, ih hl,
          List.erase_cons_tail (by simpa using hm)]

/-- A new name under `e` comes last. -/
theorem Family.add (h : Family T n) (hp : T p = some e) (k : κ) :
    Family (update T n (some (k, some p))) (n + 1) ∧
      childNames (update T n (some (k, some p))) (n + 1) =
        update (childNames T n) e.1 (childNames T n e.1 ++ [k]) := by
  have hn := h.fresh n le_rfl
  have hpn : p ≠ n := fun he => by
    rw [he, hn] at hp
    cases hp
  have hc : ∀ i a, T i ≠ some (a, some n) := by
    intro i a hi
    obtain ⟨e', he'⟩ := h.parent i a n hi
    rw [hn] at he'
    cases he'
  constructor
  · constructor
    case fresh =>
      intro i hi
      rw [update_of_ne (by omega)]
      exact h.fresh i (by omega)
    case parent =>
      intro i a q hi
      by_cases hq : q = n
      · rw [hq, update_self]
        exact ⟨_, rfl⟩
      · rw [update_of_ne hq]
        rw [update_apply] at hi
        split_ifs at hi
        · cases hi
          exact ⟨e, hp⟩
        · exact h.parent i a q hi
  · have hparent : parentAt (update T n (some (k, some p))) n = some e.1 := by
      rw [parentAt, update_self, Option.bind_some, Option.bind_some, nameAt_update,
        update_of_ne hpn, nameAt_eq hp]
    funext j
    have hlast : childAt (update T n (some (k, some p))) j n =
        if e.1 = j then some k else none := by
      rw [childAt, hparent, nameAt_update, update_self]
      simp only [Option.some_inj]
      rfl
    rw [childNames, childAt_update hc, List.range_succ, List.filterMap_append,
      filterMap_update_of_notMem _ (by simp), hlast, update_apply]
    by_cases hj : j = e.1
    · rw [if_pos hj.symm, if_pos hj, List.filterMap_cons_some (update_self ..), hj]
      rfl
    · rw [if_neg (Ne.symm hj), if_neg hj, List.filterMap_cons_none (update_self ..),
        List.filterMap_nil, List.append_nil]
      rfl

/-- A name without children is taken out of the list of its parent. -/
theorem Family.remove (h : Family T n) (hT : T c = some (k, some p)) (hp : T p = some e)
    (hinj : ∀ i, nameAt T i = some k → i = c) (hc : ∀ i a, T i ≠ some (a, some c)) :
    Family (update T c none) n ∧
      childNames (update T c none) n =
        update (childNames T n) e.1 ((childNames T n e.1).erase k) := by
  constructor
  · constructor
    case fresh =>
      intro i hi
      rw [update_apply]
      split_ifs
      · rfl
      · exact h.fresh i hi
    case parent =>
      intro i a q hi
      rw [update_apply] at hi
      split_ifs at hi
      have hq : q ≠ c := fun he => hc i a (he ▸ hi)
      rw [update_of_ne hq]
      exact h.parent i a q hi
  · have hparent : parentAt T c = some e.1 := by
      rw [parentAt, hT, Option.bind_some, Option.bind_some, nameAt_eq hp]
    have hgone : ∀ j, childAt (update T c none) j c = none := by
      intro j
      rw [childAt, nameAt_update, update_self]
      exact ite_self _
    funext j
    rw [childNames, childAt_update hc, hgone, update_apply]
    by_cases hj : j = e.1
    · rw [if_pos hj, hj]
      apply filterMap_update_none _ _ List.nodup_range
      · rw [childAt, if_pos hparent, nameAt_eq hT]
      · intro i hi
        rw [childAt] at hi
        split_ifs at hi
        exact hinj i hi
    · have hnone : childAt T j c = none := by
        rw [childAt, hparent, if_neg]
        exact fun he => hj (Option.some.inj he).symm
      rw [if_neg hj, ← hnone, update_eq_self]
      rfl

end family

end Lib
