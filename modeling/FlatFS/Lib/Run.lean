import Mathlib.Tactic

namespace Lib

variable {σ α : Type*}

/-- States reached from `s₀` by steps of the partial step function `step`, each
of them taken in a state and with an action that `ok` admits. -/
inductive Reach (step : σ → α → Option σ) (ok : σ → α → Prop) (s₀ : σ) : σ → Prop
  | init : Reach step ok s₀ s₀
  | step {s s' : σ} {a : α} (hs : Reach step ok s₀ s) (hok : ok s a)
      (hstep : step s a = some s') : Reach step ok s₀ s'

def anyStep (_ : σ) (_ : α) : Prop := True

instance (s : σ) (a : α) : Decidable (anyStep s a) := .isTrue trivial

/-- The state after a list of actions, when every one of them is admitted and enabled. -/
def run (step : σ → α → Option σ) (ok : σ → α → Prop) [∀ s a, Decidable (ok s a)] :
    σ → List α → Option σ
  | s, [] => some s
  | s, a :: as => if ok s a then (step s a).bind fun s' => run step ok s' as else none

variable {step : σ → α → Option σ} {ok : σ → α → Prop} {s₀ s : σ}

/-- An invariant of the admitted steps holds in every state they reach. -/
theorem Reach.invariant (Inv : σ → Prop) (h : Reach step ok s₀ s) (h0 : Inv s₀)
    (hstep : ∀ s a s', Inv s → ok s a → step s a = some s' → Inv s') : Inv s := by
  induction h with
  | init => exact h0
  | step _ hok hs ih => exact hstep _ _ _ ih hok hs

/-- The same, where the steps from the states that are reached at all keep the invariant. -/
theorem Reach.invariant_reached (Inv : σ → Prop) (h : Reach step ok s₀ s) (h0 : Inv s₀)
    (hstep : ∀ s a s', Reach step ok s₀ s → Inv s → ok s a → step s a = some s' → Inv s') :
    Inv s := by
  induction h with
  | init => exact h0
  | step hr hok hs ih => exact hstep _ _ _ hr ih hok hs

theorem Reach.trans {s' : σ} (h : Reach step ok s₀ s) (h' : Reach step ok s s') :
    Reach step ok s₀ s' := by
  induction h' with
  | init => exact h
  | step _ hok hs ih => exact .step ih hok hs

theorem Reach.mono {ok' : σ → α → Prop} (hok : ∀ s a, ok s a → ok' s a)
    (h : Reach step ok s₀ s) : Reach step ok' s₀ s := by
  induction h with
  | init => exact .init
  | step _ ha hs ih => exact .step ih (hok _ _ ha) hs

theorem run_append [∀ s a, Decidable (ok s a)] (s : σ) (as bs : List α) :
    run step ok s (as ++ bs) = (run step ok s as).bind fun t => run step ok t bs := by
  induction as generalizing s with
  | nil => rfl
  | cons a as ih =>
    rw [List.cons_append, run, run]
    split_ifs
    · rw [Option.bind_assoc]
      exact congrArg (Option.bind _) (funext ih)
    · rfl

theorem run_one [∀ s a, Decidable (ok s a)] {a : α} {s s' : σ} (hok : ok s a)
    (hstep : step s a = some s') : run step ok s [a] = some s' := by
  rw [run, if_pos hok, hstep, Option.bind_some, run]

/-- A map that every step commutes with carries a run over. -/
theorem run_map {τ : Type*} {step' : τ → α → Option τ} [∀ s a, Decidable (ok s a)] (f : σ → τ)
    (hf : ∀ s a, step' (f s) a = (step s a).map f) {as : List α} {s s' : σ}
    (h : run step ok s as = some s') : run step' anyStep (f s) as = some (f s') := by
  induction as generalizing s with
  | nil =>
    cases h
    rfl
  | cons a as ih =>
    rw [run] at h
    split_ifs at h with hok
    obtain ⟨t, ht, hrun⟩ := Option.bind_eq_some_iff.mp h
    have hany : anyStep (f s) a := trivial
    rw [run, if_pos hany, hf, ht, Option.map_some, Option.bind_some]
    exact ih hrun

/-- One more action at the end of a run. -/
theorem run_concat [∀ s a, Decidable (ok s a)] {as : List α} {a : α} {s s' s'' : σ}
    (h : run step ok s as = some s') (hstep : step s' a = some s'') :
    run step anyStep s (as ++ [a]) = some s'' := by
  have hany : run step anyStep s as = some s' :=
    run_map id (fun s a => (congrFun Option.map_id (step s a)).symm) h
  rw [run_append, hany, Option.bind_some, run_one trivial hstep]

theorem Reach.of_run [∀ s a, Decidable (ok s a)] {s' : σ} {as : List α}
    (h : run step ok s as = some s') : Reach step ok s s' := by
  induction as generalizing s with
  | nil =>
    cases h
    exact .init
  | cons a as ih =>
    rw [run] at h
    split_ifs at h with hok
    obtain ⟨t, ht, hrun⟩ := Option.bind_eq_some_iff.mp h
    exact (Reach.step .init hok ht).trans (ih hrun)

theorem Reach.exists_run [∀ s a, Decidable (ok s a)] (h : Reach step ok s₀ s) :
    ∃ as, run step ok s₀ as = some s := by
  induction h with
  | init => exact ⟨[], rfl⟩
  | @step s s' a _ hok hs ih =>
    obtain ⟨as, has⟩ := ih
    refine ⟨as ++ [a], ?_⟩
    rw [run_append, has, Option.bind_some, run_one hok hs]

/-- When every step is followed by a step of the other function or by none, keeping the two states
related, every state reached is related to one that the other function reaches. -/
theorem Reach.simulates {τ β : Type*} {step' : τ → β → Option τ} {ok' : τ → β → Prop} {t₀ : τ}
    (R : σ → τ → Prop) (h : Reach step ok s₀ s) (h0 : R s₀ t₀)
    (hstep : ∀ s t a s', R s t → Reach step' ok' t₀ t → ok s a → step s a = some s' →
      R s' t ∨ ∃ b t', ok' t b ∧ step' t b = some t' ∧ R s' t') :
    ∃ t, Reach step' ok' t₀ t ∧ R s t := by
  induction h with
  | init => exact ⟨t₀, .init, h0⟩
  | step _ hok hs ih =>
    obtain ⟨t, ht, hr⟩ := ih
    rcases hstep _ t _ _ hr ht hok hs with hr' | ⟨b, t', hok', hs', hr'⟩
    · exact ⟨t, ht, hr'⟩
    · exact ⟨t', .step ht hok' hs', hr'⟩

/-- The actions of another step function that a list of actions comes to, along its run. -/
def translate {β : Type*} (step : σ → α → Option σ) (tr : σ → α → Option β) : σ → List α → List β
  | _, [] => []
  | s, a :: as => (tr s a).toList ++ (step s a).elim [] fun s' => translate step tr s' as

/-- When every step is matched by the translated action, if there is one, the translated actions run
to a related state. -/
theorem run_translates {τ β : Type*} {step' : τ → β → Option τ} {ok' : τ → β → Prop}
    {tr : σ → α → Option β} [∀ s a, Decidable (ok s a)] [∀ t b, Decidable (ok' t b)]
    (R : σ → τ → Prop) (hstep : ∀ s t a s', R s t → ok s a → step s a = some s' →
      ∃ t', run step' ok' t (tr s a).toList = some t' ∧ R s' t') {as : List α} {s s' : σ} {t : τ}
    (h0 : R s t) (h : run step ok s as = some s') :
    ∃ t', run step' ok' t (translate step tr s as) = some t' ∧ R s' t' := by
  induction as generalizing s t with
  | nil =>
    cases h
    exact ⟨t, rfl, h0⟩
  | cons a as ih =>
    rw [run] at h
    split_ifs at h with hok
    obtain ⟨u, hu, hrun⟩ := Option.bind_eq_some_iff.mp h
    obtain ⟨v, hv, hr⟩ := hstep s t a u h0 hok hu
    obtain ⟨t', ht', hr'⟩ := ih hr hrun
    refine ⟨t', ?_, hr'⟩
    rw [translate, run_append, hv, Option.bind_some, hu, Option.elim_some, ht']

/-- What the actions so far say of the state is carried along a run. -/
theorem run_history [∀ s a, Decidable (ok s a)] (I : List α → σ → Prop)
    (hstep : ∀ as s a s', I as s → ok s a → step s a = some s' → I (as ++ [a]) s')
    {pre as : List α} {s' : σ} (h0 : I pre s) (h : run step ok s as = some s') :
    I (pre ++ as) s' := by
  induction as generalizing pre s with
  | nil =>
    cases h
    rwa [List.append_nil]
  | cons a as ih =>
    rw [run] at h
    split_ifs at h with hok
    obtain ⟨t, ht, hrun⟩ := Option.bind_eq_some_iff.mp h
    rw [List.append_cons]
    exact ih (hstep pre s a t h0 hok ht) hrun

theorem exists_of_check {r : Option σ} {p : σ → Prop} [DecidablePred p]
    (h : r.any (fun t => decide (p t)) = true) : ∃ t, r = some t ∧ p t := by
  cases r with
  | none => cases h
  | some t => exact ⟨t, rfl, of_decide_eq_true h⟩

end Lib
