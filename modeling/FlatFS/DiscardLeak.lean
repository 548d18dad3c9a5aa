import FlatFS.DiscardRun

namespace FlatFS.Discard
open Lib Function

variable {d : ℕ} {s s' : State} {a : Action}

/-- Every submission finds its buffer unlocked and dirty, and the record naming its own file. -/
def SubmitsGo (s : State) : Action → Prop
  | .unlinkSubmit f => (s.buf (s.bucket f)).lock = none ∧ (s.buf (s.bucket f)).dirty = true ∧
    Names (s.buf (s.bucket f)).ioEnd (s.file f).fi
  | _ => True

theorem SubmitsGo.own (h : SubmitsGo s a) : SubmitsOwn s a := by
  cases a with
  | unlinkSubmit f => exact fun _ _ => h.2.2
  | _ => trivial

/-- A file past its submission is completed or has its I/O in flight. -/
def Pending (s : State) : Prop := ∀ f < s.count, (s.file f).pc.Past →
  (s.file f).completed = true ∨ (s.buf (s.bucket f)).lock = some (.io (some f))

/-- No file waits for a buffer that is not under the callback of an unlink. -/
theorem Pending.completed (h : Pending s) {f : ℕ} (hf : f < s.count) (hpast : (s.file f).pc.Past)
    (hl : ∀ g, (s.buf (s.bucket f)).lock ≠ some (.io (some g))) : (s.file f).completed = true :=
  (h f hf hpast).resolve_right (hl f)

theorem Pending.frame (h : Pending s) (hcount : s'.count = s.count)
    (hfile : ∀ g, SameFile (s.file g) (s'.file g))
    (hpast : ∀ g, (s'.file g).pc.Past → (s.file g).pc.Past) {b : ℕ} {x : Buffer}
    (hbuf : s'.buf = update s.buf b x)
    (hlock : x.lock = (s.buf b).lock ∨ ∀ g, (s.buf b).lock ≠ some (.io (some g))) : Pending s' := by
  intro f hf hfp
  have hb : s'.bucket f = s.bucket f := by rw [State.bucket, State.bucket, (hfile f).bucketId]
  have hold := h f (hcount ▸ hf) (hpast f hfp)
  rw [(hfile f).completed, hb, hbuf]
  rcases eq_or_ne (s.bucket f) b with rfl | hne
  · rw [update_self]
    rcases hlock with he | hnot
    · rwa [he]
    · exact .inl (hold.resolve_right (hnot f))
  · rwa [update_of_ne hne]

theorem past_setPc {f : ℕ} {pc : Pc} (h : ¬ pc.Past) (g : ℕ)
    (hg : ((s.setPc f pc).file g).pc.Past) : (s.file g).pc.Past := by
  rcases eq_or_ne g f with rfl | hne
  · exact absurd hg (by simpa [State.setPc, State.setFile] using h)
  · simpa [State.setPc, State.setFile, hne] using hg

theorem Pending.submit (h : Pending s) {f : ℕ} (hl : (s.buf (s.bucket f)).lock = none)
    (hdirty : (s.buf (s.bucket f)).dirty = true) :
    Pending ((s.setBuf (s.bucket f)
      (submitBioForDiscard (s.buf (s.bucket f)) f)).setPc f .submitted) := by
  intro g hg hgp
  have hsame : SameFile (s.file g) ((s.setPc f .submitted).file g) :=
    SameFile.setPc (fun _ => .inl rfl) g
  have hb : State.bucket ((s.setBuf (s.bucket f)
      (submitBioForDiscard (s.buf (s.bucket f)) f)).setPc f .submitted) g = s.bucket g :=
    congrArg Int.toNat hsame.bucketId
  rw [hb]
  rcases eq_or_ne g f with rfl | hne
  · refine .inr ?_
    change (update s.buf (s.bucket g) _ (s.bucket g)).lock = _
    rw [update_self, submitBio_goes hl hdirty]
  · have hgp' : (s.file g).pc.Past := by
      simpa [State.setPc, State.setFile, State.setBuf, hne] using hgp
    change ((s.setPc f .submitted).file g).completed = true ∨
      (update s.buf (s.bucket f) _ (s.bucket g)).lock = _
    rw [hsame.completed]
    by_cases hbg : s.bucket g = s.bucket f
    · exact .inl (h.completed hg hgp' (by simp [hbg, hl]))
    · rw [update_of_ne hbg]
      exact h g hg hgp'

theorem Pending.complete (h : Pending s) {b f : ℕ} (hl : (s.buf b).lock = some (.io (some f))) :
    Pending (completeDiscard s b f) := by
  intro g hg hgp
  have hfile := completeDiscard_file s b f g
  have hb : (completeDiscard s b f).bucket g = s.bucket g := by
    rw [State.bucket, State.bucket, hfile.1]
  rw [hfile.2] at hgp
  rw [hb]
  rcases eq_or_ne g f with rfl | hne
  · exact .inl (by simp [completeDiscard, State.setFile])
  · have hc : ((completeDiscard s b f).file g).completed = (s.file g).completed := by
      simp [completeDiscard, State.setFile, State.setBuf, hne]
    rw [hc]
    rcases h g hg hgp with hdone | hio
    · exact .inl hdone
    · have hbg : s.bucket g ≠ b := by
        rintro rfl
        rw [hl] at hio
        cases hio
        exact hne rfl
      exact .inr (by simpa [completeDiscard, State.setFile, State.setBuf, hbg] using hio)

theorem Pending.step (h : Pending s) (hok : SubmitsGo s a) (hstep : step d s a = some s') :
    Pending s' := by
  cases step_steps hstep with
  | create _ _ =>
    intro f hf hfp
    rcases Nat.lt_succ_iff_lt_or_eq.mp hf with hlt | rfl
    · have hold := h f hlt
      simp only [State.addFile, State.setFile, State.bucket, update_of_ne hlt.ne] at hfp ⊢
      exact hold hfp
    · exact not_past (.inl (by simp [State.addFile, State.setFile])) hfp
  | unlinkLock _ hpc hl =>
    exact h.frame rfl (SameFile.setPc (not_past (.inl hpc))) (past_setPc (by decide)) rfl
      (.inr (by simp [hl]))
  | unlinkUnlock hpc hl =>
    exact h.frame rfl (SameFile.setPc (not_past (.inr (.inl hpc)))) (past_setPc (by decide)) rfl
      (.inr (by simp [hl]))
  | unlinkMark hpc =>
    exact h.frame rfl (SameFile.setPc (not_past (.inr (.inr (.inl hpc)))))
      (past_setPc (by decide)) rfl (.inl rfl)
  | unlinkSubmit _ _ => exact h.submit hok.1 hok.2.1
  | @unlinkReturn f hpc =>
    refine h.frame (b := 0) (x := s.buf 0) rfl
      (SameFile.update ⟨rfl, rfl, rfl, rfl, fun _ => .inr rfl⟩) (fun g hg => ?_)
      (update_eq_self _ _).symm (.inl rfl)
    rcases eq_or_ne g f with rfl | hne
    · exact .inl hpc
    · simpa [State.setFile, hne] using hg
  | dirtyLock hl => exact h.frame rfl (fun _ => .refl _) (fun _ => id) rfl (.inr (by simp [hl]))
  | dirtyWrite _ hl => exact h.frame rfl (fun _ => .refl _) (fun _ => id) rfl (.inr (by simp [hl]))
  | dirtyMark => exact h.frame rfl (fun _ => .refl _) (fun _ => id) rfl (.inl rfl)
  | writeback hl => exact h.frame rfl (fun _ => .refl _) (fun _ => id) rfl (.inr (by simp [hl]))
  | written hl => exact h.frame rfl (fun _ => .refl _) (fun _ => id) rfl (.inr (by simp [hl]))
  | discarded hl => exact h.complete hl

/-- In every run whose submissions all find their buffer unlocked and dirty, under their own
record, no slot leaks: when no I/O is in flight on its page, the bit of a file whose unlink has
returned is clear, unless a later file has the slot. -/
theorem no_slot_leak (hd : d < 2 ^ 14) (sb : SbInfo) {ioEnd : ℕ → FfsIoEnd}
    (hio : ∀ b, (ioEnd b).isBigDir = 0) (h : Reach (step d) SubmitsGo (init d sb ioEnd) s)
    {f : ℕ} (hf : f < s.count) (hret : (s.file f).pc = .returned)
    (hquiet : ∀ g, (s.buf (s.bucket f)).lock ≠ some (.io g))
    (hlast : ∀ g, f < g → g < s.count → ∀ b i, (s.file f).At b i → ¬ (s.file g).At b i) :
    ∃ ht b i, s.sb.hashtbl d = some ht ∧ (s.file f).At b i ∧ ht.bit b i = false := by
  obtain ⟨hi, hp⟩ : Inv d s ∧ Pending s := h.invariant (fun s => Inv d s ∧ Pending s)
    ⟨inv_init d sb hio, fun f hf => absurd hf (Nat.not_lt_zero f)⟩
    fun _ _ _ hs hok hstep => ⟨hs.1.step hd hok.own hstep, hs.2.step hok hstep⟩
  obtain ⟨ht, hht, hbit⟩ := hi.table
  obtain ⟨-, b, hb, i, hi', hat⟩ := hi.file f hf
  have hdone : (s.file f).completed = true := hp.completed hf (.inr hret) fun g => hquiet _
  refine ⟨ht, b, i, hht, hat, ?_⟩
  by_contra hset
  obtain ⟨g, hg, hgc, hga⟩ := (hbit b hb i hi').mp (by simpa using hset)
  rcases lt_trichotomy f g with hlt | rfl | hgt
  · exact hlast g hlt hg b i hat hga
  · rw [hdone] at hgc
    cases hgc
  · rw [hi.reuse g f hgt hf b i hga hat] at hgc
    cases hgc

instance (s : State) : (a : Action) → Decidable (SubmitsGo s a)
  | .unlinkSubmit _ => inferInstanceAs (Decidable (_ ∧ _ ∧ _))
  | .create _ _ | .unlinkLock _ | .unlinkUnlock _ | .unlinkMark _ | .unlinkReturn _ =>
    .isTrue trivial
  | .dirtyLock _ | .dirtyWrite _ | .dirtyMark _ | .writeback _ | .complete _ => .isTrue trivial

theorem no_slot_leak_one : ∃ s ht b i,
    run (step 2) SubmitsGo freshRoot (createF1 ++ unlinkToMark 0 ++
      [.unlinkSubmit 0, .unlinkReturn 0, .complete (smallBucket f1)]) = some s ∧
    s.sb.hashtbl 2 = some ht ∧ (s.file 0).At b i ∧ ht.bit b i = false := by
  obtain ⟨s, hrun, hcount, hret, hlock⟩ := exists_of_check
    (r := run (step 2) SubmitsGo freshRoot (createF1 ++ unlinkToMark 0 ++
      [.unlinkSubmit 0, .unlinkReturn 0, .complete (smallBucket f1)]))
    (p := fun s => s.count = 1 ∧ (s.file 0).pc = .returned ∧
      (s.buf (s.bucket 0)).lock = none) (by decide +kernel)
  obtain ⟨ht, b, i, hht, hat, hbit⟩ := no_slot_leak (by norm_num) _ (fun _ => rfl) (.of_run hrun)
    (f := 0) (by omega) hret (by simp [hlock]) (fun g _ _ => by omega)
  exact ⟨s, ht, b, i, hrun, hht, hat, hbit⟩

/-- Writeback between marking and submission takes the dirty bit and the lock away: the
submission is skipped, the unlink returns, and when the writeback is over nothing is in flight
and the slot is still taken. -/
theorem writeback_leaks_slot : ∃ s ht,
    run (step 2) Serialised freshRoot (createF1 ++ unlinkToMark 0 ++
      [.writeback (smallBucket f1), .unlinkSubmit 0, .unlinkReturn 0,
        .complete (smallBucket f1)]) = some s ∧
    s.count = 1 ∧ Idle s ∧ (s.file 0).pc = .returned ∧ (s.buf (s.bucket 0)).lock = none ∧
    (s.file 0).At (smallBucket f1) 0 ∧ s.sb.hashtbl 2 = some ht ∧
    ht.bit (smallBucket f1) 0 = true := by
  obtain ⟨s, hrun, hcount, hidle, hret, hlock, hat, hbit⟩ := exists_of_check
    (r := run (step 2) Serialised freshRoot (createF1 ++ unlinkToMark 0 ++
      [.writeback (smallBucket f1), .unlinkSubmit 0, .unlinkReturn 0,
        .complete (smallBucket f1)]))
    (p := fun s => s.count = 1 ∧ Idle s ∧ (s.file 0).pc = .returned ∧
      (s.buf (s.bucket 0)).lock = none ∧ (s.file 0).At (smallBucket f1) 0 ∧
      (s.sb.hashtbl 2).any (fun ht => decide (ht.bit (smallBucket f1) 0 = true)) = true)
    (by decide +kernel)
  obtain ⟨ht, hht, hset⟩ := exists_of_check hbit
  exact ⟨s, ht, hrun, hcount, hidle, hret, hlock, hat, hht, hset⟩

end FlatFS.Discard
