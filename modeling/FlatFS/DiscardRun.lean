import FlatFS.Discard

namespace FlatFS.Discard
open Lib Function

variable {d : ℕ} {s s' : State} {a : Action}

theorem submitBio_ioEnd (x : Buffer) (f : ℕ) : (submitBioForDiscard x f).ioEnd = x.ioEnd := by
  unfold submitBioForDiscard
  split_ifs <;> rfl

theorem submitBio_page (x : Buffer) (f : ℕ) : (submitBioForDiscard x f).page = x.page := by
  unfold submitBioForDiscard
  split_ifs <;> rfl

theorem submitBio_goes {x : Buffer} (hl : x.lock = none) (hd : x.dirty = true) (f : ℕ) :
    (submitBioForDiscard x f).lock = some (.io (some f)) := by
  unfold submitBioForDiscard
  rw [if_pos ⟨hl, hd⟩]

theorem SameFile.setPc {f : ℕ} {pc : Pc} (h : (s.file f).pc.Past → pc.Past) (g : ℕ) :
    SameFile (s.file g) ((s.setPc f pc).file g) :=
  SameFile.update (x := { s.file f with pc := pc }) ⟨rfl, rfl, rfl, rfl, h⟩ g

theorem not_past {pc : Pc} {q : Prop}
    (h : pc = .live ∨ pc = .locked ∨ pc = .unlocked ∨ pc = .marked) : pc.Past → q := by
  rintro (rfl | rfl) <;> simp at h

theorem Inv.bucketId (hi : Inv d s) {f : ℕ} (hf : f < s.count) :
    (s.file f).fi.bucketId = s.bucket f := by
  obtain ⟨-, b, -, i, -, hat⟩ := hi.file f hf
  rw [State.bucket, hat.1, Int.toNat_natCast]

theorem Inv.submit (hi : Inv d s) {f : ℕ} (hf : f < s.count) (hpc : (s.file f).pc = .marked)
    (hok : SubmitsOwn s (.unlinkSubmit f)) :
    Inv d ((s.setBuf (s.bucket f)
      (submitBioForDiscard (s.buf (s.bucket f)) f)).setPc f .submitted) := by
  have hfile : ∀ g, SameFile (s.file g) ((s.setPc f .submitted).file g) :=
    SameFile.setPc fun _ => .inl rfl
  refine hi.frame rfl rfl hfile rfl (by rw [submitBio_ioEnd]) fun g hl => ?_
  by_cases hgo : (s.buf (s.bucket f)).lock = none ∧ (s.buf (s.bucket f)).dirty = true
  · obtain rfl : f = g := by simpa [submitBio_goes hgo.1 hgo.2] using hl
    refine .inr ⟨hf, ?_, ?_, ?_, ?_⟩
    · rw [← hi.bucketId hf]
      exact (hfile f).bucketId
    · simp only [State.setPc, State.setFile, State.setBuf, update_self, submitBio_ioEnd]
      exact hok hgo.1 hgo.2
    · exact .inl (by simp [State.setPc, State.setFile])
    · refine (hfile f).completed.trans ?_
      by_contra hc
      have := hi.past f hf (by simpa using hc)
      rw [hpc] at this
      exact not_past (.inr (.inr (.inr rfl))) this
  · exact .inl ⟨by rw [submitBioForDiscard, if_neg hgo], submitBio_ioEnd _ _⟩

/-- The invariant survives every step of a run whose submissions are made under their own record. -/
theorem Inv.step (hd : d < 2 ^ 14) (hi : Inv d s) (hok : SubmitsOwn s a)
    (hstep : step d s a = some s') : Inv d s' := by
  cases step_steps hstep with
  | create hht hne => exact hi.create hd hht hne
  | unlinkLock _ hpc _ =>
    exact hi.frame rfl rfl (SameFile.setPc (not_past (.inl hpc))) rfl rfl (by simp)
  | unlinkUnlock hpc _ =>
    exact hi.frame rfl rfl (SameFile.setPc (not_past (.inr (.inl hpc)))) rfl rfl (by simp)
  | unlinkMark hpc =>
    exact hi.frame rfl rfl (SameFile.setPc (not_past (.inr (.inr (.inl hpc))))) rfl rfl
      fun _ _ => .inl ⟨rfl, rfl⟩
  | unlinkSubmit hf hpc => exact hi.submit hf hpc hok
  | unlinkReturn _ =>
    exact hi.frame (b := 0) (x := s.buf 0) rfl rfl
      (SameFile.update ⟨rfl, rfl, rfl, rfl, fun _ => .inr rfl⟩) (update_eq_self _ _).symm rfl
      fun _ _ => .inl ⟨rfl, rfl⟩
  | dirtyLock _ => exact hi.frame rfl rfl (fun _ => .refl _) rfl rfl (by simp)
  | dirtyWrite _ _ => exact hi.frame rfl rfl (fun _ => .refl _) rfl rfl (by simp)
  | dirtyMark => exact hi.frame rfl rfl (fun _ => .refl _) rfl rfl fun _ _ => .inl ⟨rfl, rfl⟩
  | writeback _ => exact hi.frame rfl rfl (fun _ => .refl _) rfl rfl (by simp)
  | written _ => exact hi.frame rfl rfl (fun _ => .refl _) rfl rfl (by simp)
  | discarded hl => exact hi.complete hl

theorem Inv.not_completed (hi : Inv d s) {f : ℕ} (hf : f < s.count) (hpc : (s.file f).pc = .live) :
    (s.file f).completed = false := by
  by_contra hc
  exact not_past (.inl hpc) (hi.past f hf (by simpa using hc))

def Pc.Midway (pc : Pc) : Prop := pc ≠ .live ∧ pc ≠ .returned

def Pc.Filled (pc : Pc) : Prop := pc = .locked ∨ pc = .unlocked ∨ pc = .marked

def Idle (s : State) : Prop := ∀ f < s.count, (s.file f).pc = .live ∨ (s.file f).pc = .returned

instance (s : State) : Decidable (Idle s) := inferInstanceAs (Decidable (∀ f < s.count, _))

/-- VFS holds the lock of the directory over a create and over a whole unlink. -/
def Serialised (s : State) : Action → Prop
  | .create _ _ => Idle s
  | .unlinkLock _ => Idle s
  | _ => True

/-- Under that lock the record stays with the one unlink that is midway. -/
structure OwnRecord (s : State) : Prop where
  alone : ∀ f g, f < s.count → g < s.count → (s.file f).pc.Midway → (s.file g).pc.Midway → f = g
  names : ∀ f < s.count, (s.file f).pc.Filled →
    Names (s.buf (s.bucket f)).ioEnd (s.file f).fi

theorem Pc.Filled.midway {pc : Pc} (h : pc.Filled) : pc.Midway := by
  rcases h with rfl | rfl | rfl <;> exact ⟨by decide, by decide⟩

theorem Idle.not_midway (h : Idle s) {f : ℕ} (hf : f < s.count) : ¬ (s.file f).pc.Midway := by
  rintro ⟨h₁, h₂⟩
  rcases h f hf with he | he
  · exact h₁ he
  · exact h₂ he

theorem OwnRecord.of_idle (h : Idle s) : OwnRecord s :=
  ⟨fun _ _ hf _ hmid _ => absurd hmid (h.not_midway hf),
    fun _ hf hfill => absurd hfill.midway (h.not_midway hf)⟩

theorem OwnRecord.frame (h : OwnRecord s) (hcount : s'.count = s.count)
    (hfile : ∀ g, SameFile (s.file g) (s'.file g))
    (hmid : ∀ g, (s'.file g).pc.Midway → (s.file g).pc.Midway)
    (hfill : ∀ g, (s'.file g).pc.Filled → (s.file g).pc.Filled)
    (hio : ∀ b, (s'.buf b).ioEnd = (s.buf b).ioEnd) : OwnRecord s' where
  alone f g hf hg hmf hmg := h.alone f g (hcount ▸ hf) (hcount ▸ hg) (hmid f hmf) (hmid g hmg)
  names f hf hff := by
    have hb : s'.bucket f = s.bucket f := by rw [State.bucket, State.bucket, (hfile f).bucketId]
    rw [hb, hio]
    exact (hfile f).names (h.names f (hcount ▸ hf) (hfill f hff))

theorem ioEnd_update {b : ℕ} {x : Buffer} (hx : x.ioEnd = (s.buf b).ioEnd) (c : ℕ) :
    (update s.buf b x c).ioEnd = (s.buf c).ioEnd := by
  rcases eq_or_ne c b with rfl | hne
  · rw [update_self, hx]
  · rw [update_of_ne hne]

theorem OwnRecord.advance (h : OwnRecord s) {f : ℕ} {x : File} (hx : SameFile (s.file f) x)
    (hmid : (s.file f).pc.Midway) (hfill : x.pc.Filled → (s.file f).pc.Filled) {b : ℕ} {y : Buffer}
    (hy : y.ioEnd = (s.buf b).ioEnd) : OwnRecord ((s.setBuf b y).setFile f x) := by
  refine h.frame rfl (SameFile.update hx) (fun g hg => ?_) (fun g hg => ?_) (ioEnd_update hy)
  all_goals
    simp only [State.setFile, State.setBuf] at hg
    rcases eq_or_ne g f with rfl | hne
  · exact hmid
  · rwa [update_of_ne hne] at hg
  · rw [update_self] at hg
    exact hfill hg
  · rwa [update_of_ne hne] at hg

theorem OwnRecord.setPc (h : OwnRecord s) {f : ℕ} {pc : Pc} (hpast : (s.file f).pc.Past → pc.Past)
    (hmid : (s.file f).pc.Midway) (hfill : pc.Filled → (s.file f).pc.Filled) {b : ℕ} {y : Buffer}
    (hy : y.ioEnd = (s.buf b).ioEnd) : OwnRecord ((s.setBuf b y).setPc f pc) :=
  h.advance (x := { s.file f with pc := pc }) ⟨rfl, rfl, rfl, rfl, hpast⟩ hmid hfill hy

theorem OwnRecord.setBuf (h : OwnRecord s) {b : ℕ} {y : Buffer}
    (hy : y.ioEnd = (s.buf b).ioEnd) : OwnRecord (s.setBuf b y) :=
  h.frame rfl (fun _ => .refl _) (fun _ => id) (fun _ => id) (ioEnd_update hy)

theorem OwnRecord.fill (h : Idle s) {f : ℕ} {x : Buffer}
    (hx : Names x.ioEnd (s.file f).fi) :
    OwnRecord ((s.setBuf (s.bucket f) x).setPc f .locked) := by
  have hother : ∀ {g}, g ≠ f → ((s.setBuf (s.bucket f) x).setPc f .locked).file g = s.file g :=
    fun hne => update_of_ne hne _ _
  have honly : ∀ g < s.count, (((s.setBuf (s.bucket f) x).setPc f .locked).file g).pc.Midway →
      g = f := by
    intro g hg hmid
    by_contra hne
    rw [hother hne] at hmid
    exact h.not_midway hg hmid
  refine ⟨fun g g' hg hg' hm hm' => (honly g hg hm).trans (honly g' hg' hm').symm,
    fun g hg hfill => ?_⟩
  obtain rfl := honly g hg hfill.midway
  simpa [State.setPc, State.setFile, State.setBuf, State.bucket] using hx

theorem OwnRecord.step (h : OwnRecord s) (hok : Serialised s a) (hstep : step d s a = some s') :
    OwnRecord s' := by
  cases step_steps hstep with
  | create _ _ =>
    -- no unlink is midway when a file is created
    refine OwnRecord.of_idle fun f hf => ?_
    rcases Nat.lt_succ_iff_lt_or_eq.mp hf with hlt | rfl
    · simp only [State.addFile, State.setFile, update_of_ne hlt.ne]
      exact hok f hlt
    · exact .inl (by simp [State.addFile, State.setFile])
  | unlinkLock _ _ _ => exact OwnRecord.fill hok ⟨rfl, rfl, rfl⟩
  | unlinkUnlock hpc _ =>
    exact h.setPc (not_past (.inr (.inl hpc))) (by simp [hpc, Pc.Midway]) (fun _ => .inl hpc) rfl
  | unlinkMark hpc =>
    exact h.setPc (not_past (.inr (.inr (.inl hpc)))) (by simp [hpc, Pc.Midway])
      (fun _ => .inr (.inl hpc)) rfl
  | unlinkSubmit _ hpc =>
    exact h.setPc (fun _ => .inl rfl) (by simp [hpc, Pc.Midway]) (fun _ => .inr (.inr hpc))
      (submitBio_ioEnd _ _)
  | @unlinkReturn f hpc =>
    have := h.advance (x := { s.file f with fi := invalidate (s.file f).fi, pc := .returned })
      (b := 0) (y := s.buf 0) ⟨rfl, rfl, rfl, rfl, fun _ => .inr rfl⟩ (by simp [hpc, Pc.Midway])
      (by simp [Pc.Filled]) rfl
    rwa [State.setBuf, update_eq_self] at this
  | dirtyLock _ => exact h.setBuf rfl
  | dirtyWrite _ _ => exact h.setBuf rfl
  | dirtyMark => exact h.setBuf rfl
  | writeback _ => exact h.setBuf rfl
  | written _ => exact h.setBuf rfl
  | @discarded b f _ =>
    have hfile : ∀ g, ((completeDiscard s b f).file g).fi = (s.file g).fi ∧
        ((completeDiscard s b f).file g).pc = (s.file g).pc := completeDiscard_file s b f
    refine ⟨fun g g' hg hg' hm hm' => ?_, fun g hg hfill => ?_⟩
    · rw [(hfile g).2] at hm
      rw [(hfile g').2] at hm'
      exact h.alone g g' hg hg' hm hm'
    · have hb : (completeDiscard s b f).bucket g = s.bucket g := by
        rw [State.bucket, State.bucket, (hfile g).1]
      rw [(hfile g).2] at hfill
      rw [hb, (hfile g).1]
      exact (ioEnd_update (s := s) (x := { s.buf b with lock := none }) rfl _) ▸
        h.names g hg hfill

/-- A serialised unlink submits under its own record. -/
theorem OwnRecord.submitsOwn (h : OwnRecord s) (hstep : Discard.step d s a = some s') :
    SubmitsOwn s a := by
  cases step_steps hstep with
  | @unlinkSubmit f hf hpc => exact fun _ _ => h.names f hf (.inr (.inr hpc))
  | _ => trivial

/-- In every run with creates and unlinks serialised by VFS the bit of a live file is set, live
files have different slots, and a slot goes to a later file when the completion of the earlier
one's unlink has run. -/
theorem no_premature_reuse (hd : d < 2 ^ 14) (sb : SbInfo) {ioEnd : ℕ → FfsIoEnd}
    (hio : ∀ b, (ioEnd b).isBigDir = 0)
    (h : Reach (step d) Serialised (init d sb ioEnd) s) :
    ∃ ht, s.sb.hashtbl d = some ht ∧
      (∀ f < s.count, ∃ b < 2 ^ 12, ∃ i < 8, (s.file f).At b i ∧
        ((s.file f).pc = .live → ht.bit b i = true)) ∧
      (∀ f < s.count, ∀ g < s.count, (s.file f).pc = .live → (s.file g).pc = .live →
        ∀ b i, (s.file f).At b i → (s.file g).At b i → f = g) ∧
      ∀ f g, f < g → g < s.count → ∀ b i, (s.file f).At b i → (s.file g).At b i →
        (s.file f).completed = true := by
  obtain ⟨hi, -⟩ : Inv d s ∧ OwnRecord s := h.invariant (fun s => Inv d s ∧ OwnRecord s)
    ⟨inv_init d sb hio, .of_idle fun f hf => absurd hf (Nat.not_lt_zero f)⟩
    fun _ _ _ hs hok hstep =>
      ⟨hs.1.step hd (hs.2.submitsOwn hstep) hstep, hs.2.step hok hstep⟩
  obtain ⟨ht, hht, hbit⟩ := hi.table
  refine ⟨ht, hht, fun f hf => ?_, fun f hf g hg hfl hgl b i hfa hga => ?_, hi.reuse⟩
  · obtain ⟨-, b, hb, i, hi', hat⟩ := hi.file f hf
    exact ⟨b, hb, i, hi', hat, fun hpc =>
      (hbit b hb i hi').mpr ⟨f, hf, hi.not_completed hf hpc, hat⟩⟩
  · exact hi.slot_inj hf hg (hi.not_completed hf hfl) (hi.not_completed hg hgl) hfa hga

instance (s : State) : (a : Action) → Decidable (Serialised s a)
  | .create _ _ => inferInstanceAs (Decidable (Idle s))
  | .unlinkLock _ => inferInstanceAs (Decidable (Idle s))
  | .unlinkUnlock _ | .unlinkMark _ | .unlinkSubmit _ | .unlinkReturn _ => .isTrue trivial
  | .dirtyLock _ | .dirtyWrite _ | .dirtyMark _ | .writeback _ | .complete _ => .isTrue trivial

def freshRoot : State :=
  init 2 (fillSuper (fun _ _ => 0) fun _ => ⟨0, 0, 0⟩) fun _ => ⟨0, 0, 0, 0, 0⟩

def f1 : CStr := [102, 49]

def createF1 : List Action :=
  [.create f1 ⟨0, fun _ => 0⟩, .dirtyLock 0, .dirtyWrite 0, .dirtyMark (smallBucket f1)]

def unlinkToMark (f : ℕ) : List Action := [.unlinkLock f, .unlinkUnlock f, .unlinkMark f]

theorem no_premature_reuse_again : ∃ s,
    run (step 2) Serialised freshRoot (createF1 ++ unlinkToMark 0 ++
      [.unlinkSubmit 0, .unlinkReturn 0, .complete (smallBucket f1),
        .create f1 ⟨0, fun _ => 0⟩]) = some s ∧
    (s.file 0).At (smallBucket f1) 0 ∧ (s.file 1).At (smallBucket f1) 0 ∧
    (s.file 0).completed = true := by
  obtain ⟨s, hrun, hcount, h₀, h₁⟩ := exists_of_check
    (r := run (step 2) Serialised freshRoot (createF1 ++ unlinkToMark 0 ++
      [.unlinkSubmit 0, .unlinkReturn 0, .complete (smallBucket f1),
        .create f1 ⟨0, fun _ => 0⟩]))
    (p := fun s => s.count = 2 ∧ (s.file 0).At (smallBucket f1) 0 ∧
      (s.file 1).At (smallBucket f1) 0) (by decide +kernel)
  obtain ⟨-, -, -, -, hreuse⟩ := no_premature_reuse (by norm_num) _ (fun _ => rfl) (.of_run hrun)
  exact ⟨s, hrun, h₀, h₁, hreuse 0 1 (by norm_num) (by omega) _ _ h₀ h₁⟩

end FlatFS.Discard
