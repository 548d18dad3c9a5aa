import FlatFS.DiscardRun

namespace FlatFS.Discard
open Lib Function

variable {d : ℕ} {s s' : State} {a : Action}

/-- The call of `ffs_dirty_inode` that holds the buffer has read `fi->valid` as set. -/
def Buffer.sawValid (x : Buffer) : Bool :=
  match x.lock with
  | some (.dirty _ valid) => valid ≠ 0
  | _ => false

/-- `ffs_dirty_inode` writes no entry of a file whose unlink has begun, and unlinks submit under
their own record. -/
def DirtiesLive (s : State) : Action → Prop
  | .dirtyWrite f => (s.buf (s.bucket f)).sawValid = true → (s.file f).pc = .live
  | a => SubmitsOwn s a

theorem DirtiesLive.own (h : DirtiesLive s a) : SubmitsOwn s a := by
  cases a with
  | dirtyWrite f => trivial
  | _ => exact h

/-- A bit of a page header belongs to a live file. -/
def HeaderLive (s : State) : Prop := ∀ b i, (s.buf b).page.slotBitmap i = true →
  ∃ f < s.count, (s.file f).pc = .live ∧ (s.file f).At b i

theorem HeaderLive.frame (h : HeaderLive s) (hcount : s'.count = s.count)
    (hfile : ∀ g, SameFile (s.file g) (s'.file g))
    (hlive : ∀ g, (s.file g).pc = .live → (s'.file g).pc = .live)
    (hpage : ∀ b, (s'.buf b).page = (s.buf b).page) : HeaderLive s' := by
  intro b i hbit
  rw [hpage] at hbit
  obtain ⟨f, hf, hpc, hat⟩ := h b i hbit
  exact ⟨f, hcount ▸ hf, hlive f hpc, ((hfile f).at_iff b i).mpr hat⟩

theorem page_update {b : ℕ} {x : Buffer} (hx : x.page = (s.buf b).page) (c : ℕ) :
    (update s.buf b x c).page = (s.buf c).page := by
  rcases eq_or_ne c b with rfl | hne
  · rw [update_self, hx]
  · rw [update_of_ne hne]

theorem live_setPc {f : ℕ} {pc : Pc} (h : (s.file f).pc ≠ .live) (g : ℕ)
    (hg : (s.file g).pc = .live) : ((s.setPc f pc).file g).pc = .live := by
  have hne : g ≠ f := by
    rintro rfl
    exact h hg
  simpa [State.setPc, State.setFile, hne] using hg

theorem HeaderLive.unlinkLock (h : HeaderLive s) (hi : Inv d s) {f : ℕ} (hf : f < s.count)
    {x : Buffer} (hx : x.page = clearPage (s.file f).fi (s.buf (s.bucket f)).page) :
    HeaderLive ((s.setBuf (s.bucket f) x).setPc f .locked) := by
  obtain ⟨-, c, -, j, -, hat⟩ := hi.file f hf
  have hc : s.bucket f = c := by rw [State.bucket, hat.1, Int.toNat_natCast]
  have hj : (s.file f).fi.slotId.toNat = j := by rw [hat.2, Int.toNat_natCast]
  have hother : ∀ {g}, g ≠ f → ((s.setBuf (s.bucket f) x).setPc f .locked).file g = s.file g :=
    fun hne => update_of_ne hne _ _
  have hkey : ∀ b i, (((s.setBuf (s.bucket f) x).setPc f .locked).buf b).page.slotBitmap i = true →
      (s.buf b).page.slotBitmap i = true ∧ ¬ (b = c ∧ i = j) := by
    intro b i hbit
    change (update s.buf (s.bucket f) x b).page.slotBitmap i = true at hbit
    rcases eq_or_ne b (s.bucket f) with rfl | hne
    · rw [update_self, hx] at hbit
      simp only [clearPage, Bitmap.clear_iff, hj] at hbit
      exact ⟨hbit.2, fun he => hbit.1 he.2⟩
    · rw [update_of_ne hne] at hbit
      exact ⟨hbit, fun he => hne (he.1.trans hc.symm)⟩
  intro b i hbit
  obtain ⟨hold, hnot⟩ := hkey b i hbit
  obtain ⟨g, hg, hpc, hga⟩ := h b i hold
  have hgf : g ≠ f := by
    rintro rfl
    exact hnot (hga.slot_eq hat)
  exact ⟨g, hg, by rwa [hother hgf], by rwa [hother hgf]⟩

theorem HeaderLive.dirtyWrite (h : HeaderLive s) (hi : Inv d s) {f : ℕ} (hf : f < s.count)
    {valid : ℤ} (hlive : valid ≠ 0 → (s.file f).pc = .live) {x : Buffer}
    (hx : x.page = dirtyPage (s.file f).fi valid (s.buf (s.bucket f)).page) :
    HeaderLive (s.setBuf (s.bucket f) x) := by
  obtain ⟨-, c, -, j, -, hat⟩ := hi.file f hf
  have hc : s.bucket f = c := by rw [State.bucket, hat.1, Int.toNat_natCast]
  have hj : (s.file f).fi.slotId.toNat = j := by rw [hat.2, Int.toNat_natCast]
  intro b i hbit
  change (update s.buf (s.bucket f) x b).page.slotBitmap i = true at hbit
  rcases eq_or_ne b (s.bucket f) with rfl | hne
  · rw [update_self, hx] at hbit
    by_cases hv : valid = 0
    · rw [dirtyPage, if_neg (not_not.mpr hv)] at hbit
      exact h _ i hbit
    · rw [dirtyPage, if_pos hv] at hbit
      simp only [Bitmap.set_iff, hj] at hbit
      rcases hbit with rfl | hold
      · exact ⟨f, hf, hlive hv, hc ▸ hat⟩
      · exact h _ i hold
  · rw [update_of_ne hne] at hbit
    exact h b i hbit

theorem HeaderLive.step (h : HeaderLive s) (hi : Inv d s) (hok : DirtiesLive s a)
    (hstep : step d s a = some s') : HeaderLive s' := by
  cases step_steps hstep with
  | create _ _ =>
    intro b i hbit
    obtain ⟨f, hf, hpc, hat⟩ := h b i hbit
    refine ⟨f, Nat.lt_succ_of_lt hf, ?_, ?_⟩ <;>
      simpa only [State.addFile, State.setFile, update_of_ne hf.ne]
  | unlinkLock hf _ _ => exact h.unlinkLock hi hf rfl
  | unlinkUnlock hpc _ =>
    exact h.frame rfl (SameFile.setPc (not_past (.inr (.inl hpc)))) (live_setPc (by simp [hpc]))
      (page_update rfl)
  | unlinkMark hpc =>
    exact h.frame rfl (SameFile.setPc (not_past (.inr (.inr (.inl hpc)))))
      (live_setPc (by simp [hpc])) (page_update rfl)
  | unlinkSubmit _ hpc =>
    exact h.frame rfl (SameFile.setPc fun _ => .inl rfl) (live_setPc (by simp [hpc]))
      (page_update (submitBio_page _ _))
  | @unlinkReturn f hpc =>
    refine h.frame rfl (SameFile.update ⟨rfl, rfl, rfl, rfl, fun _ => .inr rfl⟩) (fun g hg => ?_)
      fun _ => rfl
    have hne : g ≠ f := by
      rintro rfl
      rw [hpc] at hg
      cases hg
    simpa [State.setFile, hne] using hg
  | dirtyLock _ => exact h.frame rfl (fun _ => .refl _) (fun _ => id) (page_update rfl)
  | dirtyWrite hf hl =>
    -- the entry is written only when the file was valid, and then its unlink has not begun
    refine h.dirtyWrite hi hf (fun hv => hok ?_) rfl
    simp [Buffer.sawValid, hl, hv]
  | dirtyMark => exact h.frame rfl (fun _ => .refl _) (fun _ => id) (page_update rfl)
  | writeback _ => exact h.frame rfl (fun _ => .refl _) (fun _ => id) (page_update rfl)
  | written _ => exact h.frame rfl (fun _ => .refl _) (fun _ => id) (page_update rfl)
  | @discarded b f _ =>
    intro c i hbit
    have hpage : ((completeDiscard s b f).buf c).page = (s.buf c).page :=
      page_update (s := s) (x := { s.buf b with lock := none }) rfl c
    rw [hpage] at hbit
    obtain ⟨g, hg, hpc, hat⟩ := h c i hbit
    have hfile := completeDiscard_file s b f g
    refine ⟨g, hg, by rw [hfile.2, hpc], ?_⟩
    rw [File.At, hfile.1]
    exact hat

/-- In every run in which `ffs_dirty_inode` writes no entry of a file whose unlink has begun, and
unlinks submit under their own record, a bit of a page header is set in the table as well. -/
theorem header_subset_table (hd : d < 2 ^ 14) (sb : SbInfo) {ioEnd : ℕ → FfsIoEnd}
    (hio : ∀ b, (ioEnd b).isBigDir = 0) (h : Reach (step d) DirtiesLive (init d sb ioEnd) s) :
    ∃ ht, s.sb.hashtbl d = some ht ∧
      ∀ b i, (s.buf b).page.slotBitmap i = true → ht.bit b i = true := by
  obtain ⟨hi, hh⟩ : Inv d s ∧ HeaderLive s := h.invariant (fun s => Inv d s ∧ HeaderLive s)
    ⟨inv_init d sb hio, fun b i hbit => by simp [init, zeroPage] at hbit⟩
    fun _ _ _ hs hok hstep => ⟨hs.1.step hd hok.own hstep, hs.2.step hs.1 hok hstep⟩
  obtain ⟨ht, hht, hbit⟩ := hi.table
  refine ⟨ht, hht, fun b i hset => ?_⟩
  obtain ⟨f, hf, hpc, hat⟩ := hh b i hset
  obtain ⟨-, c, hc, j, hj, hat'⟩ := hi.file f hf
  obtain ⟨rfl, rfl⟩ := hat.slot_eq hat'
  exact (hbit b hc i hj).mpr ⟨f, hf, hi.not_completed hf hpc, hat⟩

instance (s : State) : (a : Action) → Decidable (DirtiesLive s a)
  | .dirtyWrite _ => inferInstanceAs (Decidable (_ → _))
  | .unlinkSubmit _ => inferInstanceAs (Decidable (_ → _ → _))
  | .create _ _ | .unlinkLock _ | .unlinkUnlock _ | .unlinkMark _ | .unlinkReturn _ =>
    .isTrue trivial
  | .dirtyLock _ | .dirtyMark _ | .writeback _ | .complete _ => .isTrue trivial

theorem header_subset_table_one : ∃ s ht,
    run (step 2) DirtiesLive freshRoot createF1 = some s ∧ s.sb.hashtbl 2 = some ht ∧
    (s.buf (smallBucket f1)).page.slotBitmap 0 = true ∧ ht.bit (smallBucket f1) 0 = true := by
  obtain ⟨s, hrun, hset⟩ := exists_of_check (r := run (step 2) DirtiesLive freshRoot createF1)
    (p := fun s => (s.buf (smallBucket f1)).page.slotBitmap 0 = true) (by decide +kernel)
  obtain ⟨ht, hht, hsub⟩ := header_subset_table (by norm_num) _ (fun _ => rfl) (.of_run hrun)
  exact ⟨s, ht, hrun, hht, hset, hsub _ _ hset⟩

/-- An access-time update between the two halves of the unlink of `f1` puts the bit back into the
page header, and the completion then frees the slot in the table alone. -/
theorem dirtyInode_revives_bit : ∃ s ht,
    run (step 2) Serialised freshRoot (createF1 ++ unlinkToMark 0 ++
      [.dirtyLock 0, .dirtyWrite 0, .dirtyMark (smallBucket f1), .unlinkSubmit 0, .unlinkReturn 0,
        .complete (smallBucket f1)]) = some s ∧
    s.sb.hashtbl 2 = some ht ∧ (s.buf (smallBucket f1)).page.slotBitmap 0 = true ∧
    ht.bit (smallBucket f1) 0 = false := by
  obtain ⟨s, hrun, hset, hbit⟩ := exists_of_check
    (r := run (step 2) Serialised freshRoot (createF1 ++ unlinkToMark 0 ++
      [.dirtyLock 0, .dirtyWrite 0, .dirtyMark (smallBucket f1), .unlinkSubmit 0, .unlinkReturn 0,
        .complete (smallBucket f1)]))
    (p := fun s => (s.buf (smallBucket f1)).page.slotBitmap 0 = true ∧
      (s.sb.hashtbl 2).any (fun ht => decide (ht.bit (smallBucket f1) 0 = false)) = true)
    (by decide +kernel)
  obtain ⟨ht, hht, hclear⟩ := exists_of_check hbit
  exact ⟨s, ht, hrun, hht, hset, hclear⟩

end FlatFS.Discard
