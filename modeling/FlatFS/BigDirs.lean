import FlatFS.Objects

namespace FlatFS
open Lib

structure BigRun where
  sb : SbInfo
  pos : ℕ → Option ℕ

inductive BigOp
  | mkdir (dfi : FfsInodeInfo) (mem : FfsName) (name : CStr) (dle : ℕ)
  | resize (d : ℕ)
  | remove (parent d : ℕ)

def BigRun.bigDirId (s : BigRun) (d : ℕ) : ℤ := (s.pos d).elim (-1) fun p => p

/-- `resize_dir` for a directory that is not promoted, and `remove_dir` with the position of the
directory; a step is missing where `resize_dir` writes outside its array. -/
def bigStep (s : BigRun) : BigOp → Option BigRun
  | .mkdir dfi mem name dle => some { s with sb := (ffsMknodDir s.sb dfi mem name dle).1 }
  | .resize d =>
    if s.pos d = none then
      (resizeDir s.sb).map fun r =>
        ⟨r.2, if r.1 = -1 then s.pos else Function.update s.pos d (some r.1.toNat)⟩
    else none
  | .remove parent d =>
    some ⟨removeDir s.sb (dirIdToInode (BitVec.ofNat 64 parent)) (dirIdToInode (BitVec.ofNat 64 d))
      (s.bigDirId d), Function.update s.pos d none⟩

structure BigDirsCounted (sb : SbInfo) : Prop where
  bits : sb.bigDirNum.toNat = sb.bigDirBitmap.weight 64
  tables : sb.bigDirNum.toNat = Bitmap.weight (fun p => (sb.bigDirHashtbl p).isSome) 64

/-- What `resize_dir` promises: a position that no directory has, or -1 and no change; the latter
exactly when every position is in use. -/
structure ResizeContract (s : BigRun) : Prop where
  answer : resizeDir s.sb = some (-1, s.sb) ∨
    ∃ (p : ℕ) (sb : SbInfo), p < 64 ∧ (∀ d, s.pos d ≠ some p) ∧ resizeDir s.sb = some ((p : ℤ), sb)
  fails_iff : resizeDir s.sb = some (-1, s.sb) ↔ ∀ p < 64, s.sb.bigDirBitmap p = true

/-- No `resize_dir` is called while every position is in use. -/
def FindsFreePosition (s : BigRun) : BigOp → Prop
  | .resize _ => HasFreePosition s.sb
  | _ => True

instance (s : BigRun) : (op : BigOp) → Decidable (FindsFreePosition s op)
  | .resize _ => inferInstanceAs (Decidable (HasFreePosition s.sb))
  | .mkdir .. | .remove .. => .isTrue trivial

/-- Counter, bitmap and array in step, within the 64 positions; and positions of directories are
in use, each by one of them. -/
structure BigRun.Inv (s : BigRun) : Prop where
  num : s.sb.bigDirNum.toNat = s.sb.bigDirBitmap.weight 64
  table : ∀ p, s.sb.bigDirBitmap p = (s.sb.bigDirHashtbl p).isSome
  lt : ∀ p, s.sb.bigDirBitmap p = true → p < 64
  used : ∀ d p, s.pos d = some p → s.sb.bigDirBitmap p = true
  inj : ∀ d d' p, s.pos d = some p → s.pos d' = some p → d = d'

namespace BigRun

variable {s : BigRun}

theorem inv_mounted (mem : ℕ → ℕ → UInt8) (heap : ℕ → DirListEntry) :
    Inv ⟨fillSuper mem heap, fun _ => none⟩ where
  num := (Bitmap.weight_zero 64).symm
  table _ := rfl
  lt p hp := by simp [fillSuper] at hp
  used d p hp := by simp at hp
  inj d d' p hp := by simp at hp

theorem Inv.counted (hi : s.Inv) : BigDirsCounted s.sb := by
  refine ⟨hi.num, hi.num.trans ?_⟩
  apply Bitmap.weight_congr
  exact fun p _ => hi.table p

theorem Inv.frame (hi : s.Inv) {sb : SbInfo} (hnum : sb.bigDirNum = s.sb.bigDirNum)
    (hbm : sb.bigDirBitmap = s.sb.bigDirBitmap) (htab : sb.bigDirHashtbl = s.sb.bigDirHashtbl) :
    Inv ⟨sb, s.pos⟩ where
  num := by rw [hnum, hbm, hi.num]
  table p := by rw [hbm, htab, hi.table]
  lt p hp := hi.lt p (hbm ▸ hp)
  used d p hp := by rw [hbm]; exact hi.used d p hp
  inj := hi.inj

theorem Inv.forget (hi : s.Inv) (d : ℕ) : Inv ⟨s.sb, Function.update s.pos d none⟩ := by
  have hpos : ∀ e p, Function.update s.pos d none e = some p → s.pos e = some p := by
    intro e p he
    rw [Function.update_apply] at he
    split_ifs at he
    exact he
  exact ⟨hi.num, hi.table, hi.lt, fun e p he => hi.used e p (hpos e p he),
    fun e e' p he he' => hi.inj e e' p (hpos e p he) (hpos e' p he')⟩

theorem Inv.promote (hi : s.Inv) {d p : ℕ} (hd : s.pos d = none) (hlt : p < 64)
    (hp : s.sb.bigDirBitmap p = false) :
    Inv ⟨promotedSb s.sb p initBigFileHt, Function.update s.pos d (some p)⟩ := by
  have hset := Bitmap.weight_set s.sb.bigDirBitmap hlt hp
  have hw := Bitmap.weight_le (s.sb.bigDirBitmap.set p) 64
  have hnum := hi.num
  have hpos : ∀ e q, Function.update s.pos d (some p) e = some q →
      e = d ∧ q = p ∨ s.pos e = some q ∧ q ≠ p := by
    intro e q he
    rw [Function.update_apply] at he
    split_ifs at he with hed
    · exact .inl ⟨hed, (Option.some.inj he).symm⟩
    · refine .inr ⟨he, ?_⟩
      rintro rfl
      rw [hi.used e q he] at hp
      cases hp
  constructor
  case num =>
    change (s.sb.bigDirNum + 1#8).toNat = (s.sb.bigDirBitmap.set p).weight 64
    rw [BitVec.toNat_add, BitVec.toNat_ofNat]
    omega
  case table =>
    intro q
    by_cases hq : q = p
    · simp [promotedSb, hq]
    · simp [promotedSb, hq, Bitmap.set_of_ne, hi.table]
  case lt =>
    intro q hq
    rcases (Bitmap.set_iff _ _ _).mp hq with rfl | hq
    · exact hlt
    · exact hi.lt q hq
  case used =>
    intro e q he
    apply (Bitmap.set_iff _ _ _).mpr
    rcases hpos e q he with ⟨-, hq⟩ | ⟨he, -⟩
    · exact .inl hq
    · exact .inr (hi.used e q he)
  case inj =>
    intro e e' q he he'
    rcases hpos e q he with ⟨rfl, hq⟩ | ⟨he, hq⟩
    · rcases hpos e' q he' with ⟨rfl, -⟩ | ⟨-, hq'⟩
      · rfl
      · exact absurd hq hq'
    · rcases hpos e' q he' with ⟨-, hq'⟩ | ⟨he', -⟩
      · exact absurd hq' hq
      · exact hi.inj e e' q he he'

end BigRun

/-- What `remove_dir` does to the big tables: nothing, or it gives up the position it was given. -/
theorem removeDir_big (sb : SbInfo) (parentIno dirIno : BitVec 64) (bigDirId : ℤ) :
    let sb' := removeDir sb parentIno dirIno bigDirId
    (sb'.bigDirNum = sb.bigDirNum ∧ sb'.bigDirBitmap = sb.bigDirBitmap ∧
        sb'.bigDirHashtbl = sb.bigDirHashtbl) ∨
      (0 ≤ bigDirId ∧ (sb.bigDirHashtbl bigDirId.toNat).isSome ∧
        sb'.bigDirNum = sb.bigDirNum - 1#8 ∧
        sb'.bigDirBitmap = sb.bigDirBitmap.clear bigDirId.toNat ∧
        sb'.bigDirHashtbl = Function.update sb.bigDirHashtbl bigDirId.toNat none) := by
  intro sb'
  cases hfind : findEntry sb.dtree (sb.dtree.de (inodeToDirId dirIno).toNat).dirId
      (sb.dtree.de (inodeToDirId parentIno).toNat).head 0
      (sb.dtree.de (inodeToDirId parentIno).toNat).dirSize with
  | none =>
    have hsb : sb' = sb := by simp only [sb', removeDir, hfind]
    rw [hsb]
    exact .inl ⟨rfl, rfl, rfl⟩
  | some r =>
    simp only [sb', removeDir, hfind]
    split_ifs with hbig
    · exact .inr ⟨hbig.1, hbig.2, rfl, rfl, rfl⟩
    · exact .inl ⟨rfl, rfl, rfl⟩

namespace BigRun

variable {s : BigRun}

theorem Inv.remove (hi : s.Inv) (parentIno dirIno : BitVec 64) (d : ℕ) :
    Inv ⟨removeDir s.sb parentIno dirIno (s.bigDirId d), Function.update s.pos d none⟩ := by
  rcases removeDir_big s.sb parentIno dirIno (s.bigDirId d) with
    ⟨hnum, hbm, htab⟩ | ⟨h0, hsome, hnum, hbm, htab⟩
  · exact (hi.frame hnum hbm htab).forget d
  · -- only a promoted directory has a position to give up
    obtain ⟨p, hp⟩ : ∃ p, s.pos d = some p := by
      apply Option.ne_none_iff_exists'.mp
      intro hnone
      simp [bigDirId, hnone] at h0
    have hid : (s.bigDirId d).toNat = p := by simp [bigDirId, hp]
    rw [hid] at hbm htab
    have hset := hi.used d p hp
    have hclear := Bitmap.weight_clear s.sb.bigDirBitmap (hi.lt p hset) hset
    have hw := Bitmap.weight_le s.sb.bigDirBitmap 64
    have hold := hi.num
    have hpos : ∀ e q, Function.update s.pos d none e = some q → e ≠ d ∧ s.pos e = some q := by
      intro e q he
      rw [Function.update_apply] at he
      split_ifs at he with hed
      exact ⟨hed, he⟩
    constructor
    case num =>
      rw [hnum, hbm, BitVec.toNat_sub, BitVec.toNat_ofNat]
      omega
    case table =>
      intro q
      rw [hbm, htab]
      by_cases hq : q = p
      · simp [hq]
      · simp [hq, Bitmap.clear_of_ne, hi.table]
    case lt =>
      intro q hq
      rw [hbm, Bitmap.clear_iff] at hq
      exact hi.lt q hq.2
    case used =>
      intro e q he
      obtain ⟨hne, he⟩ := hpos e q he
      rw [hbm, Bitmap.clear_iff]
      refine ⟨?_, hi.used e q he⟩
      rintro rfl
      exact hne (hi.inj e d q he hp)
    case inj =>
      exact fun e e' q he he' => hi.inj e e' q (hpos e q he).2 (hpos e' q he').2

/-- With a position left `resize_dir` answers with the first one. -/
theorem Inv.resizeDir_free (hi : s.Inv) (hfree : HasFreePosition s.sb) :
    ∃ p < 64, s.sb.bigDirBitmap p = false ∧
      resizeDir s.sb = some ((p : ℤ), promotedSb s.sb p initBigFileHt) := by
  have hw := Bitmap.weight_le s.sb.bigDirBitmap 64
  have hnum := hi.num
  obtain ⟨q, hq, hclear⟩ := hfree
  have hle : s.sb.bigDirBitmap.firstZero (2 ^ 14) ≤ q := by
    by_contra hlt
    rw [Bitmap.set_of_lt_firstZero (not_le.mp hlt)] at hclear
    cases hclear
  refine ⟨s.sb.bigDirBitmap.firstZero (2 ^ 14), by omega, Bitmap.firstZero_clear (by omega), ?_⟩
  rw [resizeDir_eq, if_neg (by omega), if_pos (by omega)]

theorem Inv.num_full (hi : s.Inv) (hfull : ¬ HasFreePosition s.sb) :
    s.sb.bigDirNum.toNat = 64 := by
  rw [hi.num]
  apply Nat.count_of_forall
  intro p hp
  by_contra hclear
  exact hfull ⟨p, hp, by simpa using hclear⟩

/-- With every position in use `resize_dir` passes its guard, finds the first bit behind the
bitmap and writes there. -/
theorem Inv.resizeDir_full (hi : s.Inv) (hfull : ¬ HasFreePosition s.sb) :
    resizeDir s.sb = none := FlatFS.resizeDir_full (hi.num_full hfull).le hfull

theorem Inv.countsPositions (hi : s.Inv) : CountsPositions s.sb :=
  fun hfull => (hi.num_full hfull).ge

/-- What the write behind the array leaves: a table at position 64, its address in the bitmap, and a
counter with which the guard refuses. -/
theorem Inv.resizeDirMem_full (hi : s.Inv) (hfull : ¬ HasFreePosition s.sb) (addr : BitVec 64) :
    ∃ sb', resizeDirMem addr s.sb = some (64, sb') ∧ PromotedAt s.sb sb' 64 ∧
      sb'.bigDirBitmap = addr.getLsbD ∧ resizeDir sb' = some (-1, sb') := by
  rw [resizeDirMem, hi.resizeDir_full hfull, Option.none_or,
    resizeDirBehind_eq addr hfull (hi.num_full hfull)]
  refine ⟨_, rfl, ⟨rfl, rfl, ?_⟩, rfl, ?_⟩
  · simp
  · rw [resizeDir_eq]
    exact if_pos (show 64 < (66#8).toNat by decide)

theorem Inv.resizeContract_iff (hi : s.Inv) : ResizeContract s ↔ HasFreePosition s.sb := by
  constructor
  · intro hc
    by_contra hfull
    have hnone := hi.resizeDir_full hfull
    rcases hc.answer with he | ⟨p, sb, -, -, he⟩ <;> rw [hnone] at he <;> cases he
  · intro hfree
    obtain ⟨p, hlt, hclear, he⟩ := hi.resizeDir_free hfree
    refine ⟨.inr ⟨p, _, hlt, fun d hd => ?_, he⟩, ?_⟩
    · rw [hi.used d p hd] at hclear
      cases hclear
    · refine iff_of_false (fun hfail => ?_) fun hall => ?_
      · rw [he, Option.some.injEq, Prod.mk.injEq] at hfail
        omega
      · rw [hall p hlt] at hclear
        cases hclear

theorem Inv.step (hi : s.Inv) {op : BigOp} {s' : BigRun} (hok : FindsFreePosition s op)
    (hstep : bigStep s op = some s') : s'.Inv := by
  cases op with
  | mkdir dfi mem name dle =>
    cases hstep
    exact hi.frame rfl rfl rfl
  | resize d =>
    obtain ⟨hd, hres⟩ := Option.ite_none_right_eq_some.mp hstep
    obtain ⟨p, hlt, hclear, he⟩ := hi.resizeDir_free hok
    have hne : ¬ (p : ℤ) = -1 := by omega
    rw [he, Option.map_some, if_neg hne, Int.toNat_natCast] at hres
    cases hres
    exact hi.promote hd hlt hclear
  | remove parent d =>
    cases hstep
    exact hi.remove _ _ d

end BigRun

/-- While no `resize_dir` has been called with every position in use, the counter is exact, and
the next `resize_dir` meets its contract exactly when a position is left. -/
theorem bigDirs_run {mem : ℕ → ℕ → UInt8} {heap : ℕ → DirListEntry} {s : BigRun}
    (h : Reach bigStep FindsFreePosition ⟨fillSuper mem heap, fun _ => none⟩ s) :
    BigDirsCounted s.sb ∧ (ResizeContract s ↔ HasFreePosition s.sb) := by
  have hi : s.Inv := by
    apply h.invariant BigRun.Inv (BigRun.inv_mounted mem heap)
    exact fun _ _ _ hi hok hstep => hi.step hok hstep
  exact ⟨hi.counted, hi.resizeContract_iff⟩

def zeroBig : BigRun := ⟨fillSuper (fun _ _ => 0) (fun _ => ⟨0, 0, 0⟩), fun _ => none⟩

theorem bigDirs_run_remove : ∃ s,
    run bigStep FindsFreePosition zeroBig
      [.mkdir (rootInfo ⟨0, fun _ => 0⟩) ⟨0, fun _ => 0⟩ [97] 1, .resize 3, .remove 2 3,
        .resize 2] = some s ∧
    s.pos 2 = some 0 ∧ s.pos 3 = none ∧ BigDirsCounted s.sb ∧ ResizeContract s := by
  obtain ⟨s, hrun, h2, h3, hfree⟩ := exists_of_check
    (r := run bigStep FindsFreePosition zeroBig
      [.mkdir (rootInfo ⟨0, fun _ => 0⟩) ⟨0, fun _ => 0⟩ [97] 1, .resize 3, .remove 2 3, .resize 2])
    (p := fun s => s.pos 2 = some 0 ∧ s.pos 3 = none ∧ HasFreePosition s.sb) (by decide +kernel)
  obtain ⟨hc, hr⟩ := bigDirs_run (.of_run hrun)
  exact ⟨s, hrun, h2, h3, hc, hr.mpr hfree⟩

/-- After 64 promotions the next `resize_dir` neither refuses nor finds a position. -/
theorem resizeDir_past_end : ∃ s,
    run bigStep anyStep zeroBig ((List.range 64).map .resize) = some s ∧
    s.sb.bigDirNum.toNat = 64 ∧ ¬ HasFreePosition s.sb ∧ (resizeDir s.sb).isNone = true ∧
    ¬ ResizeContract s := by
  obtain ⟨s, hrun, hnum, hfull, hnone⟩ := exists_of_check
    (r := run bigStep anyStep zeroBig ((List.range 64).map .resize))
    (p := fun s => s.sb.bigDirNum.toNat = 64 ∧ ¬ HasFreePosition s.sb ∧
      (resizeDir s.sb).isNone = true) (by decide +kernel)
  refine ⟨s, hrun, hnum, hfull, hnone, fun hc => ?_⟩
  rcases hc.answer with he | ⟨p, sb, -, -, he⟩ <;> rw [he] at hnone <;> cases hnone

end FlatFS
