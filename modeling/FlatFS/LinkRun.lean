import FlatFS.LinkCounts
import FlatFS.Lib.Owners
import FlatFS.ObjectRun

namespace FlatFS
open Lib Function

def Cell.links : Cell → ℤ
  | .live x => if x.isDir then 2 else 1
  | _ => 0

def World.parents (w : World) : ℕ → Option ℕ := fun j => (w.cell j).dir.bind Object.parent

namespace LinkWorld

/-- Every object has its own links and one for each live directory under it. -/
structure LinkInv (s : LinkWorld) : Prop where
  fresh : ∀ i, s.w.count ≤ i → s.w.cell i = .gone
  older : ∀ i p, s.w.parents i = some p → p < i
  links : ∀ i < s.w.count,
    s.nlink i = (s.w.cell i).links + ({j | s.w.parents j = some i}.ncard : ℤ)

variable {s s' : LinkWorld} {w : World} {i p : ℕ} {x dir : Object}

theorem parents_setCell (w : World) (i : ℕ) (c : Cell) (sb : SbInfo) :
    ({ w with sb := sb }.setCell i c).parents = update w.parents i (c.dir.bind Object.parent) := by
  funext j
  by_cases hj : j = i
  · rw [hj, update_self, World.parents, World.setCell_self]
  · rw [update_of_ne hj, World.parents, World.setCell_of_ne _ hj, World.parents]

theorem links_dir {c : Cell} (h : c.dir = some x) : c.links = 2 := by
  obtain ⟨rfl, hd⟩ := World.object_of_dir h
  exact if_pos hd

theorem parents_of_dir (h : (w.cell i).dir = some x) : w.parents i = x.parent := by
  rw [World.parents, h]
  rfl

theorem LinkInv.fresh_parents (hi : LinkInv s) (j : ℕ) (hj : s.w.count ≤ j) :
    s.w.parents j = none := by
  rw [World.parents, hi.fresh j hj]
  rfl

theorem LinkInv.lt_count (hi : LinkInv s) (hx : (s.w.cell i).dir = some x) : i < s.w.count := by
  by_contra hge
  rw [hi.fresh i (not_lt.mp hge)] at hx
  cases hx

theorem LinkInv.setCell (hi : LinkInv s) (hlt : i < s.w.count) {c : Cell} {sb : SbInfo}
    (hp : c.dir.bind Object.parent = s.w.parents i) {nlink : ℕ → ℤ}
    (hself : nlink i = s.nlink i + c.links - (s.w.cell i).links)
    (hold : ∀ j ≠ i, nlink j = s.nlink j) :
    LinkInv ⟨{ s.w with sb := sb }.setCell i c, nlink⟩ := by
  have hparents : ({ s.w with sb := sb }.setCell i c).parents = s.w.parents := by
    rw [parents_setCell, hp, update_eq_self]
  constructor
  case fresh =>
    intro j hj
    have hne : j ≠ i := (lt_of_lt_of_le hlt hj).ne'
    exact (World.setCell_of_ne _ hne c).trans (hi.fresh j hj)
  case older =>
    rw [hparents]
    exact hi.older
  case links =>
    intro j hj
    dsimp only
    rw [hparents]
    by_cases hji : j = i
    · rw [hji, World.setCell_self, hself, hi.links i hlt]
      ring
    · rw [hold j hji, World.setCell_of_ne _ hji]
      exact hi.links j hj

/-- A new object has its own links, and its parent one more if it is a directory. -/
theorem LinkInv.add (hi : LinkInv s) {sb : SbInfo} {nlink : ℕ → ℤ} {o : Option ℕ}
    (ho : (Cell.live x).dir.bind Object.parent = o) (hlt : ∀ p ∈ o, p < s.w.count)
    (hself : nlink s.w.count = (Cell.live x).links)
    (hold : ∀ j < s.w.count, nlink j = s.nlink j + if o = some j then 1 else 0) :
    LinkInv ⟨{ s.w with sb := sb }.add x, nlink⟩ := by
  have hparents : ({ s.w with sb := sb }.add x).parents = update s.w.parents s.w.count o :=
    (parents_setCell s.w s.w.count (.live x) sb).trans (by rw [ho])
  have holder : ∀ j p, update s.w.parents s.w.count o j = some p → p < j ∧ p < s.w.count := by
    intro j p hp
    rw [update_apply] at hp
    split_ifs at hp with hj
    · rw [hj]
      exact ⟨hlt p hp, hlt p hp⟩
    · have hpj := hi.older j p hp
      have hjc : j < s.w.count := by
        by_contra hge
        rw [hi.fresh_parents j (not_lt.mp hge)] at hp
        cases hp
      exact ⟨hpj, hpj.trans hjc⟩
  constructor
  case fresh =>
    intro j hj
    have hj : s.w.count + 1 ≤ j := hj
    exact (World.setCell_of_ne _ (by omega : j ≠ s.w.count) _).trans (hi.fresh j (by omega))
  case older =>
    rw [hparents]
    exact fun j p hp => (holder j p hp).1
  case links =>
    intro j hj
    have hj : j < s.w.count + 1 := hj
    dsimp only
    rw [hparents]
    by_cases hjc : j = s.w.count
    · -- no directory has the new object for its parent
      have hnone : {k | update s.w.parents s.w.count o k = some j} = ∅ := by
        apply Set.eq_empty_of_forall_notMem
        intro k hk
        have hkc := (holder k j hk).2
        omega
      rw [hnone, Set.ncard_empty, hjc, hself, World.add]
      dsimp only
      rw [World.setCell_self, Nat.cast_zero, add_zero]
    · have hcell : ({ s.w with sb := sb }.add x).cell j = s.w.cell j :=
        World.setCell_of_ne _ hjc _
      have hjlt : j < s.w.count := by omega
      rw [hcell, hold j hjlt, hi.links j hjlt]
      cases o with
      | none =>
        rw [if_neg (Option.some_ne_none j).symm, add_zero, ← hi.fresh_parents s.w.count le_rfl,
          update_eq_self]
      | some p =>
        have hcount := ncard_assign (p := p) (k := j) hi.fresh_parents
          (hi.fresh_parents s.w.count le_rfl)
        rw [hcount]
        simp only [Option.some_inj, eq_comm (a := j)]
        push_cast
        ring

/-- The links of a removed directory and the one of its parent for it go. -/
theorem LinkInv.remove (hi : LinkInv s) (hx : (s.w.cell i).dir = some x)
    (hp : x.parent = some p) (sb : SbInfo) :
    LinkInv ⟨{ s.w with sb := sb }.setCell i .gone,
      let nlink := update s.nlink i (s.nlink i - 1 - 1)
      update nlink p (nlink p - 1)⟩ := by
  have hpi : s.w.parents i = some p := (parents_of_dir hx).trans hp
  have hlt := hi.lt_count hx
  have hold := hi.older i p hpi
  have hparents : ({ s.w with sb := sb }.setCell i .gone).parents =
      update s.w.parents i none := parents_setCell s.w i .gone sb
  constructor
  case fresh =>
    intro j hj
    have hj : s.w.count ≤ j := hj
    exact (World.setCell_of_ne _ (by omega : j ≠ i) _).trans (hi.fresh j hj)
  case older =>
    intro j q hq
    rw [hparents, update_apply] at hq
    split_ifs at hq
    exact hi.older j q hq
  case links =>
    intro j hj
    have hcount := ncard_unassign (k := j) hi.fresh_parents hpi
    have hlinks := hi.links j hj
    rw [hcount] at hlinks
    dsimp only
    rw [hparents]
    by_cases hjp : j = p
    · rw [hjp, update_self, update_of_ne hold.ne, World.setCell_of_ne _ hold.ne]
      rw [hjp, if_pos rfl, Nat.cast_add, Nat.cast_one] at hlinks
      rw [hlinks]
      ring
    · rw [update_of_ne hjp]
      rw [if_neg hjp] at hlinks
      by_cases hji : j = i
      · rw [hji, links_dir hx] at hlinks
        rw [hji, update_self, World.setCell_self, hlinks]
        change (2 : ℤ) + _ - 1 - 1 = 0 + _
        push_cast
        ring
      · rw [update_of_ne hji, World.setCell_of_ne _ hji]
        exact hlinks

end LinkWorld

namespace LinkWorld

variable {s s' : LinkWorld} {mem : FfsName} {name : CStr} {p : ℕ}

theorem LinkInv.mkdir (hi : LinkInv s) {dle : ℕ} (hs : s.step (.mkdir p name mem dle) = some s') :
    LinkInv s' := by
  obtain ⟨dir, hdir, rfl⟩ := Option.map_eq_some_iff.mp hs
  have hlt := hi.lt_count hdir
  apply hi.add (o := some p)
  · rfl
  · intro q hq
    cases hq
    exact hlt
  · exact update_self ..
  · intro j hj
    rw [update_of_ne hj.ne, update_apply]
    by_cases hjp : j = p
    · rw [if_pos hjp, if_pos (congrArg some hjp.symm), hjp]
      rfl
    · rw [if_neg hjp, if_neg (fun he => hjp (Option.some.inj he).symm), add_zero]

theorem LinkInv.create (hi : LinkInv s) (hs : s.step (.create p name mem) = some s') :
    LinkInv s' := by
  obtain ⟨w, hw, rfl⟩ := Option.map_eq_some_iff.mp hs
  obtain ⟨dir, hdir, hw⟩ := Option.bind_eq_some_iff.mp hw
  obtain ⟨r, -, rfl⟩ := Option.map_eq_some_iff.mp hw
  have hnew := World.dir_withInfo hdir r.dfi
  -- the directory may be promoted
  have hset : LinkInv ⟨{ s.w with sb := r.sb }.setCell p (.live { dir with fi := r.dfi }),
      s.nlink⟩ := by
    apply hi.setCell (hi.lt_count hdir)
    · rw [hnew, parents_of_dir hdir]
      rfl
    · rw [links_dir hnew, links_dir hdir, add_sub_cancel_right]
    · exact fun j _ => rfl
  cases hc : r.created with
  | none =>
    refine ⟨hset.fresh, hset.older, fun j hj => ?_⟩
    have hne : j ≠ s.w.count := ne_of_lt hj
    exact (update_of_ne hne ..).trans (hset.links j hj)
  | some f =>
    apply hset.add (o := none)
    · rfl
    · exact fun q hq => by cases hq
    · exact update_self ..
    · intro j hj
      rw [if_neg (Option.some_ne_none j).symm, add_zero]
      exact update_of_ne hj.ne ..

theorem LinkInv.unlink (hi : LinkInv s) {f : ℕ} {ioEnd : FfsIoEnd} {submitted : Bool}
    (hs : s.step (.unlink f ioEnd submitted) = some s') : LinkInv s' := by
  obtain ⟨w, hw, rfl⟩ := Option.map_eq_some_iff.mp hs
  obtain ⟨x, hx, rfl⟩ := Option.map_eq_some_iff.mp hw
  obtain ⟨hcell, hf⟩ := World.object_of_file hx
  have hlt : f < s.w.count := by
    by_contra hge
    rw [hi.fresh f (not_lt.mp hge)] at hcell
    cases hcell
  have hnone : (s.w.cell f).dir = none :=
    Option.eq_none_iff_forall_ne_some.mpr (World.dir_ne_of_file hx)
  have hone : (s.w.cell f).links = 1 := by
    rw [hcell, Cell.links, if_neg (by rw [hf]; exact Bool.false_ne_true)]
  have hzero : (if submitted then Cell.discard (initHandlerForDiscard ioEnd x.fi)
      else .gone).links = 0 := by
    split_ifs <;> rfl
  apply hi.setCell hlt
  · rw [World.parents, hnone]
    split_ifs <;> rfl
  · rw [update_self, hone, hzero, add_zero]
  · exact fun j hj => update_of_ne hj ..

theorem LinkInv.step (hi : LinkInv s) {op : FsOp} (hs : s.step op = some s') : LinkInv s' := by
  cases op with
  | mkdir parent name mem dle => exact hi.mkdir hs
  | create parent name mem => exact hi.create hs
  | unlink f ioEnd submitted => exact hi.unlink hs
  | complete f =>
    obtain ⟨w, hw, rfl⟩ := Option.map_eq_some_iff.mp hs
    obtain ⟨e, hcell, -, rfl⟩ := World.step_complete hw
    have hlt : f < s.w.count := by
      by_contra hge
      rw [hi.fresh f (not_lt.mp hge)] at hcell
      cases hcell
    apply hi.setCell hlt
    · rw [World.parents, hcell]
      rfl
    · rw [hcell]
      change s.nlink f = s.nlink f + 0 - 0
      ring
    · exact fun j _ => rfl
  | rmdir child =>
    obtain ⟨r, hr, rfl⟩ := Option.map_eq_some_iff.mp hs
    obtain ⟨x, hx, hr⟩ := Option.bind_eq_some_iff.mp hr
    obtain ⟨parent, hparent, hr⟩ := Option.bind_eq_some_iff.mp hr
    obtain ⟨dir, -, rfl⟩ := Option.map_eq_some_iff.mp hr
    split_ifs
    · exact hi.remove hx hparent _
    · exact hi

theorem linkInv_mounted (mem : ℕ → ℕ → UInt8) (heap : ℕ → DirListEntry) (rootMem : FfsName) :
    LinkInv (mounted mem heap rootMem) := by
  have hempty : LinkInv ⟨⟨fillSuper mem heap, 0, fun _ => .gone⟩, fun _ => 0⟩ := by
    refine ⟨fun i _ => rfl, fun i p hp => ?_, fun i hi => ?_⟩
    · cases hp
    · exact absurd hi (Nat.not_lt_zero i)
  apply hempty.add (o := none)
  · rfl
  · exact fun p hp => by cases hp
  · exact update_self ..
  · exact fun j hj => absurd hj (Nat.not_lt_zero j)

theorem linkInv_run {mem : ℕ → ℕ → UInt8} {heap : ℕ → DirListEntry} {rootMem : FfsName}
    (h : Reach step anyStep (mounted mem heap rootMem) s) : LinkInv s :=
  h.invariant LinkInv (linkInv_mounted mem heap rootMem) fun _ _ _ hi _ hs => hi.step hs

/-- In every state of every run, whatever is removed with whatever in it, an object has two links
as a live directory, one as a live file and none of its own when it is gone, and one more for each
live directory that was made in it. -/
theorem linkCounts_run {mem : ℕ → ℕ → UInt8} {heap : ℕ → DirListEntry} {rootMem : FfsName}
    (h : Reach step anyStep (mounted mem heap rootMem) s) {i : ℕ} (hi : i < s.w.count) :
    s.nlink i = (s.w.cell i).links +
      ({j | ∃ x, (s.w.cell j).dir = some x ∧ x.parent = some i}.ncard : ℤ) := by
  have hset : {j | ∃ x, (s.w.cell j).dir = some x ∧ x.parent = some i} =
      {j | s.w.parents j = some i} := by
    ext j
    exact Option.bind_eq_some_iff.symm
  rw [hset]
  exact (linkInv_run h).links i hi

/-- A directory that is removed with a subdirectory in it keeps the link of that. -/
theorem linkCounts_run_removed : ∃ s : LinkWorld, run step anyStep fresh
      [.mkdir 0 [97] ⟨0, fun _ => 0⟩ 1, .mkdir 1 [98] ⟨0, fun _ => 0⟩ 2, .rmdir 1] = some s ∧
    s.nlink 1 = 1 ∧ s.nlink 1 = (s.w.cell 1).links +
      ({j | ∃ x, (s.w.cell j).dir = some x ∧ x.parent = some 1}.ncard : ℤ) := by
  obtain ⟨s, hrun, hlt, hone⟩ := exists_of_check
    (r := run step anyStep fresh [.mkdir 0 [97] ⟨0, fun _ => 0⟩ 1,
      .mkdir 1 [98] ⟨0, fun _ => 0⟩ 2, .rmdir 1])
    (p := fun s => 1 < s.w.count ∧ s.nlink 1 = 1) (by decide +kernel)
  exact ⟨s, hrun, hone, linkCounts_run (.of_run hrun) hlt⟩

end LinkWorld

namespace LinkWorld

theorem step_lift {s : LinkWorld} {op : FsOp} {w : World} (h : s.w.step op = some w) :
    ∃ s', s.step op = some s' ∧ s'.w = w := by
  cases op with
  | mkdir parent name mem dle =>
    obtain ⟨dir, hdir, rfl⟩ := Option.map_eq_some_iff.mp h
    exact ⟨_, congrArg (Option.map _) hdir, rfl⟩
  | create parent name mem => exact ⟨_, congrArg (Option.map _) h, rfl⟩
  | unlink f ioEnd submitted => exact ⟨_, congrArg (Option.map _) h, rfl⟩
  | complete f => exact ⟨_, congrArg (Option.map _) h, rfl⟩
  | rmdir child =>
    obtain ⟨x, hx, h⟩ := Option.bind_eq_some_iff.mp h
    obtain ⟨parent, hparent, h⟩ := Option.bind_eq_some_iff.mp h
    obtain ⟨dir, hdir, rfl⟩ := Option.map_eq_some_iff.mp h
    simp only [step, ffsRmdir, hx, hparent, hdir, Option.bind_some, Option.map_some]
    refine ⟨_, rfl, ?_⟩
    split_ifs <;> rfl

end LinkWorld

section

variable {mem : ℕ → ℕ → UInt8} {heap : ℕ → DirListEntry} {rootMem : FfsName} {w : World}
  {ok : World → FsOp → Prop}

theorem links_of_run (h : Reach World.step ok (World.mounted mem heap rootMem) w) :
    ∃ s, Reach LinkWorld.step anyStep (LinkWorld.mounted mem heap rootMem) s ∧ s.w = w := by
  refine h.simulates (fun w (s : LinkWorld) => s.w = w) rfl ?_
  intro w s op w' he _ _ hstep
  obtain ⟨s', hs', he'⟩ := LinkWorld.step_lift (he ▸ hstep)
  exact .inr ⟨op, s', trivial, hs', he'⟩

theorem fresh_cell (h : Reach World.step ok (World.mounted mem heap rootMem) w) {i : ℕ}
    (hi : w.count ≤ i) : w.cell i = .gone := by
  obtain ⟨s, hs, rfl⟩ := links_of_run h
  exact (LinkWorld.linkInv_run hs).fresh i hi

theorem parent_lt (h : Reach World.step ok (World.mounted mem heap rootMem) w) {i p : ℕ}
    {x : Object} (hx : (w.cell i).dir = some x) (hp : x.parent = some p) : p < i := by
  obtain ⟨s, hs, rfl⟩ := links_of_run h
  exact (LinkWorld.linkInv_run hs).older i p ((LinkWorld.parents_of_dir hx).trans hp)

end

end FlatFS
