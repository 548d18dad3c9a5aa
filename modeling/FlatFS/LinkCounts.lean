import FlatFS.Objects

namespace FlatFS
open Lib Function

def enotempty : ℤ := 39

structure LinkWorld where
  w : World
  nlink : ℕ → ℤ

/-- `ffs_mkdir` in a superblock: the return value, the superblock, the link count of the parent,
and the number and info of the new inode. The branch of `ffs_mknod` for a directory has no error
return. -/
def ffsMkdir (sb : SbInfo) (dfi : FfsInodeInfo) (nlink : ℤ) (mem : FfsName) (name : CStr)
    (dle : ℕ) : ℤ × SbInfo × ℤ × BitVec 64 × FfsInodeInfo :=
  let r := ffsMknodDir sb dfi mem name dle
  let ret := 0
  (ret, r.1, if ret = 0 then nlink + 1 else nlink, r.2)

namespace LinkWorld

/-- `ffs_rmdir` of the directory `child`: the return value and the file system after it. For a
directory `ffs_unlink` only takes the inode out; the link counts go down in `ffs_unlink` and
twice in `ffs_rmdir`. -/
def ffsRmdir (s : LinkWorld) (child : ℕ) : Option (ℤ × LinkWorld) :=
  (s.w.cell child).dir.bind fun x => x.parent.bind fun parent =>
    (s.w.cell parent).dir.map fun dir =>
      if x.fi.iSize = 0 then
        let nlink := update s.nlink child (s.nlink child - 1 - 1)
        (0, ⟨{ s.w with sb := removeDir s.w.sb dir.ino x.ino x.fi.bigDirId }.setCell child .gone,
          update nlink parent (nlink parent - 1)⟩)
      else (-enotempty, s)

/-- The operations with their link counts: a new directory has two links and a new file one. -/
def step (s : LinkWorld) : FsOp → Option LinkWorld
  | .mkdir parent name mem dle =>
    (s.w.cell parent).dir.map fun dir =>
      let r := ffsMkdir s.w.sb dir.fi (s.nlink parent) mem name dle
      ⟨{ s.w with sb := r.2.1 }.add ⟨r.2.2.2.1, r.2.2.2.2, true, some parent⟩,
        update (update s.nlink parent r.2.2.1) s.w.count 2⟩
  | .create parent name mem =>
    (s.w.step (.create parent name mem)).map fun w => ⟨w, update s.nlink s.w.count 1⟩
  | .unlink f ioEnd submitted =>
    (s.w.step (.unlink f ioEnd submitted)).map fun w => ⟨w, update s.nlink f (s.nlink f - 1)⟩
  | .complete f => (s.w.step (.complete f)).map fun w => ⟨w, s.nlink⟩
  | .rmdir child => (s.ffsRmdir child).map (·.2)

def mounted (mem : ℕ → ℕ → UInt8) (heap : ℕ → DirListEntry) (rootMem : FfsName) : LinkWorld :=
  ⟨World.mounted mem heap rootMem, update (fun _ => 0) 0 2⟩

/-- `ffs_rmdir` refuses, and leaves the superblock and the link counts as they were. -/
def Refuses (s : LinkWorld) (child : ℕ) : Prop :=
  ∃ s', s.ffsRmdir child = some (-enotempty, s') ∧ s'.w.sb = s.w.sb ∧ s'.nlink = s.nlink

def HasContents (s : LinkWorld) (d : ℕ) : Prop :=
  ∃ i < s.w.count, ∃ x ∈ (s.w.cell i).object, x.parent = some d

instance (s : LinkWorld) (d : ℕ) : Decidable (s.HasContents d) :=
  inferInstanceAs (Decidable (∃ i < s.w.count, ∃ x ∈ (s.w.cell i).object, x.parent = some d))

end LinkWorld

namespace World

def ZeroSizes (w : World) : Prop := ∀ i x, (w.cell i).dir = some x → x.fi.iSize = 0

variable {w : World}

theorem ZeroSizes.setCell (h : w.ZeroSizes) {i : ℕ} {c : Cell}
    (hc : ∀ x, c.dir = some x → x.fi.iSize = 0) : (w.setCell i c).ZeroSizes := by
  intro j x hx
  by_cases hj : j = i
  · rw [hj, setCell_self] at hx
    exact hc x hx
  · rw [setCell_of_ne w hj] at hx
    exact h j x hx

theorem ZeroSizes.add (h : w.ZeroSizes) {x : Object} (hx : x.isDir = true → x.fi.iSize = 0) :
    (w.add x).ZeroSizes := by
  refine h.setCell (i := w.count) (c := .live x) fun y hy => ?_
  obtain ⟨hxy, hdir⟩ := Option.filter_eq_some_iff.mp hy
  cases hxy
  exact hx hdir

theorem zeroSizes_mounted (mem : ℕ → ℕ → UInt8) (heap : ℕ → DirListEntry) (rootMem : FfsName) :
    (mounted mem heap rootMem).ZeroSizes := by
  refine ZeroSizes.add (fun i x hx => ?_) fun _ => rfl
  cases hx

theorem ZeroSizes.step {w' : World} {op : FsOp} (h : w.ZeroSizes) (hs : w.step op = some w') :
    w'.ZeroSizes := by
  cases op with
  | mkdir parent name mem dle =>
    obtain ⟨dir, -, hw⟩ := Option.map_eq_some_iff.mp hs
    rw [← hw]
    refine ZeroSizes.add h fun _ => rfl
  | create parent name mem =>
    obtain ⟨dir, hdir, hs⟩ := Option.bind_eq_some_iff.mp hs
    obtain ⟨r, hr, hw⟩ := Option.map_eq_some_iff.mp hs
    rw [← hw]
    have hset :
        ({ w with sb := r.sb }.setCell parent (.live { dir with fi := r.dfi })).ZeroSizes := by
      refine ZeroSizes.setCell (w := { w with sb := r.sb }) h fun x hx => ?_
      obtain ⟨hxy, -⟩ := Option.filter_eq_some_iff.mp hx
      cases hxy
      exact (mknodFile_result hr).1.trans (h parent dir hdir)
    cases hc : r.created with
    | none => exact hset
    | some c => exact hset.add fun hf => by cases hf
  | unlink f ioEnd submitted =>
    obtain ⟨x, -, hw⟩ := Option.map_eq_some_iff.mp hs
    rw [← hw]
    refine h.setCell fun y hy => ?_
    split_ifs at hy <;> cases hy
  | complete f =>
    simp only [World.step] at hs
    split at hs
    · split_ifs at hs
      cases hs
      refine ZeroSizes.setCell (w := { w with sb := _ }) h fun y hy => ?_
      cases hy
    · cases hs
  | rmdir child =>
    obtain ⟨x, -, hs⟩ := Option.bind_eq_some_iff.mp hs
    obtain ⟨parent, -, hs⟩ := Option.bind_eq_some_iff.mp hs
    obtain ⟨dir, -, hw⟩ := Option.map_eq_some_iff.mp hs
    rw [← hw]
    split_ifs
    · refine ZeroSizes.setCell (w := { w with sb := _ }) h fun y hy => ?_
      cases hy
    · exact h

end World

namespace LinkWorld

variable {s s' : LinkWorld}

/-- Without its link counts a step is one of the plain file system. -/
theorem step_w {op : FsOp} (h : s.step op = some s') : s.w.step op = some s'.w := by
  cases op with
  | mkdir parent name mem dle =>
    obtain ⟨dir, hdir, hs⟩ := Option.map_eq_some_iff.mp h
    rw [← hs]
    simp only [World.step, hdir, Option.map_some]
    rfl
  | create parent name mem =>
    obtain ⟨w, hw, hs⟩ := Option.map_eq_some_iff.mp h
    rw [hw, ← hs]
  | unlink f ioEnd submitted =>
    obtain ⟨w, hw, hs⟩ := Option.map_eq_some_iff.mp h
    rw [hw, ← hs]
  | complete f =>
    obtain ⟨w, hw, hs⟩ := Option.map_eq_some_iff.mp h
    rw [hw, ← hs]
  | rmdir child =>
    obtain ⟨r, hr, hs⟩ := Option.map_eq_some_iff.mp h
    obtain ⟨x, hx, hr⟩ := Option.bind_eq_some_iff.mp hr
    obtain ⟨parent, hparent, hr⟩ := Option.bind_eq_some_iff.mp hr
    obtain ⟨dir, hdir, hr⟩ := Option.map_eq_some_iff.mp hr
    rw [← hs, ← hr]
    simp only [World.step, hx, hparent, hdir, Option.bind_some, Option.map_some]
    split_ifs <;> rfl

theorem zeroSizes_run {mem : ℕ → ℕ → UInt8} {heap : ℕ → DirListEntry} {rootMem : FfsName}
    (h : Reach step anyStep (mounted mem heap rootMem) s) : s.w.ZeroSizes :=
  h.invariant (fun s => s.w.ZeroSizes) (World.zeroSizes_mounted mem heap rootMem)
    fun _ _ _ hz _ hs => hz.step (step_w hs)

/-- In no state of any run does `ffs_rmdir` refuse a directory, whatever is in it: the size it
looks at is 0 for all of them. It returns 0, the inode is gone, and its links are. -/
theorem rmdir_never_refuses {mem : ℕ → ℕ → UInt8} {heap : ℕ → DirListEntry} {rootMem : FfsName}
    (h : Reach step anyStep (mounted mem heap rootMem) s) {child parent : ℕ} {x dir : Object}
    (hx : (s.w.cell child).dir = some x) (hparent : x.parent = some parent)
    (hdir : (s.w.cell parent).dir = some dir) :
    ¬ s.Refuses child ∧ ∃ s', s.ffsRmdir child = some (0, s') ∧ s'.w.cell child = .gone ∧
      s'.nlink child ≠ s.nlink child := by
  have hsize := zeroSizes_run h child x hx
  have hr : s.ffsRmdir child = some (0,
      ⟨{ s.w with sb := removeDir s.w.sb dir.ino x.ino x.fi.bigDirId }.setCell child .gone,
        update (update s.nlink child (s.nlink child - 1 - 1)) parent
          (update s.nlink child (s.nlink child - 1 - 1) parent - 1)⟩) := by
    simp only [ffsRmdir, hx, hparent, hdir, Option.bind_some, Option.map_some, hsize, if_true]
  refine ⟨?_, _, hr, World.setCell_self _ _ _, ?_⟩
  · rintro ⟨s', hs', -⟩
    rw [hr, Option.some.injEq, Prod.mk.injEq] at hs'
    exact absurd hs'.1 (by decide)
  · dsimp only
    by_cases hp : child = parent
    · rw [hp, update_self, update_self]
      omega
    · rw [update_of_ne hp, update_self]
      omega

def fresh : LinkWorld := mounted (fun _ _ => 0) (fun _ => ⟨0, 0, 0⟩) ⟨0, fun _ => 0⟩

theorem rmdir_never_refuses_one_file : ∃ s : LinkWorld,
    run step anyStep fresh [.mkdir 0 [97] ⟨0, fun _ => 0⟩ 1,
      .create 1 [102, 49] ⟨0, fun _ => 0⟩] = some s ∧ s.HasContents 1 ∧ ¬ s.Refuses 1 := by
  obtain ⟨s, hrun, hcont, hx, hdir⟩ := exists_of_check
    (r := run step anyStep fresh [.mkdir 0 [97] ⟨0, fun _ => 0⟩ 1,
      .create 1 [102, 49] ⟨0, fun _ => 0⟩])
    (p := fun s => s.HasContents 1 ∧
      (s.w.cell 1).dir.any (fun x => decide (x.parent = some 0)) = true ∧
      (s.w.cell 0).dir.isSome = true) (by decide +kernel)
  obtain ⟨x, hx, hparent⟩ := exists_of_check hx
  obtain ⟨dir, hdir⟩ := Option.isSome_iff_exists.mp hdir
  exact ⟨s, hrun, hcont, (rmdir_never_refuses (.of_run hrun) hx hparent hdir).1⟩

/-- The directory `a` with the live file `f1` and the live subdirectory `b` is removed: its id is
given back and its table freed. -/
theorem rmdir_frees_contents : ∃ s s' : LinkWorld,
    run step anyStep fresh [.mkdir 0 [97] ⟨0, fun _ => 0⟩ 1,
      .create 1 [102, 49] ⟨0, fun _ => 0⟩, .mkdir 1 [98] ⟨0, fun _ => 0⟩ 2] = some s ∧
    s.HasContents 1 ∧ s.ffsRmdir 1 = some (0, s') ∧ s.w.sb.dtree.dirIdBitmap 3 = true ∧
    s'.w.sb.dtree.dirIdBitmap 3 = false ∧ s'.w.sb.hashtbl 3 = none ∧ s'.HasContents 1 ∧
    ¬ s.Refuses 1 := by
  obtain ⟨s, hrun, hcont, hbit, hr⟩ := exists_of_check
    (r := run step anyStep fresh [.mkdir 0 [97] ⟨0, fun _ => 0⟩ 1,
      .create 1 [102, 49] ⟨0, fun _ => 0⟩, .mkdir 1 [98] ⟨0, fun _ => 0⟩ 2])
    (p := fun s => s.HasContents 1 ∧ s.w.sb.dtree.dirIdBitmap 3 = true ∧
      (s.ffsRmdir 1).any (fun r => decide (r.1 = 0 ∧ r.2.w.sb.dtree.dirIdBitmap 3 = false ∧
        (r.2.w.sb.hashtbl 3).isNone = true ∧ r.2.HasContents 1)) = true) (by decide +kernel)
  obtain ⟨⟨ret, s'⟩, hrm, hret, hbit', htab, hcont'⟩ := exists_of_check hr
  dsimp only at hret hbit' htab hcont'
  subst hret
  refine ⟨s, s', hrun, hcont, hrm, hbit, hbit', Option.isNone_iff_eq_none.mp htab, hcont', ?_⟩
  rintro ⟨s'', hs'', -⟩
  rw [hrm, Option.some.injEq, Prod.mk.injEq] at hs''
  exact absurd hs''.1 (by decide)

end LinkWorld

/-- `ffs_mkdir` reports an error, and leaves the lists and sizes of all directories, the counter,
the tables and the link count of the parent as they were. -/
structure MkdirRefuses (sb : SbInfo) (dfi : FfsInodeInfo) (nlink : ℤ) (mem : FfsName) (name : CStr)
    (dle : ℕ) : Prop where
  ret : (ffsMkdir sb dfi nlink mem name dle).1 ≠ 0
  lists : ∀ d, (ffsMkdir sb dfi nlink mem name dle).2.1.dtree.visited d = sb.dtree.visited d
  sizes : ∀ d, ((ffsMkdir sb dfi nlink mem name dle).2.1.dtree.de d).dirSize =
    (sb.dtree.de d).dirSize
  num : (ffsMkdir sb dfi nlink mem name dle).2.1.dtree.dirEntryNum = sb.dtree.dirEntryNum
  hashtbl : (ffsMkdir sb dfi nlink mem name dle).2.1.hashtbl = sb.hashtbl
  links : (ffsMkdir sb dfi nlink mem name dle).2.2.1 = nlink

/-- What `ffs_mkdir` does instead: it returns 0, lists the reserved entry 0 under the parent, gives
the id 0 a table and counts a link. -/
structure MkdirListsZero (sb : SbInfo) (dfi : FfsInodeInfo) (nlink : ℤ) (mem : FfsName)
    (name : CStr) (dle : ℕ) : Prop where
  ret : (ffsMkdir sb dfi nlink mem name dle).1 = 0
  size : ((ffsMkdir sb dfi nlink mem name dle).2.1.dtree.de dfi.dirId.toNat).dirSize =
    (sb.dtree.de dfi.dirId.toNat).dirSize + 1
  tail : ((ffsMkdir sb dfi nlink mem name dle).2.1.dtree.de dfi.dirId.toNat).tail = dle
  node : ((ffsMkdir sb dfi nlink mem name dle).2.1.dtree.node dle).de = 0
  num : (ffsMkdir sb dfi nlink mem name dle).2.1.dtree.dirEntryNum = sb.dtree.dirEntryNum
  hashtbl : (ffsMkdir sb dfi nlink mem name dle).2.1.hashtbl = update sb.hashtbl 0 (some initFileHt)
  links : (ffsMkdir sb dfi nlink mem name dle).2.2.1 = nlink + 1

theorem fillOneDirEntry_full {t : DirTree} (hfull : ∀ i < 2 ^ 14, t.dirIdBitmap i = true)
    (name : CStr) : fillOneDirEntry t name = (0, t) := by
  have hz : t.dirIdBitmap.firstZero (1 <<< maxDirBits) = 1 <<< maxDirBits :=
    Bitmap.firstZero_eq_size_iff.mpr hfull
  simp only [fillOneDirEntry, getUnusedDirId, hz, if_true]

theorem insertDir_size_tail (t : DirTree) (parent n dle : ℕ) :
    ((insertDir t parent n dle).de parent).dirSize = (t.de parent).dirSize + 1 ∧
      ((insertDir t parent n dle).de parent).tail = dle ∧
      ((insertDir t parent n dle).node dle).de = n ∧
      (insertDir t parent n dle).dirEntryNum = t.dirEntryNum := by
  unfold insertDir
  dsimp only
  split_ifs with hz
  · simp [DirTree.modifyDe]
  · by_cases ht : dle = (t.de parent).tail
    · simp [DirTree.modifyDe, DirTree.modifyNode, ← ht]
    · simp [DirTree.modifyDe, DirTree.modifyNode, update_of_ne ht]

section

variable {sb : SbInfo} (hfull : ∀ i < 2 ^ 14, sb.dtree.dirIdBitmap i = true) (dfi : FfsInodeInfo)
  (nlink : ℤ) (mem : FfsName) (name : CStr) (dle : ℕ)

include hfull

theorem mkdir_listsZero : MkdirListsZero sb dfi nlink mem name dle := by
  have hfill := fillOneDirEntry_full hfull name
  obtain ⟨hsize, htail, hnode, hnum⟩ := insertDir_size_tail sb.dtree dfi.dirId.toNat 0 dle
  constructor
  case ret => rfl
  case links => rfl
  all_goals simp only [ffsMkdir, ffsMknodDir, hfill]
  case size => exact hsize
  case tail => exact htail
  case node => exact hnode
  case num => exact hnum

/-- When every id is taken, `ffs_mkdir` never refuses, in no state, under no parent and for no
name. -/
theorem mkdir_never_refuses :
    ¬ MkdirRefuses sb dfi nlink mem name dle ∧ MkdirListsZero sb dfi nlink mem name dle := by
  have h := mkdir_listsZero hfull dfi nlink mem name dle
  exact ⟨fun hr => hr.ret h.ret, h⟩

end

theorem mkdir_never_refuses_root :
    let sb := { fillSuper (fun _ _ => 0) fun _ => ⟨0, 0, 0⟩ with
      dtree := { (fillSuper (fun _ _ => 0) fun _ => ⟨0, 0, 0⟩).dtree with
        dirIdBitmap := fun _ => true } }
    ¬ MkdirRefuses sb (rootInfo ⟨0, fun _ => 0⟩) 2 ⟨0, fun _ => 0⟩ [97] 1 := by
  intro sb
  have hfull : ∀ i < 2 ^ 14, sb.dtree.dirIdBitmap i = true := fun _ _ => rfl
  exact (mkdir_never_refuses hfull _ _ _ _ _).1

namespace LinkWorld

def letters (i : ℕ) : CStr :=
  [UInt8.ofNat (97 + i / 676), UInt8.ofNat (97 + i / 26 % 26), UInt8.ofNat (97 + i % 26)]

def mkdirs (n : ℕ) : List FsOp :=
  (List.range n).map fun i => .mkdir 0 (letters i) ⟨0, fun _ => 0⟩ (i + 1)

theorem run_mkdirs {n : ℕ} (hn : n + 3 ≤ 2 ^ 14) :
    ∃ s dir, run step anyStep fresh (mkdirs n) = some s ∧
    (s.w.cell 0).dir = some dir ∧ s.w.count = n + 1 ∧
    ∀ i, s.w.sb.dtree.dirIdBitmap i = true ↔ i < n + 3 := by
  induction n with
  | zero =>
    refine ⟨fresh, _, rfl, rfl, rfl, fun i => ?_⟩
    change (((Bitmap.zero.set 0).set 1).set 2) i = true ↔ _
    simp only [Bitmap.set_iff, Bitmap.zero_apply, Bool.false_eq_true, or_false]
    omega
  | succ n ih =>
    obtain ⟨s, dir, hrun, hdir, hcount, hbits⟩ := ih (by omega)
    have hid : (getUnusedDirId s.w.sb.dtree.dirIdBitmap).1 = n + 3 := by
      have hz : s.w.sb.dtree.dirIdBitmap.firstZero (1 <<< maxDirBits) = n + 3 := by
        apply Bitmap.firstZero_eq (show n + 3 < 2 ^ 14 by omega)
        · exact fun j hj => (hbits j).mpr hj
        · exact Bool.eq_false_iff.mpr fun ht => absurd ((hbits _).mp ht) (by omega)
      have hne : n + 3 ≠ 1 <<< maxDirBits := show n + 3 ≠ 2 ^ 14 by omega
      simp only [getUnusedDirId, hz, if_neg hne]
    rw [mkdirs, List.range_succ, List.map_append, run_append]
    change ∃ s' dir', (run step anyStep fresh (mkdirs n)).bind _ = some s' ∧ _
    rw [hrun, Option.bind_some]
    simp only [List.map_cons, List.map_nil, run, anyStep, if_true, step, hdir, Option.map_some,
      Option.bind_some]
    refine ⟨_, dir, rfl, ?_, ?_, fun i => ?_⟩
    · -- the new cell is not that of the root
      change ((World.setCell _ s.w.count _).cell 0).dir = _
      rw [World.setCell_of_ne _ (by omega)]
      exact hdir
    · change s.w.count + 1 = _
      rw [hcount]
    · change (ffsMknodDir s.w.sb dir.fi ⟨0, fun _ => 0⟩ (letters n)
        (n + 1)).1.dtree.dirIdBitmap i = true ↔ _
      rw [(ffsMknodDir_frame dir.fi _ _ _ hid (by omega)).1, Bitmap.set_iff, hbits]
      omega

/-- After `2 ^ 14 - 3` directories in the root no id is left, and the `mkdir` of one more reports
success. -/
theorem mkdir_past_last_id : ∃ s dir, run step anyStep fresh (mkdirs (2 ^ 14 - 3)) = some s ∧
    (s.w.cell 0).dir = some dir ∧ (∀ i < 2 ^ 14, s.w.sb.dtree.dirIdBitmap i = true) ∧
    (ffsMkdir s.w.sb dir.fi (s.nlink 0) ⟨0, fun _ => 0⟩ [122] (2 ^ 14)).1 = 0 ∧
    ¬ MkdirRefuses s.w.sb dir.fi (s.nlink 0) ⟨0, fun _ => 0⟩ [122] (2 ^ 14) := by
  obtain ⟨s, dir, hrun, hdir, -, hbits⟩ := run_mkdirs (n := 2 ^ 14 - 3) (by norm_num)
  have hfull : ∀ i < 2 ^ 14, s.w.sb.dtree.dirIdBitmap i = true := fun i hi =>
    (hbits i).mpr (by omega)
  have h := mkdir_listsZero hfull dir.fi (s.nlink 0) ⟨0, fun _ => 0⟩ [122] (2 ^ 14)
  exact ⟨s, dir, hrun, hdir, hfull, h.ret, fun hr => hr.ret h.ret⟩

end LinkWorld

end FlatFS
