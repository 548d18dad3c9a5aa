import FlatFS.DirTables

namespace FlatFS
open Lib Function

namespace DirTree

variable {t : DirTree} {children nodes : ℕ → List ℕ}

theorem insertDir_allocated (t : DirTree) (parent n dle : ℕ) :
    (insertDir t parent n dle).allocated = update t.allocated dle true := by
  unfold insertDir
  dsimp only
  split_ifs <;> rfl

structure NoLostNode (t : DirTree) (children nodes : ℕ → List ℕ) : Prop
    extends Repr t children nodes where
  listed : ∀ p, t.allocated p = true → ∃ d, p ∈ nodes d

theorem NoLostNode.mkdir (h : t.NoLostNode children nodes) {u : DirTree} {parent n dle : ℕ}
    {name : CStr} (hm : Mkdir t u parent name n dle) :
    u.NoLostNode (update children parent (children parent ++ [n]))
      (update nodes parent (nodes parent ++ [dle])) := by
  refine ⟨(h.toRepr.mkdir hm).1, fun p hp => ?_⟩
  obtain ⟨rfl, hid, -, -, -, rfl⟩ := hm
  rw [insertDir_allocated, (h.toRepr.fill hid).2.1, update_apply] at hp
  split_ifs at hp with hpd
  · exact ⟨parent, mem_snoc.mpr (.inr ⟨rfl, hpd⟩)⟩
  · obtain ⟨d, hd⟩ := h.listed p hp
    exact ⟨d, mem_snoc.mpr (.inl hd)⟩

theorem NoLostNode.rmdir (h : t.NoLostNode children nodes) {parent child x : ℕ} {xs ys : List ℕ}
    (hnodes : nodes parent = xs ++ x :: ys) (hx : (t.node x).de = child)
    (hleaf : children child = []) (hlast : ys = [] → xs = []) :
    (clearEntry (unlinkEntry t parent child x xs.length) child).NoLostNode
      (update children parent ((children parent).erase child))
      (update nodes parent (xs ++ ys)) := by
  refine ⟨h.toRepr.remove hnodes hx hleaf hlast, fun p hp => ?_⟩
  have hlen := h.length_le parent
  rw [hnodes, List.length_append, List.length_cons] at hlen
  have hu : Unlinked t (unlinkEntry t parent child x xs.length) parent x xs.length :=
    unlinkEntry_unlinked (h.dirSize_of_nil hleaf) (by omega)
  rw [(clearEntry_frame _ child).2.1, hu.allocated, update_apply] at hp
  split_ifs at hp with hpx
  obtain ⟨d, hd⟩ := h.listed p hp
  refine ⟨d, ?_⟩
  by_cases hdp : d = parent
  · rw [hdp, hnodes, List.mem_append, List.mem_cons] at hd
    rw [hdp, update_self, List.mem_append]
    tauto
  · rwa [update_of_ne hdp]

theorem NoLostNode.owned (h : t.NoLostNode children nodes) :
    Owned (fun q : ℕ × ℕ => (t.visited q.1)[q.2]?) fun a => t.allocated a = true := by
  constructor
  case used_iff =>
    intro a
    constructor
    · intro ha
      obtain ⟨d, hd⟩ := h.listed a ha
      obtain ⟨n, hn⟩ := List.mem_iff_getElem?.mp hd
      exact ⟨(d, n), by rw [h.visited, hn]⟩
    · intro ⟨⟨d, n⟩, hn⟩
      rw [h.visited] at hn
      exact h.allocated d a (List.mem_of_getElem? hn)
  case inj =>
    intro ⟨d, n⟩ ⟨e, m⟩ a hn hm
    rw [h.visited] at hn hm
    by_cases hde : d = e
    · subst hde
      obtain ⟨hlt, -⟩ := List.getElem?_eq_some_iff.mp hn
      exact congrArg (Prod.mk d) ((List.getElem?_inj hlt (h.nodup d)).mp (hn.trans hm.symm))
    · exact absurd (List.mem_of_getElem? hm) (h.disjoint d e hde (List.mem_of_getElem? hn))

end DirTree

/-- No list node is lost in a run that keeps the lists right. -/
theorem nodes_run {mem : ℕ → ℕ → UInt8} {heap : ℕ → DirListEntry} {s : DirRun}
    (h : Reach dirStep KeepsTail ⟨fillSuper mem heap, fun _ => []⟩ s) :
    ∃ nodes, s.sb.dtree.NoLostNode s.children nodes := by
  apply h.invariant fun s => ∃ nodes, s.sb.dtree.NoLostNode s.children nodes
  · refine ⟨_, DirTree.repr_init mem heap, fun p hp => ?_⟩
    cases hp
  · intro s op s' ⟨nodes, hn⟩ hok hstep
    cases op with
    | mkdir parent dirName dle =>
      simp only [dirStep] at hstep
      split_ifs at hstep with hg
      cases hstep
      exact ⟨_, hn.mkdir ⟨rfl, hg.2.1, hg.1, hg.2.2.1, hg.2.2.2, rfl⟩⟩
    | rmdir parent child bigDirId =>
      simp only [dirStep] at hstep
      split_ifs at hstep with hg
      cases hstep
      obtain ⟨xs, x, ys, hnodes, hx, hdtree⟩ := removeDir_dtree bigDirId hn.toRepr hg.1
      have hkids : s.children parent = (xs ++ x :: ys).map fun p => (s.sb.dtree.node p).de := by
        rw [← hnodes, hn.kids]
      have hlast := (keepsTail_iff (hn.kids_nodup parent) hkids hx).mp hok
      exact ⟨_, hdtree ▸ hn.rmdir hnodes hx hg.2 hlast⟩

/-- What `remove_dir` does to the tree depends on the tree alone. -/
theorem removeDir_dtree_congr {sb sb' : SbInfo} (h : sb.dtree = sb'.dtree)
    (parentIno dirIno : BitVec 64) (bigDirId : ℤ) :
    (removeDir sb parentIno dirIno bigDirId).dtree =
      (removeDir sb' parentIno dirIno bigDirId).dtree := by
  rw [removeDir, removeDir, h]
  cases findEntry sb'.dtree (sb'.dtree.de (inodeToDirId dirIno).toNat).dirId
      (sb'.dtree.de (inodeToDirId parentIno).toNat).head 0
      (sb'.dtree.de (inodeToDirId parentIno).toNat).dirSize with
  | none => exact h
  | some r =>
    dsimp only
    split_ifs <;> rfl

namespace World

/-- The tree of the file system and its live directories are those of a state of the tree
operations. -/
structure TreeOf (w : World) (s : DirRun) : Prop where
  inv : DirsInv w
  tree : s.sb.dtree = w.sb.dtree
  children : s.children = w.subdirs

variable {w w' : World} {s : DirRun}

theorem TreeOf.stay (h : TreeOf w s) (hi : DirsInv w') (htree : w'.sb.dtree = w.sb.dtree)
    (hsub : w'.subdirs = w.subdirs) : TreeOf w' s :=
  ⟨hi, h.tree.trans htree.symm, h.children.trans hsub.symm⟩

theorem SameDirs.treeOf (hs : SameDirs w w') (h : TreeOf w s) : TreeOf w' s :=
  h.stay (hs.inv h.inv) hs.tables.dtree (hs.subdirs h.inv)

theorem TreeOf.create (h : TreeOf w s) {p : ℕ} {dir : Object} (hdir : (w.cell p).dir = some dir)
    {mem : FfsName} {name : CStr} {r : MknodResult}
    (hr : ffsMknodFile w.sb dir.fi mem name = some r) :
    TreeOf (({ w with sb := r.sb }.setCell p (.live { dir with fi := r.dfi })).addFile p r.created)
      s := by
  obtain ⟨hcell, hisDir⟩ := object_of_dir hdir
  rcases mknodFile_sameTables h.inv.counts hr with
    ⟨hsame, hdfi⟩ | ⟨pos, hsmall, hlt, hclear, hsame, hdfi⟩
  · have hset : SameDirs w ({ w with sb := r.sb }.setCell p (.live { dir with fi := r.dfi })) := by
      rw [hdfi, setCell_live w hcell]
      exact ⟨fun _ => rfl, hsame, .inl rfl⟩
    have ht := hset.treeOf h
    exact (sameDirs_addFile ht.inv p r.created).treeOf ht
  · obtain ⟨hi, hsub⟩ := h.inv.promote hdir hsmall hlt hclear
    have hprom := h.stay hi rfl hsub
    have hset : SameDirs ({ w with sb := promotedSb w.sb pos initBigFileHt }.setCell p
        (.live (promoted dir pos)))
        ({ w with sb := r.sb }.setCell p (.live { dir with fi := r.dfi })) := by
      rw [hdfi]
      exact ⟨fun _ => rfl, hsame, .inl rfl⟩
    have ht := hset.treeOf hprom
    exact (sameDirs_addFile ht.inv p r.created).treeOf ht

end World

namespace World

variable {w w' : World} {s : DirRun}

theorem TreeOf.mkdir (h : TreeOf w s) {nodes : ℕ → List ℕ}
    (hn : s.sb.dtree.NoLostNode s.children nodes) {p : ℕ} {dir : Object}
    (hdir : (w.cell p).dir = some dir) {name : CStr} {mem : FfsName} {dle : ℕ}
    (hok : w.TidyDirs (.mkdir p name mem dle)) :
    let r := ffsMknodDir w.sb dir.fi mem name dle
    ∃ s', dirStep s (.mkdir dir.fi.dirId.toNat name dle) = some s' ∧
      TreeOf ({ w with sb := r.1 }.add ⟨r.2.1, r.2.2, true, some p⟩) s' := by
  intro r
  have hrepr := hn.toRepr
  rw [h.tree, h.children] at hrepr
  obtain ⟨hi, hsub⟩ := h.inv.mkdir hdir hrepr hok
  obtain ⟨hid, h0, hfresh⟩ := hok
  rw [← DirTree.fillOneDirEntry_fst w.sb.dtree name] at hid
  have hg : s.sb.dtree.Live dir.fi.dirId.toNat ∧ (fillOneDirEntry s.sb.dtree name).1 ≠ 0 ∧
      dle ≠ 0 ∧ s.sb.dtree.allocated dle = false := by
    rw [h.tree]
    exact ⟨h.inv.live hdir, hid, h0, hfresh⟩
  refine ⟨_, if_pos hg, hi, ?_, ?_⟩
  · dsimp only
    rw [h.tree]
    rfl
  · rw [hsub, h.children, h.tree]

theorem TreeOf.rmdir (h : TreeOf w s) {nodes : ℕ → List ℕ}
    (hn : s.sb.dtree.NoLostNode s.children nodes) {c p : ℕ} {x dir : Object}
    (hx : (w.cell c).dir = some x) (hparent : x.parent = some p)
    (hdir : (w.cell p).dir = some dir) (hok : w.TidyDirs (.rmdir c)) :
    KeepsTail s (.rmdir dir.fi.dirId.toNat x.fi.dirId.toNat x.fi.bigDirId) ∧
      ∃ s', dirStep s (.rmdir dir.fi.dirId.toNat x.fi.dirId.toNat x.fi.bigDirId) = some s' ∧
        TreeOf ({ w with sb := removeDir w.sb dir.ino x.ino x.fi.bigDirId }.setCell c .gone)
          s' := by
  obtain ⟨hleaf, hkeep⟩ := hok x hx
  have hrepr := hn.toRepr
  rw [h.tree, h.children] at hrepr
  obtain ⟨hi, hsub⟩ := h.inv.rmdir hx hparent hdir hrepr hleaf
  have hkeep' := hkeep p hparent dir hdir
  rw [KeepsTail] at hkeep' ⊢
  rw [h.children]
  refine ⟨hkeep', ?_⟩
  have hg : x.fi.dirId.toNat ∈ s.children dir.fi.dirId.toNat ∧
      s.children x.fi.dirId.toNat = [] := by
    rw [h.children]
    exact ⟨h.inv.mem_subdirs hx hparent hdir, hleaf⟩
  refine ⟨_, if_pos hg, hi, ?_, ?_⟩
  · rw [← (h.inv.named c x hx).2, ← (h.inv.named p dir hdir).2]
    exact removeDir_dtree_congr h.tree ..
  · rw [hsub, h.children]

/-- The tree operation of a step, with the ids that the inodes have: an `rmdir` is one when the
size of the directory lets it remove anything. -/
def dirOp (w : World) : FsOp → Option DirOp
  | .mkdir parent name _ dle =>
    (w.cell parent).dir.map fun dir => .mkdir dir.fi.dirId.toNat name dle
  | .rmdir child =>
    (w.cell child).dir.bind fun x => x.parent.bind fun parent => (w.cell parent).dir.bind fun dir =>
      if x.fi.iSize = 0 then
        some (.rmdir dir.fi.dirId.toNat x.fi.dirId.toNat x.fi.bigDirId)
      else none
  | .create _ _ _ | .unlink _ _ _ | .complete _ => none

theorem TreeOf.step (h : TreeOf w s) {nodes : ℕ → List ℕ}
    (hn : s.sb.dtree.NoLostNode s.children nodes) {op : FsOp} (hok : w.TidyDirs op)
    (hs : w.step op = some w') :
    ∃ s', run dirStep KeepsTail s (w.dirOp op).toList = some s' ∧ TreeOf w' s' := by
  cases op with
  | mkdir parent name mem dle =>
    obtain ⟨dir, hdir, rfl⟩ := Option.map_eq_some_iff.mp hs
    obtain ⟨s', hstep, ht⟩ := h.mkdir hn hdir hok
    refine ⟨s', ?_, ht⟩
    rw [dirOp, hdir, Option.map_some, Option.toList_some]
    exact run_one trivial hstep
  | create parent name mem =>
    obtain ⟨dir, r, hdir, hr, rfl⟩ := step_create hs
    exact ⟨s, rfl, h.create hdir hr⟩
  | unlink f ioEnd submitted =>
    obtain ⟨x, hx, rfl⟩ := Option.map_eq_some_iff.mp hs
    have hnone : (w.cell f).dir = none := Option.eq_none_iff_forall_ne_some.mpr (dir_ne_of_file hx)
    refine ⟨s, rfl, (sameDirs_setCell hnone ?_ (.refl _)).treeOf h⟩
    split_ifs <;> rfl
  | complete f =>
    obtain ⟨e, hcell, -, rfl⟩ := step_complete hs
    refine ⟨s, rfl, (sameDirs_setCell ?_ rfl (sameTables_callback _ e)).treeOf h⟩
    rw [hcell]
    rfl
  | rmdir child =>
    obtain ⟨x, p, dir, hx, hparent, hdir, rfl⟩ := step_rmdir_eq hs
    simp only [dirOp, hx, hparent, hdir, Option.bind_some]
    split_ifs with hsize
    · obtain ⟨hkeep, s', hstep, ht⟩ := h.rmdir hn hx hparent hdir hok
      exact ⟨s', run_one hkeep hstep, ht⟩
    · exact ⟨s, rfl, h⟩

theorem treeOf_mounted (mem : ℕ → ℕ → UInt8) (heap : ℕ → DirListEntry) (rootMem : FfsName) :
    TreeOf (mounted mem heap rootMem) ⟨fillSuper mem heap, fun _ => []⟩ := by
  have hentries : (mounted mem heap rootMem).entries =
      update (fun _ => none) 0 (some ((flatfsRootIno, none) : ℕ × Option ℕ)) := comp_update ..
  have hpos : (mounted mem heap rootMem).positions = fun _ => none :=
    (comp_update Cell.bigPos ..).trans (update_eq_self 0 fun _ => none)
  have hdirs : ∀ i x, ((mounted mem heap rootMem).cell i).dir = some x → x =
      ⟨dirIdToInode (BitVec.ofNat 64 flatfsRootIno), rootInfo rootMem, true, none⟩ := by
    intro i x hx
    change (update (fun _ => Cell.gone) 0 (.live _) i).dir = some x at hx
    rw [update_apply] at hx
    split_ifs at hx
    · exact dir_live hx
    · cases hx
  have hlive : ∀ d, (fillSuper mem heap).dtree.Live d ↔ d = flatfsRootIno ∨ False := by
    intro d
    change (2 ≤ d ∧ d < 2 ^ 14 ∧ (((Bitmap.zero.set 0).set 1).set 2) d = true) ↔ d = 2 ∨ False
    simp only [Bitmap.set_iff, Bitmap.zero_apply, Bool.false_eq_true, or_false]
    omega
  refine ⟨?_, rfl, ?_⟩
  · constructor
    case family =>
      rw [hentries]
      refine ⟨fun i hi => update_of_ne (by change 1 ≤ i at hi; omega) .., fun i k p hp => ?_⟩
      rw [update_apply] at hp
      split_ifs at hp
      cases hp
    case named =>
      intro i x hx
      rw [hdirs i x hx]
      exact ⟨Int.natCast_nonneg _, rfl⟩
    case bigDirId =>
      intro i x hx
      rw [hdirs i x hx]
      rfl
    case ids =>
      rw [dirIds, hentries, nameAt_update]
      have hempty : Owned (nameAt fun _ => (none : Option (ℕ × Option ℕ))) fun _ => False := by
        refine ⟨fun k => by simp [nameAt], fun i j k hi => ?_⟩
        cases hi
      exact hempty.acquire rfl id hlive
    case tables =>
      intro d
      refine Iff.trans ?_ (hlive d).symm
      change (update (fun _ => none) flatfsRootIno (some initFileHt) d).isSome = true ↔ _
      rw [update_apply]
      split_ifs with hd <;> simp [hd]
    case positions =>
      rw [hpos]
      refine ⟨fun k => ?_, fun i j k hi => ?_⟩
      · change Bitmap.zero k = true ↔ _
        simp
      · cases hi
    case counts => exact BigRun.inv_mounted mem heap
  · funext d
    rw [subdirs, hentries]
    rfl

end World

section

variable {mem : ℕ → ℕ → UInt8} {heap : ℕ → DirListEntry} {rootMem : FfsName} {w : World}

/-- The tree operations of a run make the tree of its last state. -/
theorem treeOf_ops {ops : List FsOp}
    (h : run World.step World.TidyDirs (World.mounted mem heap rootMem) ops = some w) :
    ∃ s, run dirStep KeepsTail ⟨fillSuper mem heap, fun _ => []⟩
      (translate World.step World.dirOp (World.mounted mem heap rootMem) ops) = some s ∧
      World.TreeOf w s := by
  let start : DirRun := ⟨fillSuper mem heap, fun _ => []⟩
  have hstep : ∀ w s op w', World.TreeOf w s ∧ Reach dirStep KeepsTail start s →
      w.TidyDirs op → w.step op = some w' →
      ∃ s', run dirStep KeepsTail s (w.dirOp op).toList = some s' ∧
        World.TreeOf w' s' ∧ Reach dirStep KeepsTail start s' := by
    intro w s op w' ht hok hs
    obtain ⟨nodes, hn⟩ := nodes_run ht.2
    obtain ⟨s', hrun, ht'⟩ := ht.1.step hn hok hs
    exact ⟨s', hrun, ht', ht.2.trans (.of_run hrun)⟩
  obtain ⟨s, hs, ht, -⟩ :=
    run_translates _ hstep ⟨World.treeOf_mounted mem heap rootMem, .init⟩ h
  exact ⟨s, hs, ht⟩

theorem treeOf_run (h : Reach World.step World.TidyDirs (World.mounted mem heap rootMem) w) :
    ∃ s, Reach dirStep KeepsTail ⟨fillSuper mem heap, fun _ => []⟩ s ∧ World.TreeOf w s := by
  obtain ⟨ops, hrun⟩ := h.exists_run
  obtain ⟨s, hs, ht⟩ := treeOf_ops hrun
  exact ⟨s, .of_run hs, ht⟩

end

def World.listNode (w : World) (q : ℕ × ℕ) : Option ℕ := (w.sb.dtree.visited q.1)[q.2]?

/-- The list of every directory is the list of its live subdirectories. The live directories own
the ids in use, the tables, the positions and the big tables, and the places of the lists own the
list nodes: what is in use has an owner, and no two owners have the same. -/
structure DirsOwned (w : World) : Prop where
  lists : ∀ d, w.sb.dtree.Lists d (w.subdirs d)
  ids : Owned w.dirIds w.sb.dtree.Live
  tables : Owned w.dirIds fun d => (w.sb.hashtbl d).isSome = true
  positions : Owned w.positions fun q => w.sb.bigDirBitmap q = true
  bigTables : Owned w.positions fun q => (w.sb.bigDirHashtbl q).isSome = true
  nodes : Owned w.listNode fun a => w.sb.dtree.allocated a = true

section

variable {mem : ℕ → ℕ → UInt8} {heap : ℕ → DirListEntry} {rootMem : FfsName} {w : World}

/-- Whatever files are created, unlinked and discarded in between, the tree is the one that the
`mkdir` and `rmdir` calls of the run make by themselves, with the same names, and stands for the
live directories. -/
theorem dirs_refine {ops : List FsOp}
    (h : run World.step World.TidyDirs (World.mounted mem heap rootMem) ops = some w) :
    ∃ s, run dirStep KeepsTail ⟨fillSuper mem heap, fun _ => []⟩
        (translate World.step World.dirOp (World.mounted mem heap rootMem) ops) = some s ∧
      s.sb.dtree = w.sb.dtree ∧ s.children = w.subdirs := by
  obtain ⟨s, hs, ht⟩ := treeOf_ops h
  exact ⟨s, hs, ht.tree, ht.children⟩

theorem dirs_refine_two : ∃ w s, run World.step World.TidyDirs zeroMounted
      [mkdirOp 1, createOp 1 [102, 49], mkdirOp 2, .rmdir 1] = some w ∧
    run dirStep KeepsTail zeroTree [.mkdir 2 [100] 1, .mkdir 2 [100] 2, .rmdir 2 3 (-1)] = some s ∧
    s.sb.dtree = w.sb.dtree ∧ s.children 2 = [4] := by
  obtain ⟨w, hrun, hsub⟩ := exists_of_check (p := fun w : World => w.subdirs 2 = [4])
    (r := run World.step World.TidyDirs zeroMounted
      [mkdirOp 1, createOp 1 [102, 49], mkdirOp 2, .rmdir 1]) (by decide +kernel)
  have hops : translate World.step World.dirOp zeroMounted
      [mkdirOp 1, createOp 1 [102, 49], mkdirOp 2, .rmdir 1] =
        [.mkdir 2 [100] 1, .mkdir 2 [100] 2, .rmdir 2 3 (-1)] := by
    decide +kernel
  obtain ⟨s, hs, htree, hchildren⟩ := dirs_refine hrun
  exact ⟨w, s, hrun, hops ▸ hs, htree, (congrFun hchildren 2).trans hsub⟩

/-- In every state of every such run nothing is lost and nothing is shared. -/
theorem dirResources_run (h : Reach World.step World.TidyDirs (World.mounted mem heap rootMem) w) :
    DirsOwned w := by
  obtain ⟨s, hs, hi, htree, hchildren⟩ := treeOf_run h
  obtain ⟨nodes, hn⟩ := nodes_run hs
  rw [htree, hchildren] at hn
  constructor
  case lists => exact hn.lists
  case ids => exact hi.ids
  case tables => exact hi.ids.congr hi.tables
  case positions => exact hi.positions
  case bigTables =>
    refine hi.positions.congr fun q => ?_
    rw [hi.counts.table q]
  case nodes => exact hn.owned

theorem dirResources_run_two : ∃ w, run World.step World.TidyDirs zeroMounted
    [mkdirOp 1, createOp 1 [102, 49], mkdirOp 2, .rmdir 1] = some w ∧ DirsOwned w := by
  obtain ⟨w, hrun, -⟩ := exists_of_check (p := fun w : World => w.count = 4)
    (r := run World.step World.TidyDirs zeroMounted
      [mkdirOp 1, createOp 1 [102, 49], mkdirOp 2, .rmdir 1]) (by decide +kernel)
  exact ⟨w, hrun, dirResources_run (.of_run hrun)⟩

end

namespace World

variable {w : World} {p : ℕ} {dir : Object}

/-- All positions are in use when there are as many promoted directories as positions. -/
theorem DirsInv.hasFreePosition_iff (hi : DirsInv w) :
    HasFreePosition w.sb ↔ {i | (w.positions i).isSome}.ncard ≠ 64 := by
  have hown : {i | (w.positions i).isSome} = {i | ∃ q, w.positions i = some q ∧ True} := by
    ext i
    simp [Option.isSome_iff_exists]
  have hbits : {q | w.sb.bigDirBitmap q = true ∧ True} = {q | w.sb.bigDirBitmap q = true} := by
    simp
  rw [hown, hi.positions.ncard_eq, hbits, ne_eq, Bitmap.ncard_eq_iff hi.counts.lt]
  simp [HasFreePosition]

theorem DirsInv.mknodFile_eq_none_iff (hi : DirsInv w) (hdir : (w.cell p).dir = some dir)
    (mem : FfsName) (name : CStr) : ffsMknodFile w.sb dir.fi mem name = none ↔
      dir.fi.isBigDir = 0 ∧
        (∃ ht ∈ w.sb.hashtbl dir.fi.dirId.toNat, (ht.buckets (smallBucket name)).Full) ∧
        ¬ HasFreePosition w.sb := by
  have hd := hi.dirId_nat hdir
  have hlive := hi.live hdir
  by_cases hsmall : dir.fi.isBigDir = 0
  · obtain ⟨ht, hht⟩ := hi.table hdir
    have hfull : (∃ ht ∈ w.sb.hashtbl dir.fi.dirId.toNat, (ht.buckets (smallBucket name)).Full) ↔
        (ht.buckets (smallBucket name)).Full := by
      rw [hht]
      simp
    rw [hfull, and_iff_right hsmall]
    by_cases hf : (ht.buckets (smallBucket name)).Full
    · rw [and_iff_right hf, mknodFile_full mem hsmall hd hht hf]
      by_cases hfree : HasFreePosition w.sb
      · -- the promotion makes the table that the file goes into
        obtain ⟨q, -, -, hres⟩ := hi.counts.resizeDir_free hfree
        have hne : ¬ (q : ℤ) = -1 := by omega
        rw [hres, Option.bind_some]
        dsimp only
        rw [if_neg hne, mknodBigFile, promotedSb_table]
        simp [hfree]
      · rw [hi.counts.resizeDir_full hfree]
        simp [hfree]
    · obtain ⟨ino, hmk, -⟩ := mknodFile_free mem hsmall hd hht hlive.2.1 hf
      simp [hmk, hf]
  · -- a promoted directory has its table
    obtain ⟨ht, hht⟩ := hi.bigTable hdir hsmall
    simp [ffsMknodFile, mknodFileBy, hsmall, mknodBigFile, hht]

end World

/-- In every state of every such run a create faults in one case only: it would promote the
directory, and 64 live directories are promoted already. -/
theorem create_faults_iff {mem : ℕ → ℕ → UInt8} {heap : ℕ → DirListEntry} {rootMem : FfsName}
    {w : World} (h : Reach World.step World.TidyDirs (World.mounted mem heap rootMem) w) {p : ℕ}
    {dir : Object} (hdir : (w.cell p).dir = some dir) (name : CStr) (nameMem : FfsName) :
    w.step (.create p name nameMem) = none ↔ dir.fi.isBigDir = 0 ∧
      (∃ ht ∈ w.sb.hashtbl dir.fi.dirId.toNat, (ht.buckets (smallBucket name)).Full) ∧
      {i | (w.positions i).isSome}.ncard = 64 := by
  obtain ⟨s, -, hi, -, -⟩ := treeOf_run h
  have hfree := hi.hasFreePosition_iff
  rw [World.step, hdir, Option.bind_some, Option.map_eq_none_iff,
    hi.mknodFile_eq_none_iff hdir, hfree, not_ne_iff]

theorem create_faults_iff_root : ∃ w dir, run World.step World.TidyDirs zeroMounted
      [createOp 0 [102, 49], mkdirOp 1] = some w ∧ (w.cell 0).dir = some dir ∧
    w.step (createOp 0 [102, 50]) ≠ none ∧ ¬ (dir.fi.isBigDir = 0 ∧
      (∃ ht ∈ w.sb.hashtbl dir.fi.dirId.toNat, (ht.buckets (smallBucket [102, 50])).Full) ∧
      {i | (w.positions i).isSome}.ncard = 64) := by
  obtain ⟨w, hrun, hsome, hstep⟩ := exists_of_check
    (p := fun w : World => (w.cell 0).dir.isSome = true ∧
      (w.step (createOp 0 [102, 50])).isSome = true)
    (r := run World.step World.TidyDirs zeroMounted [createOp 0 [102, 49], mkdirOp 1])
    (by decide +kernel)
  obtain ⟨dir, hdir⟩ := Option.isSome_iff_exists.mp hsome
  have hne := Option.isSome_iff_ne_none.mp hstep
  exact ⟨w, dir, hrun, hdir, hne,
    fun hc => hne ((create_faults_iff (.of_run hrun) hdir [102, 50] _).mpr hc)⟩

end FlatFS
