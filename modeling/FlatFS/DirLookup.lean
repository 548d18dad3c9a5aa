import FlatFS.DirTreeRun
import FlatFS.Lookup
import Mathlib.Data.List.GetD

namespace FlatFS
open Lib

def DirEntry.name (de : DirEntry) : CStr := (List.range de.namelen).map de.dirName

theorem DirEntry.eq_name_iff (de : DirEntry) (child : CStr) :
    (child.length = de.namelen ∧ (List.range child.length).all
      (fun i => de.dirName i == child.getD i 0) = true) ↔ child = de.name := by
  constructor
  · rintro ⟨hlen, hall⟩
    apply List.ext_getElem
    · rw [name, List.length_map, List.length_range, hlen]
    · intro i hi hi'
      have hb := List.all_eq_true.mp hall i (List.mem_range.mpr hi)
      rw [beq_iff_eq, List.getD_eq_getElem _ _ hi] at hb
      simp [name, hb]
  · intro h
    have hlen : child.length = de.namelen := by
      rw [h, name, List.length_map, List.length_range]
    refine ⟨hlen, List.all_eq_true.mpr fun i hi => ?_⟩
    have hlt : i < de.namelen := hlen ▸ List.mem_range.mp hi
    rw [beq_iff_eq, h, name, List.getD_eq_getElem _ _ (by simpa using hlt)]
    simp

namespace DirTree

def searched (t : DirTree) (d : ℕ) : List ℕ := walk t.next (t.de d).head (t.de d).dirSize

def entry (t : DirTree) (p : ℕ) : DirEntry := t.de (t.node p).de

/-- The children list of a directory is in order, every node points into the array of entries,
and names and ids tell the children apart from each other and from the directory. -/
structure ChildList (t : DirTree) (d : ℕ) (children : List ℕ) : Prop
    extends t.Lists d children where
  entries : ∀ p ∈ t.visited d, (t.node p).de < 2 ^ 14
  names : ((t.visited d).map fun p => (t.entry p).name).Nodup
  own : d ∉ children

variable {t u : DirTree}

/-- The search for a name takes the first node whose entry has it. -/
theorem findChild_eq (t : DirTree) (child : CStr) (p n : ℕ) :
    findChild t child p n = ((walk t.next p n).find? fun q => child = (t.entry q).name).map
      fun q => (t.entry q).dirId := by
  induction n generalizing p with
  | zero => rfl
  | succ n ih =>
    rw [findChild, walk]
    dsimp only
    split_ifs with h0 hname
    · rfl
    · have he : child = (t.entry p).name := (DirEntry.eq_name_iff _ _).mp hname
      rw [List.find?_cons_of_pos (by simpa using he)]
      rfl
    · have he : child ≠ (t.entry p).name := fun h => hname ((DirEntry.eq_name_iff _ _).mpr h)
      rw [List.find?_cons_of_neg (by simpa using he)]
      exact ih _

/-- The search depends on the nodes it meets and on their names and ids. -/
theorem findChild_congr {p p' n n' : ℕ} (hwalk : walk u.next p' n' = walk t.next p n)
    (hentry : ∀ q ∈ walk t.next p n, (u.entry q).name = (t.entry q).name ∧
      (u.entry q).dirId = (t.entry q).dirId) (child : CStr) :
    findChild u child p' n' = findChild t child p n := by
  rw [findChild_eq, findChild_eq, hwalk]
  have hfind : (walk t.next p n).find? (fun q => decide (child = (u.entry q).name)) =
      (walk t.next p n).find? fun q => decide (child = (t.entry q).name) := by
    apply List.find?_congr
    intro q hq
    rw [(hentry q hq).1]
  rw [hfind]
  apply Option.map_congr
  intro q hq
  exact (hentry q (List.mem_of_find?_eq_some hq)).2

variable {d : ℕ} {children : List ℕ}

theorem Lists.seg (h : t.Lists d children) : Seg t.next t.last 0 (t.de d).head (t.visited d) 0 :=
  Seg.of_walk h.size.le h.back

theorem Lists.searched (h : t.Lists d children) : t.searched d = t.visited d :=
  h.seg.walk_eq h.size.le

theorem ChildList.dirIds (h : t.ChildList d children) :
    ((t.visited d).map fun p => (t.entry p).dirId).Nodup := by
  have hids : (t.visited d).map (fun p => (t.entry p).dirId) = children := h.ids
  rw [hids]
  exact h.nodup

theorem ChildList.length_le (h : t.ChildList d children) : (t.visited d).length ≤ 2 ^ 14 := by
  have hnd : ((t.visited d).map fun p => (t.node p).de).Nodup := by
    apply List.Nodup.of_map fun i => (t.de i).dirId
    rw [List.map_map]
    exact h.dirIds
  have hle := length_le_of_ids hnd (n := 2 ^ 14) (by simpa using h.entries)
  rwa [List.length_map] at hle

theorem ChildList.split (h : t.ChildList d children) {child : ℕ}
    (hmem : ∃ p ∈ t.visited d, (t.node p).de = child) :
    ∃ xs x ys, t.visited d = xs ++ x :: ys ∧ (t.node x).de = child ∧
      findEntry t (t.de child).dirId (t.de d).head 0 (t.de d).dirSize = some (x, xs.length) ∧
      ∀ y ∈ xs ++ ys, (t.node y).de ≠ child ∧ (t.entry y).name ≠ (t.de child).name := by
  obtain ⟨x, hx, hde⟩ := hmem
  obtain ⟨xs, ys, hsplit, hfind⟩ := findEntry_split h.seg h.size.le h.dirIds hx (by rw [hde])
  refine ⟨xs, x, ys, hsplit, hde, hfind, fun y hy => ?_⟩
  have hids := h.dirIds
  have hnames := h.names
  have hchild : t.entry x = t.de child := by rw [entry, hde]
  rw [hsplit, List.map_append, List.map_cons, List.nodup_middle, List.nodup_cons,
    ← List.map_append, hchild] at hids hnames
  constructor
  · intro he
    apply hids.1
    rw [← he]
    exact List.mem_map_of_mem (f := fun p => (t.entry p).dirId) hy
  · intro he
    apply hnames.1
    rw [← he]
    exact List.mem_map_of_mem (f := fun p => (t.entry p).name) hy

theorem relinkNext_named (t : DirTree) (parent dir last next start i : ℕ) :
    ((relinkNext t parent dir last next start).de i).name = (t.de i).name ∧
      ((relinkNext t parent dir last next start).de i).dirId = (t.de i).dirId := by
  unfold relinkNext
  split_ifs
  · rw [modifyDe_de]
    by_cases hi : i = parent
    · rw [if_pos hi, hi]
      exact ⟨rfl, rfl⟩
    · rw [if_neg hi]
      exact ⟨rfl, rfl⟩
  · exact ⟨rfl, rfl⟩
  · exact ⟨rfl, rfl⟩

theorem unlinkEntry_named (t : DirTree) (parent dir x start i : ℕ) :
    ((unlinkEntry t parent dir x start).de i).name = (t.de i).name ∧
      ((unlinkEntry t parent dir x start).de i).dirId = (t.de i).dirId := by
  obtain ⟨hname, hid⟩ := relinkNext_named
    (relinkPrev t parent (t.node x).last (t.node x).next start) parent dir (t.node x).last
    (t.node x).next start i
  rw [relinkPrev_de] at hname hid
  rw [unlinkEntry, freeEntry_de]
  exact ⟨hname, hid⟩

theorem clearEntry_named (t : DirTree) {dir i : ℕ} (h : i ≠ dir) :
    ((clearEntry t dir).de i).name = (t.de i).name ∧
      ((clearEntry t dir).de i).dirId = (t.de i).dirId := by
  simp [clearEntry, modifyDe_de, h]

/-- The directories as a search sees them after the node `x` of `child` is taken out, with
`rest` left under its parent. -/
structure TakenOut (t u : DirTree) (parent child x : ℕ) (rest : List ℕ) : Prop where
  named : ∀ i, i ≠ child → (u.de i).name = (t.de i).name ∧ (u.de i).dirId = (t.de i).dirId
  node : ∀ p, (u.node p).de = (t.node p).de
  left : u.searched parent = rest
  others : ∀ d, d ≠ parent → x ∉ t.searched d → u.searched d = t.searched d

theorem ChildList.takenOut (h : t.ChildList d children) {child x : ℕ} {xs ys : List ℕ}
    (hsplit : t.visited d = xs ++ x :: ys) (hleaf : (t.de child).dirSize = 0) :
    TakenOut t (clearEntry (unlinkEntry t d child x xs.length) child) d child x (xs ++ ys) := by
  have hseg := h.seg
  have hlen := h.length_le
  have hsize := h.size
  rw [hsplit] at hseg
  rw [hsplit, List.length_append, List.length_cons] at hlen hsize
  have hne : d ≠ child := by
    intro he
    rw [he, hleaf] at hsize
    omega
  have hu : Unlinked t (unlinkEntry t d child x xs.length) d x xs.length :=
    unlinkEntry_unlinked hleaf (by omega)
  have hnamed := unlinkEntry_named t d child x xs.length
  generalize unlinkEntry t d child x xs.length = u at hu hnamed ⊢
  have hcde := clearEntry_de u child
  constructor
  case named =>
    intro i hi
    obtain ⟨hname, hid⟩ := clearEntry_named u hi
    exact ⟨hname.trans (hnamed i).1, hid.trans (hnamed i).2⟩
  case node => exact fun p => hu.node p
  case left =>
    have hnodup : (xs ++ x :: ys).Nodup := by
      rw [← hsplit]
      exact List.Nodup.of_map _ h.dirIds
    rw [searched, (hcde d).2.2.1, if_neg hne, (hcde d).2.1, hu.dirSize, if_pos rfl]
    refine (hu.seg hseg hnodup).walk_eq ?_
    rw [List.length_append]
    omega
  case others =>
    intro i hi hx
    rw [searched, (hcde i).2.2.1, (hcde i).2.1, hu.dirSize, if_neg hi]
    by_cases hic : i = child
    · rw [hic, searched, hleaf]
      rfl
    · rw [if_neg hic, hu.head, if_neg fun hc => hi hc.1]
      refine walk_congr (hseg.ne_zero x (by simp)) (fun q hq => ?_) hx
      have hnext := hu.next q hq
      split_ifs at hnext with hc
      · right
        rw [hc.2.2]
        exact hseg.next_last hc.2.1
      · exact .inl hnext

theorem ChildList.findChild (h : t.ChildList d children) {p : ℕ} (hp : p ∈ t.visited d) :
    findChild t (t.entry p).name (t.de d).head (t.de d).dirSize = some (t.entry p).dirId := by
  obtain ⟨xs, ys, hsplit⟩ := List.append_of_mem hp
  have hwalk : walk t.next (t.de d).head (t.de d).dirSize = xs ++ p :: ys :=
    h.searched.trans hsplit
  have hnames := h.names
  rw [hsplit, List.map_append, List.map_cons, List.nodup_middle, List.nodup_cons] at hnames
  have hxs : xs.find? (fun q => (t.entry p).name = (t.entry q).name) = none := by
    apply List.find?_eq_none.mpr
    intro q hq he
    refine hnames.1 (List.mem_append_left _ ?_)
    rw [of_decide_eq_true he]
    exact List.mem_map_of_mem hq
  rw [findChild_eq, hwalk, List.find?_append, hxs, Option.none_or,
    List.find?_cons_of_pos (by simp)]
  rfl

section takenOut

variable {child x : ℕ} {xs ys : List ℕ}

/-- Under the parent every name but that of the child leads where it led before. -/
theorem TakenOut.findChild_left (h : TakenOut t u d child x (xs ++ ys))
    (hbefore : t.searched d = xs ++ x :: ys) (hx : (t.node x).de = child)
    (hrest : ∀ y ∈ xs ++ ys, (t.node y).de ≠ child) {name : CStr}
    (hname : name ≠ (t.de child).name) :
    findChild u name (u.de d).head (u.de d).dirSize =
      findChild t name (t.de d).head (t.de d).dirSize := by
  have hafter : walk u.next (u.de d).head (u.de d).dirSize = xs ++ ys := h.left
  have hwalk : walk t.next (t.de d).head (t.de d).dirSize = xs ++ x :: ys := hbefore
  have hentry : ∀ q ∈ xs ++ ys, (u.entry q).name = (t.entry q).name ∧
      (u.entry q).dirId = (t.entry q).dirId := by
    intro q hq
    rw [entry, entry, h.node]
    exact h.named _ (hrest q hq)
  have hskip : (x :: ys).find? (fun q => decide (name = (t.entry q).name)) =
      ys.find? fun q => decide (name = (t.entry q).name) := by
    apply List.find?_cons_of_neg
    rw [decide_eq_true_iff, entry, hx]
    exact hname
  have hfind : (xs ++ ys).find? (fun q => decide (name = (u.entry q).name)) =
      (xs ++ x :: ys).find? fun q => decide (name = (t.entry q).name) := by
    have htake : (xs ++ x :: ys).find? (fun q => decide (name = (t.entry q).name)) =
        (xs ++ ys).find? fun q => decide (name = (t.entry q).name) := by
      rw [List.find?_append, hskip, ← List.find?_append]
    rw [htake]
    apply List.find?_congr
    intro q hq
    rw [(hentry q hq).1]
  rw [findChild_eq, findChild_eq, hafter, hwalk, hfind]
  apply Option.map_congr
  intro q hq
  rw [← hfind] at hq
  exact (hentry q (List.mem_of_find?_eq_some hq)).2

theorem TakenOut.findChild_gone (h : TakenOut t u d child x (xs ++ ys))
    (hrest : ∀ y ∈ xs ++ ys, (t.node y).de ≠ child)
    (hname : ∀ y ∈ xs ++ ys, (t.entry y).name ≠ (t.de child).name) :
    FlatFS.findChild u (t.de child).name (u.de d).head (u.de d).dirSize = none := by
  have hafter : walk u.next (u.de d).head (u.de d).dirSize = xs ++ ys := h.left
  have hnone : (xs ++ ys).find? (fun q => decide ((t.de child).name = (u.entry q).name)) =
      none := by
    apply List.find?_eq_none.mpr
    intro q hq he
    apply hname q hq
    rw [of_decide_eq_true he, entry, entry, h.node]
    exact (h.named _ (hrest q hq)).1.symm
  rw [findChild_eq, hafter, hnone]
  rfl

theorem TakenOut.findChild_other (h : TakenOut t u d child x (xs ++ ys))
    (hx : (t.node x).de = child) {i : ℕ} (hi : i ≠ d)
    (hout : ∀ p ∈ t.searched i, (t.node p).de ≠ child) (name : CStr) :
    FlatFS.findChild u name (u.de i).head (u.de i).dirSize =
      FlatFS.findChild t name (t.de i).head (t.de i).dirSize := by
  refine findChild_congr (h.others i hi fun hmem => hout x hmem hx) (fun q hq => ?_) name
  rw [entry, entry, h.node]
  exact h.named _ (hout q hq)

end takenOut

end DirTree

/-- Removing a childless child, wherever it stands in the list of its parent, takes its name from
the parent and nothing else from any directory. -/
theorem removeDir_lookup {sb sb' : SbInfo} {parentIno dirIno : BitVec 64} {bigDirId : ℤ}
    {parent child : ℕ} {children : List ℕ} (hparent : (inodeToDirId parentIno).toNat = parent)
    (hdir : (inodeToDirId dirIno).toNat = child) (h : sb.dtree.ChildList parent children)
    (hlisted : ∃ p ∈ sb.dtree.visited parent, (sb.dtree.node p).de = child)
    (hleaf : (sb.dtree.de child).dirSize = 0)
    (honly : ∀ d, d ≠ parent → ∀ p ∈ sb.dtree.searched d, (sb.dtree.node p).de ≠ child)
    (hsb' : removeDir sb parentIno dirIno bigDirId = sb') :
    flatfsDirInodeByName sb' parentIno (sb.dtree.de child).name = 0 ∧
      (∀ name, name ≠ (sb.dtree.de child).name →
        flatfsDirInodeByName sb' parentIno name = flatfsDirInodeByName sb parentIno name) ∧
      (∀ p ∈ sb.dtree.visited parent, (sb.dtree.node p).de ≠ child →
        flatfsDirInodeByName sb' parentIno (sb.dtree.entry p).name =
          dirIdToInode (BitVec.ofNat 64 (sb.dtree.entry p).dirId)) ∧
      ∀ ino name, (inodeToDirId ino).toNat ≠ parent →
        flatfsDirInodeByName sb' ino name = flatfsDirInodeByName sb ino name := by
  obtain ⟨xs, x, ys, hsplit, hx, hfind, hrest⟩ := h.split hlisted
  have hother : ∀ y ∈ xs ++ ys, (sb.dtree.node y).de ≠ child := fun y hy => (hrest y hy).1
  have hdtree : sb'.dtree = clearEntry (unlinkEntry sb.dtree parent child x xs.length) child := by
    rw [← hparent, ← hdir] at hfind
    rw [← hsb', removeDir_found bigDirId hfind, hparent, hdir]
  have hout := h.takenOut hsplit hleaf
  rw [← hdtree] at hout
  have hkeep : ∀ name, name ≠ (sb.dtree.de child).name →
      flatfsDirInodeByName sb' parentIno name = flatfsDirInodeByName sb parentIno name := by
    intro name hname
    unfold flatfsDirInodeByName
    simp only [hparent]
    rw [hout.findChild_left (h.searched.trans hsplit) hx hother hname]
  refine ⟨?_, hkeep, fun p hp hne => ?_, fun ino name hino => ?_⟩
  · unfold flatfsDirInodeByName
    simp only [hparent]
    rw [hout.findChild_gone hother fun y hy => (hrest y hy).2]
    exact if_pos rfl
  · -- the other children keep their names, which differ from the removed one
    have hmem : p ∈ xs ++ ys := by
      rw [hsplit, List.mem_append, List.mem_cons] at hp
      rcases hp with hp | rfl | hp
      · exact List.mem_append_left _ hp
      · exact absurd hx hne
      · exact List.mem_append_right _ hp
    have hid : (sb.dtree.entry p).dirId ≠ parent := by
      intro he
      apply h.own
      rw [← he, ← h.ids]
      exact List.mem_map_of_mem (f := fun q => (sb.dtree.entry q).dirId) hp
    rw [hkeep _ (hrest p hmem).2]
    unfold flatfsDirInodeByName
    simp only [hparent]
    rw [h.findChild hp, Option.getD_some, if_neg hid]
  · unfold flatfsDirInodeByName
    dsimp only
    rw [hout.findChild_other hx hino (honly _ hino)]

/-- A directory of a tree that is laid out in order is listed under one directory only. -/
theorem DirTree.Shape.listed_once {t : DirTree} {children nodes : ℕ → List ℕ}
    (h : t.Shape children nodes) {parent child : ℕ} (hchild : child ∈ children parent) {d : ℕ}
    (hd : d ≠ parent) : ∀ p ∈ t.searched d, (t.node p).de ≠ child := by
  intro p hp he
  rw [searched, (h.seg d).walk_eq (h.size d).ge] at hp
  have hmem : child ∈ children d := by
    rw [← h.kids d, ← he]
    exact List.mem_map_of_mem (f := fun q => (t.node q).de) hp
  exact h.kids_disjoint d parent hd hmem hchild

theorem removeDir_lookup_middle : ∃ s : DirRun,
    run dirStep KeepsTail zeroTree
      [.mkdir 2 [97] 1, .mkdir 2 [98] 2, .mkdir 2 [99] 3] = some s ∧
    ∀ sb', removeDir s.sb (dirIdToInode 2) (dirIdToInode 4) (-1) = sb' →
      flatfsDirInodeByName sb' (dirIdToInode 2) [98] = 0 ∧
      flatfsDirInodeByName sb' (dirIdToInode 2) [97] = dirIdToInode 3 ∧
      flatfsDirInodeByName sb' (dirIdToInode 2) [99] = dirIdToInode 5 := by
  obtain ⟨s, hrun, hkids, hvisited, hentries, hnames, hids, hleaf⟩ := exists_of_check
    (r := run dirStep KeepsTail zeroTree [.mkdir 2 [97] 1, .mkdir 2 [98] 2, .mkdir 2 [99] 3])
    (p := fun s => s.children 2 = [3, 4, 5] ∧ s.sb.dtree.visited 2 = [1, 2, 3] ∧
      [1, 2, 3].map (fun p => (s.sb.dtree.node p).de) = [3, 4, 5] ∧
      [3, 4, 5].map (fun i => (s.sb.dtree.de i).name) = [[97], [98], [99]] ∧
      [3, 4, 5].map (fun i => (s.sb.dtree.de i).dirId) = [3, 4, 5] ∧
      (s.sb.dtree.de 4).dirSize = 0) (by decide +kernel)
  refine ⟨s, hrun, fun sb' hsb' => ?_⟩
  obtain ⟨nodes, hr⟩ := dirTree_repr (.of_run hrun)
  simp only [List.map_cons, List.map_nil, List.cons.injEq, and_true] at hentries hnames hids
  obtain ⟨hn1, hn2, hn3⟩ := hentries
  obtain ⟨ha, hb, hc⟩ := hnames
  have hlist : s.sb.dtree.ChildList 2 [3, 4, 5] := by
    constructor
    case toLists => exact hkids ▸ hr.lists 2
    case entries =>
      rw [hvisited]
      simp [hn1, hn2, hn3]
    case names =>
      rw [hvisited]
      simp [DirTree.entry, hn1, hn2, hn3, ha, hb, hc]
    case own => decide
  obtain ⟨hgone, -, hstay, -⟩ := removeDir_lookup
    (show (inodeToDirId (dirIdToInode 2)).toNat = 2 by decide)
    (show (inodeToDirId (dirIdToInode 4)).toNat = 4 by decide)
    hlist ⟨2, by simp [hvisited], hn2⟩ hleaf
    (fun d hd => hr.listed_once (hkids ▸ by decide) hd) hsb'
  rw [hb] at hgone
  have h1 := hstay 1 (by simp [hvisited]) (by rw [hn1]; decide)
  have h3 := hstay 3 (by simp [hvisited]) (by rw [hn3]; decide)
  rw [DirTree.entry, hn1, ha, hids.1] at h1
  rw [DirTree.entry, hn3, hc, hids.2.2] at h3
  exact ⟨hgone, h1, h3⟩

end FlatFS
