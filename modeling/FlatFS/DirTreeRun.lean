import FlatFS.DirTree
import FlatFS.Lib.Run

namespace FlatFS
open Lib

/-- A directory tree with the children every directory has, in the order they were made. -/
structure DirRun where
  sb : SbInfo
  children : ℕ → List ℕ

/-- The operations on the tree. A `mkdir` carries the address that its `kzalloc` returns,
an `rmdir` the `big_dir_id` of the directory's inode. -/
inductive DirOp
  | mkdir (parent : ℕ) (dirName : CStr) (dle : ℕ)
  | rmdir (parent child : ℕ) (bigDirId : ℤ)
  deriving DecidableEq

/-- The root and the directories made since: ids 0 and 1 are reserved. -/
def DirTree.Live (t : DirTree) (d : ℕ) : Prop :=
  2 ≤ d ∧ d < 2 ^ 14 ∧ t.dirIdBitmap d = true

instance (t : DirTree) (d : ℕ) : Decidable (t.Live d) :=
  inferInstanceAs (Decidable (_ ∧ _ ∧ _))

/-- `fill_one_dir_entry` and `insert_dir` under a live parent while an id is free, and
`remove_dir` of a listed directory without children. -/
def dirStep (s : DirRun) : DirOp → Option DirRun
  | .mkdir parent dirName dle =>
    let r := fillOneDirEntry s.sb.dtree dirName
    if s.sb.dtree.Live parent ∧ r.1 ≠ 0 ∧ dle ≠ 0 ∧ s.sb.dtree.allocated dle = false then
      some ⟨{ s.sb with dtree := insertDir r.2 parent r.1 dle },
        Function.update s.children parent (s.children parent ++ [r.1])⟩
    else none
  | .rmdir parent child bigDirId =>
    if child ∈ s.children parent ∧ s.children child = [] then
      some ⟨removeDir s.sb (dirIdToInode (BitVec.ofNat 64 parent))
          (dirIdToInode (BitVec.ofNat 64 child)) bigDirId,
        Function.update s.children parent ((s.children parent).erase child)⟩
    else none

namespace DirTree

def next (t : DirTree) (p : ℕ) : ℕ := (t.node p).next

def last (t : DirTree) (p : ℕ) : ℕ := (t.node p).last

section links

variable (t : DirTree) (i v : ℕ)

theorem next_setNext (p : ℕ) :
    (t.modifyNode i fun n => { n with next := v }).next p = if p = i then v else t.next p := by
  rw [next, modifyNode_node]
  split_ifs <;> rfl

theorem last_setLast (p : ℕ) :
    (t.modifyNode i fun n => { n with last := v }).last p = if p = i then v else t.last p := by
  rw [last, modifyNode_node]
  split_ifs <;> rfl

@[simp] theorem next_setLast : (t.modifyNode i fun n => { n with last := v }).next = t.next := by
  funext p
  rw [next, modifyNode_node]
  split_ifs with h
  · rw [h]; rfl
  · rfl

@[simp] theorem last_setNext : (t.modifyNode i fun n => { n with next := v }).last = t.last := by
  funext p
  rw [last, modifyNode_node]
  split_ifs with h
  · rw [h]; rfl
  · rfl

theorem node_de_modifyNode {g : DirListEntry → DirListEntry} (hg : ∀ n, (g n).de = n.de) (p : ℕ) :
    ((t.modifyNode i g).node p).de = (t.node p).de := by
  rw [modifyNode_node]
  split_ifs with h
  · rw [hg, h]
  · rfl

end links

def visited (t : DirTree) (d : ℕ) : List ℕ := walk t.next (t.de d).head ((t.de d).dirSize + 1)

structure Lists (t : DirTree) (d : ℕ) (children : List ℕ) : Prop where
  size : (t.visited d).length = (t.de d).dirSize
  ids : (t.visited d).map (fun p => (t.de (t.node p).de).dirId) = children
  nodup : children.Nodup
  back : (t.visited d).map t.last = (0 :: t.visited d).take (t.visited d).length
  tail : 0 < (t.de d).dirSize → (t.visited d).getLast? = some (t.de d).tail

/-- The tree is laid out in memory as the node lists `nodes` and stands for `children`;
nothing is said of the tail pointers. -/
structure Shape (t : DirTree) (children nodes : ℕ → List ℕ) : Prop where
  ids : ∀ d, (t.de d).dirId = d
  seg : ∀ d, Seg t.next t.last 0 (t.de d).head (nodes d) 0
  size : ∀ d, (t.de d).dirSize = (nodes d).length
  kids : ∀ d, (nodes d).map (fun p => (t.node p).de) = children d
  allocated : ∀ d, ∀ p ∈ nodes d, t.allocated p = true
  disjoint : ∀ d d', d ≠ d' → (nodes d).Disjoint (nodes d')
  kids_nodup : ∀ d, (children d).Nodup
  kids_disjoint : ∀ d d', d ≠ d' → (children d).Disjoint (children d')
  kids_used : ∀ d, ∀ c ∈ children d, t.dirIdBitmap c = true ∧ 3 ≤ c ∧ c < 2 ^ 14
  unused : ∀ d, t.dirIdBitmap d = false → children d = []
  parents : ∀ d, children d ≠ [] → d < 2 ^ 14
  reserved : ∀ i < 3, t.dirIdBitmap i = true

/-- The layout with every tail pointer at the end of its list. -/
structure Repr (t : DirTree) (children nodes : ℕ → List ℕ) : Prop
    extends Shape t children nodes where
  tail : ∀ d, nodes d ≠ [] → (nodes d).getLast? = some (t.de d).tail

structure Linked (t : DirTree) (nodes : ℕ → List ℕ) : Prop where
  seg : ∀ d, Seg t.next t.last 0 (t.de d).head (nodes d) 0
  nodup : ∀ d, (nodes d).Nodup
  disjoint : ∀ d d', d ≠ d' → (nodes d).Disjoint (nodes d')

variable {t : DirTree} {children nodes : ℕ → List ℕ}

theorem Shape.nodup (h : t.Shape children nodes) (d : ℕ) : (nodes d).Nodup :=
  List.Nodup.of_map _ (h.kids d ▸ h.kids_nodup d)

theorem Shape.linked (h : t.Shape children nodes) : t.Linked nodes := ⟨h.seg, h.nodup, h.disjoint⟩

theorem Shape.visited (h : t.Shape children nodes) (d : ℕ) : t.visited d = nodes d :=
  (h.seg d).walk_eq (by rw [h.size]; omega)

theorem Repr.lists (h : t.Repr children nodes) (d : ℕ) : t.Lists d (children d) := by
  have hv := h.visited d
  refine ⟨?_, ?_, h.kids_nodup d, ?_, fun hpos => ?_⟩
  · rw [hv, h.size]
  · rw [hv, ← h.kids d]
    exact List.map_congr_left fun p _ => h.ids _
  · rw [hv]
    exact (h.seg d).map_last
  · rw [hv]
    refine h.tail d ?_
    rintro he
    rw [h.size, he] at hpos
    simp at hpos

theorem repr_init (mem : ℕ → ℕ → UInt8) (heap : ℕ → DirListEntry) :
    (fillSuper mem heap).dtree.Repr (fun _ => []) (fun _ => []) where
  ids d := by
    by_cases h : d = flatfsRootIno
    · simp [fillSuper, initRootEntry, modifyDe, h]
    · simp [fillSuper, initRootEntry, modifyDe, h, initDirTree]
  seg d := by
    by_cases h : d = flatfsRootIno
    · simp [fillSuper, initRootEntry, modifyDe, h, Seg]
    · simp [fillSuper, initRootEntry, modifyDe, h, initDirTree, Seg]
  size d := by
    by_cases h : d = flatfsRootIno
    · simp [fillSuper, initRootEntry, modifyDe, h]
    · simp [fillSuper, initRootEntry, modifyDe, h, initDirTree]
  kids _ := rfl
  allocated _ p hp := by simp at hp
  disjoint _ _ _ := by simp
  kids_nodup _ := List.nodup_nil
  kids_disjoint _ _ _ := by simp
  kids_used _ c hc := by simp at hc
  unused _ _ := rfl
  parents _ h := absurd rfl h
  reserved i hi := by
    change (((Bitmap.zero.set 0).set 1).set 2) i = true
    simp only [Bitmap.set_iff]
    omega
  tail _ h := absurd rfl h

theorem getUnusedDirId_spec {m : Bitmap} (h : (getUnusedDirId m).1 ≠ 0) :
    (getUnusedDirId m).1 < 2 ^ 14 ∧ m (getUnusedDirId m).1 = false ∧
      (getUnusedDirId m).2 = m.set (getUnusedDirId m).1 := by
  have hle : m.firstZero (2 ^ 14) ≤ 2 ^ 14 := Bitmap.firstZero_le m _
  unfold getUnusedDirId at h ⊢
  simp only [show 1 <<< maxDirBits = 2 ^ 14 from rfl] at h ⊢
  split_ifs at h ⊢ with he
  · exact absurd rfl h
  · have hlt : m.firstZero (2 ^ 14) < 2 ^ 14 := by omega
    exact ⟨hlt, Bitmap.firstZero_clear hlt, rfl⟩

theorem fillOneDirEntry_fst (t : DirTree) (dirName : CStr) :
    (fillOneDirEntry t dirName).1 = (getUnusedDirId t.dirIdBitmap).1 := by
  unfold fillOneDirEntry
  dsimp only
  split_ifs <;> rfl

structure Filled (t t' : DirTree) (n : ℕ) : Prop where
  dirIdBitmap : t'.dirIdBitmap = t.dirIdBitmap.set n
  dirEntryNum : t'.dirEntryNum = t.dirEntryNum + 1
  node : t'.node = t.node
  allocated : t'.allocated = t.allocated
  dirId : ∀ d, (t'.de d).dirId = (t.de d).dirId
  head : ∀ d, (t'.de d).head = (t.de d).head
  tail : ∀ d, (t'.de d).tail = (t.de d).tail
  dirSize : ∀ d, (t'.de d).dirSize = if d = n then 0 else (t.de d).dirSize

theorem fillOneDirEntry_filled {dirName : CStr} (hid : (fillOneDirEntry t dirName).1 ≠ 0) :
    Filled t (fillOneDirEntry t dirName).2 (fillOneDirEntry t dirName).1 := by
  rw [fillOneDirEntry_fst] at hid ⊢
  have hset := (getUnusedDirId_spec hid).2.2
  generalize hn : (getUnusedDirId t.dirIdBitmap).1 = n at *
  have hde : ∀ d, ((fillOneDirEntry t dirName).2.de d).dirId = (t.de d).dirId ∧
      ((fillOneDirEntry t dirName).2.de d).head = (t.de d).head ∧
      ((fillOneDirEntry t dirName).2.de d).tail = (t.de d).tail ∧
      ((fillOneDirEntry t dirName).2.de d).dirSize = if d = n then 0 else (t.de d).dirSize := by
    intro d
    simp only [fillOneDirEntry, hn, if_neg hid, modifyDe, Function.update_apply]
    split_ifs with hd <;> simp_all
  constructor
  case dirId => exact fun d => (hde d).1
  case head => exact fun d => (hde d).2.1
  case tail => exact fun d => (hde d).2.2.1
  case dirSize => exact fun d => (hde d).2.2.2
  all_goals simp only [fillOneDirEntry, hn, if_neg hid, modifyDe, hset]

theorem Repr.fill (h : t.Repr children nodes) {dirName : CStr}
    (hid : (fillOneDirEntry t dirName).1 ≠ 0) :
    (fillOneDirEntry t dirName).2.Repr children nodes ∧
      (fillOneDirEntry t dirName).2.allocated = t.allocated ∧
      t.dirIdBitmap (fillOneDirEntry t dirName).1 = false ∧
      (fillOneDirEntry t dirName).2.dirIdBitmap =
        t.dirIdBitmap.set (fillOneDirEntry t dirName).1 ∧
      3 ≤ (fillOneDirEntry t dirName).1 ∧ (fillOneDirEntry t dirName).1 < 2 ^ 14 := by
  have hf := fillOneDirEntry_filled hid
  obtain ⟨hlt, hclear⟩ : (fillOneDirEntry t dirName).1 < 2 ^ 14 ∧
      t.dirIdBitmap (fillOneDirEntry t dirName).1 = false := by
    rw [fillOneDirEntry_fst] at hid ⊢
    exact ⟨(getUnusedDirId_spec hid).1, (getUnusedDirId_spec hid).2.1⟩
  generalize (fillOneDirEntry t dirName).1 = n at *
  have h3 : 3 ≤ n := by
    by_contra hlt3
    rw [h.reserved n (by omega)] at hclear
    cases hclear
  have hnil : nodes n = [] := by
    have := h.kids n
    rw [h.unused n hclear] at this
    simpa using this
  refine ⟨?_, hf.allocated, hclear, hf.dirIdBitmap, h3, hlt⟩
  refine ⟨?_, fun d hd => hf.tail d ▸ h.tail d hd⟩
  constructor
  case ids => exact fun d => (hf.dirId d).trans (h.ids d)
  case seg =>
    intro d
    have hs := h.seg d
    rw [hf.head]
    unfold DirTree.next DirTree.last at hs ⊢
    rw [hf.node]
    exact hs
  case size =>
    intro d
    rw [hf.dirSize]
    split_ifs with hd
    · rw [hd, hnil, List.length_nil]
    · exact h.size d
  case kids => exact fun d => hf.node ▸ h.kids d
  case allocated => exact fun d => hf.allocated ▸ h.allocated d
  case disjoint => exact h.disjoint
  case kids_nodup => exact h.kids_nodup
  case kids_disjoint => exact h.kids_disjoint
  case kids_used =>
    intro d c hc
    rw [hf.dirIdBitmap, Bitmap.set_iff]
    exact ⟨.inr (h.kids_used d c hc).1, (h.kids_used d c hc).2⟩
  case unused =>
    intro d hd
    refine h.unused d (Bool.eq_false_iff.mpr fun ht => ?_)
    rw [hf.dirIdBitmap, Bool.eq_false_iff, ne_eq, Bitmap.set_iff] at hd
    exact hd (.inr ht)
  case parents => exact h.parents
  case reserved =>
    intro i hi
    rw [hf.dirIdBitmap, Bitmap.set_iff]
    exact .inr (h.reserved i hi)

structure Inserted (t t' : DirTree) (parent n dle : ℕ) : Prop where
  dirIdBitmap : t'.dirIdBitmap = t.dirIdBitmap
  allocated : t'.allocated = Function.update t.allocated dle true
  others : ∀ d, d ≠ parent → t'.de d = t.de d
  dirId : (t'.de parent).dirId = (t.de parent).dirId
  dirSize : (t'.de parent).dirSize = (t.de parent).dirSize + 1
  tail : (t'.de parent).tail = dle
  head : (t'.de parent).head = if (t.de parent).dirSize = 0 then dle else (t.de parent).head
  node : ∀ p, (t'.node p).de = if p = dle then n else (t.node p).de
  next : ∀ p, t'.next p = if p = dle then 0
    else if (t.de parent).dirSize ≠ 0 ∧ p = (t.de parent).tail then dle else t.next p
  last : ∀ p, t'.last p = if p = dle then (if (t.de parent).dirSize = 0 then 0
    else (t.de parent).tail) else t.last p

theorem insertDir_inserted (t : DirTree) {parent n dle : ℕ}
    (h : (t.de parent).dirSize ≠ 0 → (t.de parent).tail ≠ dle) :
    Inserted t (insertDir t parent n dle) parent n dle := by
  by_cases hz : (t.de parent).dirSize = 0
  · constructor
    case others =>
      intro d hd
      simp [insertDir, modifyDe, hz, hd]
    case node =>
      intro p
      by_cases hp : p = dle <;> simp [insertDir, modifyDe, hz, hp]
    case next =>
      intro p
      by_cases hp : p = dle <;> simp [insertDir, modifyDe, hz, hp, DirTree.next]
    case last =>
      intro p
      by_cases hp : p = dle <;> simp [insertDir, modifyDe, hz, hp, DirTree.last]
    all_goals simp [insertDir, modifyDe, hz]
  · have ht := h hz
    constructor
    case others =>
      intro d hd
      simp [insertDir, modifyDe, modifyNode, hz, hd]
    case node =>
      intro p
      by_cases hp : p = dle
      · simp [insertDir, modifyDe, modifyNode, hz, hp, Ne.symm ht]
      · by_cases hpt : p = (t.de parent).tail <;>
          simp [insertDir, modifyDe, modifyNode, hz, hp, hpt, ht]
    case next =>
      intro p
      by_cases hp : p = dle
      · simp [insertDir, modifyDe, modifyNode, hz, hp, DirTree.next, Ne.symm ht]
      · by_cases hpt : p = (t.de parent).tail <;>
          simp [insertDir, modifyDe, modifyNode, hz, hp, hpt, ht, DirTree.next]
    case last =>
      intro p
      by_cases hp : p = dle
      · simp [insertDir, modifyDe, modifyNode, hz, hp, DirTree.last]
      · by_cases hpt : p = (t.de parent).tail <;>
          simp [insertDir, modifyDe, modifyNode, hz, hp, hpt, ht, DirTree.last]
    all_goals simp [insertDir, modifyDe, modifyNode, hz]

section snoc

variable {lists : ℕ → List ℕ} {parent a : ℕ}

theorem mem_snoc {d x : ℕ} : x ∈ Function.update lists parent (lists parent ++ [a]) d ↔
    x ∈ lists d ∨ (d = parent ∧ x = a) := by
  by_cases hd : d = parent
  · subst hd
    rw [Function.update_self, List.mem_append, List.mem_singleton]
    simp
  · rw [Function.update_of_ne hd]
    simp [hd]

theorem disjoint_snoc (h : ∀ d d', d ≠ d' → (lists d).Disjoint (lists d'))
    (ha : ∀ d, a ∉ lists d) (d d' : ℕ) (hne : d ≠ d') :
    (Function.update lists parent (lists parent ++ [a]) d).Disjoint
      (Function.update lists parent (lists parent ++ [a]) d') := by
  intro x hx hx'
  rcases mem_snoc.mp hx with h1 | ⟨rfl, rfl⟩ <;> rcases mem_snoc.mp hx' with h2 | ⟨rfl, h2⟩
  · exact h d d' hne h1 h2
  · exact ha d (h2 ▸ h1)
  · exact ha d' h2
  · exact hne rfl

theorem nodup_snoc (h : ∀ d, (lists d).Nodup) (ha : ∀ d, a ∉ lists d) (d : ℕ) :
    (Function.update lists parent (lists parent ++ [a]) d).Nodup := by
  by_cases hd : d = parent
  · rw [hd, Function.update_self, ← List.concat_eq_append]
    exact List.Nodup.concat (ha parent) (h parent)
  · rw [Function.update_of_ne hd]
    exact h d

end snoc

theorem Repr.tail_mem (h : t.Repr children nodes) {d : ℕ} (hz : (t.de d).dirSize ≠ 0) :
    ∃ xs, nodes d = xs ++ [(t.de d).tail] := by
  have hne : nodes d ≠ [] := by
    intro he
    rw [h.size, he] at hz
    exact hz rfl
  exact (List.getLast?_eq_some_iff.mp (h.tail d hne))

def TailAt (t : DirTree) (nodes : ℕ → List ℕ) (d : ℕ) : Prop :=
  if (t.de d).dirSize = 0 then nodes d = [] else ∃ xs, nodes d = xs ++ [(t.de d).tail]

theorem Repr.tailAt (h : t.Repr children nodes) (d : ℕ) : t.TailAt nodes d := by
  unfold TailAt
  split_ifs with hz
  · exact List.length_eq_zero_iff.mp ((h.size d).symm.trans hz)
  · exact h.tail_mem hz

theorem Linked.insert_seg (h : t.Linked nodes) {t' : DirTree} {parent n dle : ℕ}
    (htail : t.TailAt nodes parent) (hi : Inserted t t' parent n dle) (h0 : dle ≠ 0)
    (hnot : ∀ d, dle ∉ nodes d) (d : ℕ) :
    Seg t'.next t'.last 0 (t'.de d).head
      (Function.update nodes parent (nodes parent ++ [dle]) d) 0 := by
  have hlast : ∀ d, ∀ p ∈ nodes d, t'.last p = t.last p := by
    intro d p hmem
    rw [hi.last, if_neg (fun he : p = dle => hnot d (he ▸ hmem))]
  unfold TailAt at htail
  by_cases hd : d = parent
  · subst hd
    rw [Function.update_self, hi.head]
    split_ifs at htail ⊢ with hz
    · -- the first node of an empty list
      rw [htail]
      refine ⟨rfl, h0, ?_, ?_⟩
      · rw [hi.last, if_pos rfl, if_pos hz]
      · rw [hi.next, if_pos rfl]
        rfl
    · obtain ⟨xs, hxs⟩ := htail
      have hnd := h.nodup d
      have hseg := h.seg d
      rw [hxs] at hnd hseg ⊢
      refine hseg.snoc h0 (fun y hy => ?_) (fun y hy => hlast d y (hxs ▸ hy)) ?_ ?_ ?_
      · have hy' : y ∈ nodes d := by rw [hxs]; simp [hy]
        rw [hi.next, if_neg (fun he : y = dle => hnot d (he ▸ hy')), if_neg]
        rintro ⟨-, he⟩
        exact (List.nodup_append.mp hnd).2.2 y hy _ (by simp) he
      · have ht : (t.de d).tail ≠ dle := fun he => hnot d (by rw [hxs, he]; simp)
        rw [hi.next, if_neg ht, if_pos ⟨hz, rfl⟩]
      · rw [hi.next, if_pos rfl]
      · rw [hi.last, if_pos rfl, if_neg hz]
  · rw [Function.update_of_ne hd, hi.others d hd]
    refine (h.seg d).congr (fun p hmem => ?_) (hlast d)
    -- the old tail of `parent` is in no other list
    rw [hi.next, if_neg (fun he : p = dle => hnot d (he ▸ hmem)), if_neg]
    rintro ⟨hz, he⟩
    rw [if_neg hz] at htail
    obtain ⟨xs, hxs⟩ := htail
    exact h.disjoint d parent hd hmem (by rw [hxs, he]; simp)

theorem Linked.insert (h : t.Linked nodes) {t' : DirTree} {parent n dle : ℕ}
    (htail : t.TailAt nodes parent) (hi : Inserted t t' parent n dle) (h0 : dle ≠ 0)
    (hnot : ∀ d, dle ∉ nodes d) :
    t'.Linked (Function.update nodes parent (nodes parent ++ [dle])) :=
  ⟨h.insert_seg htail hi h0 hnot, nodup_snoc h.nodup hnot, disjoint_snoc h.disjoint hnot⟩

/-- Appending a fresh node for an unlisted directory. -/
theorem Repr.insert (h : t.Repr children nodes) {parent n dle : ℕ} (hp : parent < 2 ^ 14)
    (hused : t.dirIdBitmap parent = true) (hn : t.dirIdBitmap n = true) (h3 : 3 ≤ n ∧ n < 2 ^ 14)
    (hun : ∀ d, n ∉ children d) (h0 : dle ≠ 0) (hfresh : t.allocated dle = false) :
    (insertDir t parent n dle).Repr
      (Function.update children parent (children parent ++ [n]))
      (Function.update nodes parent (nodes parent ++ [dle])) := by
  have hnot : ∀ d, dle ∉ nodes d := by
    intro d hd
    rw [h.allocated d dle hd] at hfresh
    cases hfresh
  have hi : Inserted t (insertDir t parent n dle) parent n dle :=
      insertDir_inserted t fun hz he => by
    obtain ⟨xs, hxs⟩ := h.tail_mem hz
    exact hnot parent (by rw [hxs, he]; simp)
  have hlinked := h.linked.insert (h.tailAt parent) hi h0 hnot
  have hkeep : ∀ d, ∀ p ∈ nodes d, ((insertDir t parent n dle).node p).de = (t.node p).de := by
    intro d p hmem
    rw [hi.node, if_neg (fun he : p = dle => hnot d (he ▸ hmem))]
  have htail : ∀ d, Function.update nodes parent (nodes parent ++ [dle]) d ≠ [] →
      (Function.update nodes parent (nodes parent ++ [dle]) d).getLast? =
        some ((insertDir t parent n dle).de d).tail := by
    intro d hne
    by_cases hd : d = parent
    · rw [hd, hi.tail, Function.update_self]
      simp
    · rw [Function.update_of_ne hd] at hne ⊢
      rw [hi.others d hd]
      exact h.tail d hne
  refine ⟨?_, htail⟩
  constructor
  case ids =>
    intro d
    by_cases hd : d = parent
    · rw [hd, hi.dirId, h.ids]
    · rw [hi.others d hd, h.ids]
  case seg => exact hlinked.seg
  case size =>
    intro d
    by_cases hd : d = parent
    · rw [hd, hi.dirSize, h.size, Function.update_self, List.length_append, List.length_singleton]
    · rw [hi.others d hd, Function.update_of_ne hd, h.size]
  case kids =>
    intro d
    have hmap : (nodes d).map (fun p => ((insertDir t parent n dle).node p).de) = children d := by
      rw [← h.kids d]
      exact List.map_congr_left (hkeep d)
    by_cases hd : d = parent
    · subst hd
      rw [Function.update_self, Function.update_self, List.map_append, hmap]
      simp [hi.node]
    · rw [Function.update_of_ne hd, Function.update_of_ne hd, hmap]
  case allocated =>
    intro d p hmem
    rw [hi.allocated]
    by_cases hpd : p = dle
    · rw [hpd, Function.update_self]
    · rw [Function.update_of_ne hpd]
      exact h.allocated d p ((mem_snoc.mp hmem).resolve_right fun hp => hpd hp.2)
  case disjoint => exact hlinked.disjoint
  case kids_nodup => exact nodup_snoc h.kids_nodup hun
  case kids_disjoint => exact disjoint_snoc h.kids_disjoint hun
  case kids_used =>
    intro d c hc
    rw [hi.dirIdBitmap]
    rcases mem_snoc.mp hc with hc | ⟨-, rfl⟩
    · exact h.kids_used d c hc
    · exact ⟨hn, h3⟩
  case unused =>
    intro d hd
    rw [hi.dirIdBitmap] at hd
    have hne : d ≠ parent := by
      rintro rfl
      rw [hused] at hd
      cases hd
    rw [Function.update_of_ne hne]
    exact h.unused d hd
  case parents =>
    intro d hne
    by_cases hd : d = parent
    · exact hd ▸ hp
    · rw [Function.update_of_ne hd] at hne
      exact h.parents d hne
  case reserved => exact fun i hlt => hi.dirIdBitmap ▸ h.reserved i hlt

theorem findEntry_eq {prev p id x start k : ℕ} {xs ys : List ℕ}
    (h : Seg t.next t.last prev p (xs ++ x :: ys) 0) (hx : (t.de (t.node x).de).dirId = id)
    (hxs : ∀ y ∈ xs, (t.de (t.node y).de).dirId ≠ id) :
    findEntry t id p start (xs.length + 1 + k) = some (x, start + xs.length) := by
  induction xs generalizing prev p start with
  | nil =>
    obtain ⟨rfl, h0, -, -⟩ := h
    rw [show [].length + 1 + k = k + 1 by simp [Nat.add_comm], findEntry, if_neg h0,
      if_neg (by rw [hx]; simp)]
    rfl
  | cons y xs ih =>
    obtain ⟨rfl, h0, -, hrest⟩ := h
    have hy : id ≠ (t.de (t.node p).de).dirId := (hxs p (by simp)).symm
    rw [show (p :: xs).length + 1 + k = xs.length + 1 + k + 1 by simp; omega, findEntry,
      if_neg h0, if_pos hy]
    have hih : findEntry t id (t.node p).next (start + 1) (xs.length + 1 + k) =
        some (x, start + 1 + xs.length) := ih hrest fun z hz => hxs z (by simp [hz])
    rw [hih, List.length_cons]
    congr 2
    omega

theorem findEntry_split {d x id : ℕ} {nodes : List ℕ}
    (hseg : Seg t.next t.last 0 (t.de d).head nodes 0) (hsize : nodes.length ≤ (t.de d).dirSize)
    (hnd : (nodes.map fun p => (t.de (t.node p).de).dirId).Nodup) (hx : x ∈ nodes)
    (hid : (t.de (t.node x).de).dirId = id) :
    ∃ xs ys, nodes = xs ++ x :: ys ∧
      findEntry t id (t.de d).head 0 (t.de d).dirSize = some (x, xs.length) := by
  obtain ⟨xs, ys, rfl⟩ := List.append_of_mem hx
  refine ⟨xs, ys, rfl, ?_⟩
  rw [List.map_append, List.map_cons, List.nodup_append] at hnd
  rw [List.length_append, List.length_cons] at hsize
  obtain ⟨k, hk⟩ : ∃ k, (t.de d).dirSize = xs.length + 1 + k :=
    Nat.exists_eq_add_of_le (by omega)
  have hnot : ∀ y ∈ xs, (t.de (t.node y).de).dirId ≠ id := by
    intro y hy he
    exact hnd.2.2 _ (List.mem_map_of_mem hy) _ List.mem_cons_self (he.trans hid.symm)
  rw [hk, findEntry_eq hseg hid hnot, Nat.zero_add]

/-- What the removal of node `x` at position `start` writes when the removed directory has
size 0. The tail of the parent is not among it. -/
structure Unlinked (t t' : DirTree) (parent x start : ℕ) : Prop where
  dirIdBitmap : t'.dirIdBitmap = t.dirIdBitmap
  allocated : t'.allocated = Function.update t.allocated x false
  dirId : ∀ d, (t'.de d).dirId = (t.de d).dirId
  dirSize : ∀ d, (t'.de d).dirSize =
    if d = parent then (t.de d).dirSize - 1 else (t.de d).dirSize
  tail : ∀ d, (t'.de d).tail = (t.de d).tail
  head : ∀ d, (t'.de d).head =
    if d = parent ∧ start = 0 then t.next x else (t.de d).head
  node : ∀ p, (t'.node p).de = (t.node p).de
  next : ∀ p, p ≠ x → t'.next p =
    if start ≠ 0 ∧ t.last x ≠ 0 ∧ p = t.last x then t.next x else t.next p
  last : ∀ p, p ≠ x → t'.last p =
    if t.next x ≠ 0 ∧ p = t.next x then t.last x else t.last p

/-- `dir_size - 1` of a directory of size 0 is the largest `unsigned long`: the branch that
would move the tail of the parent is never taken. -/
theorem relinkNext_eq {parent dir last next start : ℕ} (hsize : (t.de dir).dirSize = 0)
    (hstart : start < 2 ^ 64 - 1) :
    relinkNext t parent dir last next start =
      if next ≠ 0 then t.modifyNode next fun n => { n with last := last } else t := by
  have hmax : ¬ start = ((t.de dir).dirSize + (2 ^ 64 - 1)) % 2 ^ 64 := by omega
  rw [relinkNext, if_neg hmax]

section relink

variable (t) (parent dir last next start : ℕ)

theorem relinkPrev_de (d : ℕ) : (relinkPrev t parent last next start).de d =
    { t.de d with head := if d = parent ∧ start = 0 then next else (t.de d).head } := by
  by_cases hs : start = 0
  · rw [relinkPrev, if_pos hs, modifyDe_de]
    by_cases hd : d = parent <;> simp [hd, hs]
  · by_cases hl : last = 0 <;> simp [relinkPrev, hs, hl]

theorem relinkPrev_next (p : ℕ) : (relinkPrev t parent last next start).next p =
    if start ≠ 0 ∧ last ≠ 0 ∧ p = last then next else t.next p := by
  by_cases hs : start = 0
  · simp [relinkPrev, hs, DirTree.next]
  · by_cases hl : last = 0
    · simp [relinkPrev, hs, hl]
    · simp [relinkPrev, hs, hl, next_setNext]

theorem relinkPrev_last : (relinkPrev t parent last next start).last = t.last := by
  unfold relinkPrev
  split_ifs
  · rfl
  · exact last_setNext t last next
  · rfl

theorem relinkPrev_node (p : ℕ) :
    ((relinkPrev t parent last next start).node p).de = (t.node p).de := by
  unfold relinkPrev
  split_ifs
  · rfl
  · apply node_de_modifyNode
    intro _
    rfl
  · rfl

theorem relinkPrev_frame :
    (relinkPrev t parent last next start).allocated = t.allocated ∧
      (relinkPrev t parent last next start).dirIdBitmap = t.dirIdBitmap := by
  unfold relinkPrev
  split_ifs <;> exact ⟨rfl, rfl⟩

theorem freeEntry_de (x d : ℕ) : (freeEntry t parent x).de d =
    { t.de d with dirSize := if d = parent then (t.de d).dirSize - 1 else (t.de d).dirSize } := by
  unfold freeEntry
  simp only [modifyNode_de, modifyDe_de]
  split_ifs with hd <;> simp_all

theorem freeEntry_node {x p : ℕ} (h : p ≠ x) : (freeEntry t parent x).node p = t.node p := by
  simp [freeEntry, modifyNode_node, h]

theorem freeEntry_node_de (x p : ℕ) : ((freeEntry t parent x).node p).de = (t.node p).de := by
  by_cases h : p = x
  · simp [freeEntry, modifyNode_node, h]
  · rw [freeEntry_node t parent h]

end relink

theorem unlinkEntry_unlinked {parent dir x start : ℕ}
    (hsize : (t.de dir).dirSize = 0) (hstart : start < 2 ^ 64 - 1) :
    Unlinked t (unlinkEntry t parent dir x start) parent x start := by
  generalize hu : relinkPrev t parent (t.node x).last (t.node x).next start = u
  have hde := relinkPrev_de t parent (t.node x).last (t.node x).next start
  have hnext := relinkPrev_next t parent (t.node x).last (t.node x).next start
  have hlast := relinkPrev_last t parent (t.node x).last (t.node x).next start
  have hnode := relinkPrev_node t parent (t.node x).last (t.node x).next start
  have hframe := relinkPrev_frame t parent (t.node x).last (t.node x).next start
  rw [hu] at hde hnext hlast hnode hframe
  have hsize1 : (u.de dir).dirSize = 0 := by rw [hde, hsize]
  -- the two assignments left: the back pointer of the successor, and the freed node
  obtain ⟨w, hw, hwde, hwnext, hwlast, hwnode, hwframe⟩ : ∃ w : DirTree,
      unlinkEntry t parent dir x start = freeEntry w parent x ∧ w.de = u.de ∧ w.next = u.next ∧
      (∀ p, w.last p = if (t.node x).next ≠ 0 ∧ p = (t.node x).next then (t.node x).last
        else u.last p) ∧
      (∀ p, (w.node p).de = (u.node p).de) ∧
      w.allocated = u.allocated ∧ w.dirIdBitmap = u.dirIdBitmap := by
    refine ⟨_, by rw [unlinkEntry, hu, relinkNext_eq hsize1 hstart], ?_⟩
    by_cases h0 : (t.node x).next = 0
    · simp [h0]
    · simp only [ne_eq, h0, not_false_eq_true, if_true, true_and, modifyNode_de, next_setLast]
      exact ⟨last_setLast u _ _, node_de_modifyNode u _ fun _ => rfl, rfl, rfl⟩
  rw [hw]
  constructor
  case dirIdBitmap => exact hwframe.2.trans hframe.2
  case allocated =>
    rw [← hframe.1, ← hwframe.1]
    rfl
  case dirId => exact fun d => by rw [freeEntry_de, hwde, hde]
  case dirSize => exact fun d => by rw [freeEntry_de, hwde, hde]
  case tail => exact fun d => by rw [freeEntry_de, hwde, hde]
  case head =>
    intro d
    rw [freeEntry_de, hwde, hde]
    rfl
  case node => exact fun p => by rw [freeEntry_node_de, hwnode, hnode]
  case next =>
    intro p hp
    rw [DirTree.next, freeEntry_node _ _ hp]
    exact (congrFun hwnext p).trans (hnext p)
  case last =>
    intro p hp
    rw [DirTree.last, freeEntry_node _ _ hp]
    exact (hwlast p).trans (by rw [hlast]; rfl)

theorem clearEntry_de (t : DirTree) (dir d : ℕ) :
    ((clearEntry t dir).de d).dirId = (t.de d).dirId ∧
      ((clearEntry t dir).de d).dirSize = (t.de d).dirSize ∧
      ((clearEntry t dir).de d).head = (if d = dir then 0 else (t.de d).head) ∧
      ((clearEntry t dir).de d).tail = if d = dir then 0 else (t.de d).tail := by
  simp only [clearEntry, modifyDe_de]
  by_cases h : d = dir <;> simp [h]

theorem clearEntry_frame (t : DirTree) (dir : ℕ) :
    (clearEntry t dir).node = t.node ∧ (clearEntry t dir).allocated = t.allocated ∧
      (clearEntry t dir).dirIdBitmap = t.dirIdBitmap.clear (t.de dir).dirId := by
  refine ⟨rfl, rfl, ?_⟩
  simp [clearEntry, modifyDe_de]

theorem length_le_of_ids {ids : List ℕ} (hnd : ids.Nodup) {n : ℕ} (hlt : ∀ c ∈ ids, c < n) :
    ids.length ≤ n := by
  have hsub : ids.toFinset ⊆ Finset.range n := by
    intro c hc
    exact Finset.mem_range.mpr (hlt c (List.mem_toFinset.mp hc))
  have hcard := Finset.card_le_card hsub
  rwa [List.toFinset_card_of_nodup hnd, Finset.card_range] at hcard

theorem Shape.length_le (h : t.Shape children nodes) (d : ℕ) : (nodes d).length ≤ 2 ^ 14 := by
  have hle := length_le_of_ids (h.kids_nodup d) fun c hc => (h.kids_used d c hc).2.2
  rwa [← h.kids d, List.length_map] at hle

theorem Shape.erase (h : t.Shape children nodes) {parent x : ℕ} {xs ys : List ℕ}
    (hnodes : nodes parent = xs ++ x :: ys) :
    (children parent).erase (t.node x).de = (xs ++ ys).map (fun p => (t.node p).de) := by
  have hkids := h.kids parent
  rw [hnodes, List.map_append, List.map_cons] at hkids
  have hnot : (t.node x).de ∉ xs.map (fun p => (t.node p).de) := fun hmem =>
    (List.nodup_append.mp (hkids ▸ h.kids_nodup parent)).2.2 _ hmem _ (by simp) rfl
  rw [← hkids, List.erase_append_right _ hnot, List.erase_cons_head, List.map_append]

theorem Linked.mem_rest (h : t.Linked nodes) {parent x : ℕ} {xs ys : List ℕ}
    (hnodes : nodes parent = xs ++ x :: ys) (d p : ℕ)
    (hp : p ∈ Function.update nodes parent (xs ++ ys) d) : p ∈ nodes d ∧ p ≠ x := by
  by_cases hd : d = parent
  · subst hd
    have hnd := h.nodup d
    rw [Function.update_self, List.mem_append] at hp
    rw [hnodes, List.nodup_middle, List.nodup_cons, List.mem_append] at hnd
    refine ⟨?_, fun he => hnd.1 (he ▸ hp)⟩
    rw [hnodes]
    rcases hp with hp | hp <;> simp [hp]
  · rw [Function.update_of_ne hd] at hp
    exact ⟨hp, fun he => h.disjoint d parent hd hp (by rw [hnodes, he]; simp)⟩

theorem neighbours {p x : ℕ} {xs ys : List ℕ} (h : Seg t.next t.last 0 p (xs ++ x :: ys) 0) :
    (∀ q, q ≠ 0 → q = t.last x → xs ≠ [] ∧ q ∈ xs ++ x :: ys) ∧
      ∀ q, q ≠ 0 → q = t.next x → q ∈ xs ++ x :: ys := by
  have hlx : t.last x = xs.getLastD 0 := (seg_append.mp h).choose_spec.2.2.2.1
  have hnx : t.next x = ys.headD 0 := (seg_append.mp h).choose_spec.2.2.2.2.start
  constructor
  · intro q h0 hq
    rcases List.eq_nil_or_concat xs with rfl | ⟨zs, z, rfl⟩
    · exact absurd (hq.trans hlx) (by simpa using h0)
    · refine ⟨by simp, ?_⟩
      rw [hq, hlx]
      simp
  · intro q h0 hq
    cases ys with
    | nil => exact absurd (hq.trans hnx) (by simpa using h0)
    | cons z zs =>
      rw [hq, hnx]
      simp

/-- The list of the parent after the links around `x` are rewritten. -/
theorem Unlinked.seg {u : DirTree} {parent x : ℕ} {xs ys : List ℕ}
    (hu : Unlinked t u parent x xs.length)
    (h : Seg t.next t.last 0 (t.de parent).head (xs ++ x :: ys) 0) (hnd : (xs ++ x :: ys).Nodup) :
    Seg u.next u.last 0 (u.de parent).head (xs ++ ys) 0 := by
  obtain ⟨hprev, -⟩ := neighbours h
  have hin : ∀ y ∈ xs ++ ys, y ≠ 0 ∧ y ≠ x := by
    intro y hy
    rw [List.nodup_middle, List.nodup_cons] at hnd
    refine ⟨h.ne_zero y ?_, fun he => hnd.1 (he ▸ hy)⟩
    rcases List.mem_append.mp hy with hy | hy <;> simp [hy]
  rw [hu.head]
  refine h.unlink hnd (by cases xs <;> simp) (fun y hy => ?_) (fun y hy => ?_)
  · obtain ⟨hy0, hyx⟩ := hin y hy
    rw [hu.next y hyx]
    by_cases he : y = t.last x
    · have hpos := List.length_pos_iff.mpr (hprev y hy0 he).1
      rw [if_pos he, if_pos ⟨hpos.ne', he ▸ hy0, he⟩]
    · rw [if_neg he, if_neg fun hc => he hc.2.2]
  · obtain ⟨hy0, hyx⟩ := hin y hy
    rw [hu.last y hyx]
    by_cases he : y = t.next x
    · rw [if_pos he, if_pos ⟨he ▸ hy0, he⟩]
    · rw [if_neg he, if_neg fun hc => he hc.2]

theorem Linked.unlink_seg (h : t.Linked nodes) {u : DirTree} {parent x : ℕ}
    {xs ys : List ℕ} (hnodes : nodes parent = xs ++ x :: ys)
    (hu : Unlinked t u parent x xs.length) (d : ℕ) :
    Seg u.next u.last 0 (u.de d).head (Function.update nodes parent (xs ++ ys) d) 0 := by
  have hnd := h.nodup parent
  have hseg := h.seg parent
  rw [hnodes] at hnd hseg
  by_cases hd : d = parent
  · subst hd
    rw [Function.update_self]
    exact hu.seg hseg hnd
  · obtain ⟨hprev, hsucc⟩ := neighbours hseg
    rw [← hnodes] at hprev hsucc
    rw [Function.update_of_ne hd, hu.head, if_neg fun hp => hd hp.1]
    have hne0 : ∀ p ∈ nodes d, p ≠ 0 := (h.seg d).ne_zero
    have hout : ∀ p ∈ nodes d, p ∉ nodes parent := fun p hp => h.disjoint d parent hd hp
    have hpx : ∀ p ∈ nodes d, p ≠ x := fun p hp he => hout p hp (by rw [hnodes, he]; simp)
    refine (h.seg d).congr (fun p hp => ?_) (fun p hp => ?_)
    · rw [hu.next p (hpx p hp), if_neg fun hc => hout p hp (hprev p (hne0 p hp) hc.2.2).2]
    · rw [hu.last p (hpx p hp), if_neg fun hc => hout p hp (hsucc p (hne0 p hp) hc.2)]

theorem sublist_rest {parent x : ℕ} {xs ys : List ℕ} (hnodes : nodes parent = xs ++ x :: ys)
    (d : ℕ) : (Function.update nodes parent (xs ++ ys) d).Sublist (nodes d) := by
  by_cases hd : d = parent
  · rw [hd, Function.update_self, hnodes]
    exact (List.sublist_cons_self x ys).append_left xs
  · rw [Function.update_of_ne hd]

theorem Linked.remove (h : t.Linked nodes) {u : DirTree} {parent child x : ℕ} {xs ys : List ℕ}
    (hnodes : nodes parent = xs ++ x :: ys) (hnil : nodes child = [])
    (hu : Unlinked t u parent x xs.length) :
    (clearEntry u child).Linked (Function.update nodes parent (xs ++ ys)) := by
  have hrest := h.mem_rest hnodes
  have hne : child ≠ parent := by
    rintro rfl
    rw [hnil] at hnodes
    simp at hnodes
  constructor
  case seg =>
    intro d
    have hseg := h.unlink_seg hnodes hu d
    rw [(clearEntry_de u child d).2.2.1]
    by_cases hc : d = child
    · rw [if_pos hc, hc, Function.update_of_ne hne, hnil]
      rfl
    · rw [if_neg hc]
      exact hseg
  case nodup => exact fun d => (h.nodup d).sublist (sublist_rest hnodes d)
  case disjoint =>
    exact fun d d' hdd p hp hp' => h.disjoint d d' hdd (hrest d p hp).1 (hrest d' p hp').1

theorem Shape.mem_erase (h : t.Shape children nodes) {parent child : ℕ}
    (hchild : child ∈ children parent) (d c : ℕ)
    (hc : c ∈ Function.update children parent ((children parent).erase child) d) :
    c ∈ children d ∧ c ≠ child := by
  by_cases hd : d = parent
  · subst hd
    rw [Function.update_self] at hc
    exact ⟨List.mem_of_mem_erase hc, fun he => (h.kids_nodup d).not_mem_erase (he ▸ hc)⟩
  · rw [Function.update_of_ne hd] at hc
    exact ⟨hc, fun he => h.kids_disjoint d parent hd hc (he ▸ hchild)⟩

/-- Removing the node `x` of a childless directory, wherever it stands. -/
theorem Shape.remove (h : t.Shape children nodes) {parent child x : ℕ} {xs ys : List ℕ}
    (hnodes : nodes parent = xs ++ x :: ys) (hx : (t.node x).de = child)
    (hleaf : children child = []) :
    (clearEntry (unlinkEntry t parent child x xs.length) child).Shape
        (Function.update children parent ((children parent).erase child))
        (Function.update nodes parent (xs ++ ys)) ∧
      ∀ d, d ≠ child →
        ((clearEntry (unlinkEntry t parent child x xs.length) child).de d).tail =
          (t.de d).tail := by
  have hnil : nodes child = [] := by
    have := h.kids child
    rw [hleaf] at this
    simpa using this
  have hchild : child ∈ children parent := by
    rw [← h.kids parent, hnodes, ← hx]
    simp
  have hu : Unlinked t (unlinkEntry t parent child x xs.length) parent x xs.length := by
    have hlen := h.length_le parent
    rw [hnodes, List.length_append, List.length_cons] at hlen
    refine unlinkEntry_unlinked ?_ (by omega)
    rw [h.size, hnil, List.length_nil]
  generalize unlinkEntry t parent child x xs.length = u at hu ⊢
  have hlinked := h.linked.remove hnodes hnil hu
  have hcde := clearEntry_de u child
  obtain ⟨hcnode, hcall, hcbm⟩ := clearEntry_frame u child
  rw [hu.dirId, h.ids, hu.dirIdBitmap] at hcbm
  have hrest := h.linked.mem_rest hnodes
  have hkids := h.mem_erase hchild
  refine ⟨?_, fun d hd => by rw [(hcde d).2.2.2, if_neg hd, hu.tail]⟩
  constructor
  case ids => exact fun d => by rw [(hcde d).1, hu.dirId, h.ids]
  case seg => exact hlinked.seg
  case size =>
    intro d
    rw [(hcde d).2.1, hu.dirSize]
    by_cases hd : d = parent
    · subst hd
      rw [if_pos rfl, Function.update_self, h.size, hnodes]
      simp
    · rw [if_neg hd, Function.update_of_ne hd, h.size]
  case kids =>
    intro d
    simp only [hcnode, hu.node]
    by_cases hd : d = parent
    · subst hd
      rw [Function.update_self, Function.update_self, ← hx, h.erase hnodes]
    · rw [Function.update_of_ne hd, Function.update_of_ne hd, h.kids]
  case allocated =>
    intro d p hp
    rw [hcall, hu.allocated, Function.update_of_ne (hrest d p hp).2]
    exact h.allocated d p (hrest d p hp).1
  case disjoint => exact hlinked.disjoint
  case kids_nodup =>
    intro d
    by_cases hd : d = parent
    · subst hd
      rw [Function.update_self]
      exact (h.kids_nodup d).erase child
    · rw [Function.update_of_ne hd]
      exact h.kids_nodup d
  case kids_disjoint =>
    exact fun d d' hdd c hc hc' => h.kids_disjoint d d' hdd (hkids d c hc).1 (hkids d' c hc').1
  case kids_used =>
    intro d c hc
    rw [hcbm, Bitmap.clear_of_ne _ (hkids d c hc).2]
    exact h.kids_used d c (hkids d c hc).1
  case unused =>
    intro d hd
    refine List.eq_nil_iff_forall_not_mem.mpr fun c hc => ?_
    have hmem := (hkids d c hc).1
    by_cases hdc : d = child
    · rw [hdc, hleaf] at hmem
      simp at hmem
    · rw [hcbm, Bitmap.clear_of_ne _ hdc] at hd
      rw [h.unused d hd] at hmem
      simp at hmem
  case parents =>
    intro d hd
    obtain ⟨c, hc⟩ := List.exists_mem_of_ne_nil _ hd
    exact h.parents d (List.ne_nil_of_mem (hkids d c hc).1)
  case reserved =>
    intro i hi
    have h3 := (h.kids_used parent child hchild).2.1
    rw [hcbm, Bitmap.clear_of_ne _ (by omega)]
    exact h.reserved i hi

theorem Shape.child_ne (h : t.Shape children nodes) {parent child x : ℕ} {xs ys : List ℕ}
    (hnodes : nodes parent = xs ++ x :: ys) (hleaf : children child = []) : parent ≠ child := by
  rintro rfl
  have hkids := h.kids parent
  rw [hleaf, hnodes] at hkids
  simp at hkids

/-- The whole layout is kept when the removed node is not behind others at the end. -/
theorem Repr.remove (h : t.Repr children nodes) {parent child x : ℕ} {xs ys : List ℕ}
    (hnodes : nodes parent = xs ++ x :: ys) (hx : (t.node x).de = child)
    (hleaf : children child = []) (hlast : ys = [] → xs = []) :
    (clearEntry (unlinkEntry t parent child x xs.length) child).Repr
      (Function.update children parent ((children parent).erase child))
      (Function.update nodes parent (xs ++ ys)) := by
  obtain ⟨hshape, htail⟩ := h.toShape.remove hnodes hx hleaf
  refine ⟨hshape, fun d hd => ?_⟩
  by_cases hdp : d = parent
  · subst hdp
    have hend := h.tail d (by rw [hnodes]; simp)
    rw [hnodes] at hend
    rw [Function.update_self] at hd ⊢
    rw [htail d (h.child_ne hnodes hleaf)]
    cases ys with
    | nil => simp [hlast rfl] at hd
    | cons z zs =>
      rw [← hend]
      simp [List.getLast?_append, List.getLast?_cons]
  · rw [Function.update_of_ne hdp] at hd ⊢
    have hdc : d ≠ child := by
      rintro rfl
      have hkids := h.kids d
      rw [hleaf] at hkids
      exact hd (List.map_eq_nil_iff.mp hkids)
    rw [htail d hdc]
    exact h.tail d hd

/-- Otherwise the tail pointer stays at the removed node. -/
theorem Repr.not_lists_of_last (h : t.Repr children nodes) {parent child x : ℕ} {xs : List ℕ}
    (hnodes : nodes parent = xs ++ [x]) (hxs : xs ≠ []) (hx : (t.node x).de = child)
    (hleaf : children child = []) :
    ¬ (clearEntry (unlinkEntry t parent child x xs.length) child).Lists parent
      ((children parent).erase child) := by
  intro hl
  obtain ⟨hshape, htail⟩ := h.toShape.remove hnodes hx hleaf
  have hv := hshape.visited parent
  have hsz := hshape.size parent
  have hend := h.tail parent (by rw [hnodes]; simp)
  have hnd := h.nodup parent
  rw [hnodes] at hend hnd
  rw [Function.update_self, List.append_nil] at hv hsz
  have ht := hl.tail (by rw [hsz]; exact List.length_pos_iff.mpr hxs)
  rw [hv, htail parent (h.child_ne hnodes hleaf)] at ht
  simp only [List.getLast?_append, List.getLast?_singleton, Option.some_or] at hend
  rw [← hend] at ht
  have hmem : x ∈ xs := List.mem_of_getLast? ht
  rw [List.nodup_append] at hnd
  exact hnd.2.2 x hmem x (by simp) rfl

end DirTree

def KeepsTail (s : DirRun) : DirOp → Prop
  | .mkdir _ _ _ => True
  | .rmdir parent child _ => s.children parent = [child] ∨ (s.children parent).getLast? ≠ some child

instance (s : DirRun) : (op : DirOp) → Decidable (KeepsTail s op)
  | .mkdir _ _ _ => .isTrue trivial
  | .rmdir parent child _ => inferInstanceAs
      (Decidable (s.children parent = [child] ∨ (s.children parent).getLast? ≠ some child))

/-- Every directory's list is the list of its children. -/
def ListsChildren (s : DirRun) : Prop := ∀ d, s.sb.dtree.Lists d (s.children d)

theorem mkdir_repr {s s' : DirRun} {nodes : ℕ → List ℕ} {parent : ℕ} {dirName : CStr} {dle : ℕ}
    (h : s.sb.dtree.Repr s.children nodes)
    (hstep : dirStep s (.mkdir parent dirName dle) = some s') :
    ∃ nodes', s'.sb.dtree.Repr s'.children nodes' := by
  simp only [dirStep] at hstep
  split_ifs at hstep with hg
  obtain ⟨hlive, hid, h0, hfresh⟩ := hg
  cases hstep
  obtain ⟨hfill, hal, hclear, hbm, h3, hlt⟩ := h.fill hid
  refine ⟨_, hfill.insert hlive.2.1 ?_ ?_ ⟨h3, hlt⟩ (fun d hmem => ?_) h0 (hal ▸ hfresh)⟩
  · rw [hbm, Bitmap.set_iff]
    exact .inr hlive.2.2
  · rw [hbm, Bitmap.set_self]
  · rw [(h.kids_used d _ hmem).1] at hclear
    cases hclear

/-- `remove_dir` when its search finds the node `x` at position `start`. -/
theorem removeDir_found {sb : SbInfo} {parentIno dirIno : BitVec 64} (bigDirId : ℤ) {x start : ℕ}
    (h : findEntry sb.dtree (sb.dtree.de (inodeToDirId dirIno).toNat).dirId
      (sb.dtree.de (inodeToDirId parentIno).toNat).head 0
      (sb.dtree.de (inodeToDirId parentIno).toNat).dirSize = some (x, start)) :
    (removeDir sb parentIno dirIno bigDirId).dtree =
      clearEntry (unlinkEntry sb.dtree (inodeToDirId parentIno).toNat (inodeToDirId dirIno).toNat
        x start) (inodeToDirId dirIno).toNat := by
  rw [removeDir]
  simp only [h]
  split_ifs <;> rfl

/-- `remove_dir` of a listed child finds its node, unlinks it and keeps the tail pointer. -/
theorem removeDir_dtree {s : DirRun} {nodes : ℕ → List ℕ} {parent child : ℕ} (bigDirId : ℤ)
    (h : s.sb.dtree.Repr s.children nodes) (hmem : child ∈ s.children parent) :
    ∃ xs x ys, nodes parent = xs ++ x :: ys ∧ (s.sb.dtree.node x).de = child ∧
      (removeDir s.sb (dirIdToInode (BitVec.ofNat 64 parent))
        (dirIdToInode (BitVec.ofNat 64 child)) bigDirId).dtree =
      clearEntry (unlinkEntry s.sb.dtree parent child x xs.length) child := by
  have hp : parent < 2 ^ 14 := h.parents parent (List.ne_nil_of_mem hmem)
  have hc := (h.kids_used parent child hmem).2.2
  rw [← h.kids parent] at hmem
  obtain ⟨x, hxmem, hx⟩ := List.mem_map.mp hmem
  have hnd : ((nodes parent).map fun p =>
      (s.sb.dtree.de (s.sb.dtree.node p).de).dirId).Nodup := by
    simp only [h.ids, h.kids]
    exact h.kids_nodup parent
  obtain ⟨xs, ys, hnodes, hfind⟩ := DirTree.findEntry_split (h.seg parent) (h.size parent).ge hnd
    hxmem ((h.ids _).trans hx)
  refine ⟨xs, x, ys, hnodes, hx, ?_⟩
  have hpd : (inodeToDirId (dirIdToInode (BitVec.ofNat 64 parent))).toNat = parent :=
    inodeToDirId_dirIdToInode (by omega)
  have hcd : (inodeToDirId (dirIdToInode (BitVec.ofNat 64 child))).toNat = child :=
    inodeToDirId_dirIdToInode (by omega)
  rw [removeDir_found bigDirId (by rw [hpd, hcd, h.ids, hfind]), hpd,
    hcd]

/-- The last child is taken exactly when no node follows the one of the child. -/
theorem keepsTail_iff {s : DirRun} {parent child x : ℕ} {bigDirId : ℤ} {xs ys : List ℕ}
    {name : ℕ → ℕ} (hnd : (s.children parent).Nodup)
    (hkids : s.children parent = (xs ++ x :: ys).map name) (hx : name x = child) :
    KeepsTail s (.rmdir parent child bigDirId) ↔ (ys = [] → xs = []) := by
  rw [List.map_append, List.map_cons, hx] at hkids
  rw [hkids] at hnd
  rw [KeepsTail, hkids]
  rcases List.eq_nil_or_concat ys with rfl | ⟨zs, z, rfl⟩
  · cases xs <;> simp [List.getLast?_cons, List.getLast?_append]
  · refine iff_of_true (.inr fun he => ?_) (by simp)
    have hz : name z = child := by simpa [List.getLast?_append, List.getLast?_cons] using he
    simp [List.nodup_append, hz] at hnd

/-- An `rmdir` leaves every list right exactly when it does not take the last of several
children: the tail pointer of the parent would then still be at the freed node. -/
theorem rmdir_repr {s s' : DirRun} {nodes : ℕ → List ℕ} {parent child : ℕ} {bigDirId : ℤ}
    (h : s.sb.dtree.Repr s.children nodes)
    (hstep : dirStep s (.rmdir parent child bigDirId) = some s') :
    (KeepsTail s (.rmdir parent child bigDirId) →
      ∃ nodes', s'.sb.dtree.Repr s'.children nodes') ∧
    (ListsChildren s' → KeepsTail s (.rmdir parent child bigDirId)) := by
  simp only [dirStep] at hstep
  split_ifs at hstep with hg
  obtain ⟨hmem, hleaf⟩ := hg
  cases hstep
  obtain ⟨xs, x, ys, hnodes, hx, hdtree⟩ := removeDir_dtree bigDirId h hmem
  have hkids : s.children parent = (xs ++ x :: ys).map fun p => (s.sb.dtree.node p).de := by
    rw [← hnodes, h.kids]
  rw [keepsTail_iff (h.kids_nodup parent) hkids hx]
  constructor
  · intro hlast
    exact ⟨_, hdtree ▸ h.remove hnodes hx hleaf hlast⟩
  · intro hall hys
    by_contra hxs
    have hlists := hall parent
    dsimp only at hlists
    rw [hdtree, Function.update_self] at hlists
    rw [hys] at hnodes
    exact h.not_lists_of_last hnodes hxs hx hleaf hlists

/-- A run in which no `rmdir` takes the last of several children keeps the layout. -/
theorem dirTree_repr {mem : ℕ → ℕ → UInt8} {heap : ℕ → DirListEntry} {s : DirRun}
    (h : Reach dirStep KeepsTail ⟨fillSuper mem heap, fun _ => []⟩ s) :
    ∃ nodes, s.sb.dtree.Repr s.children nodes := by
  refine h.invariant (fun s => ∃ nodes, s.sb.dtree.Repr s.children nodes)
    ⟨_, DirTree.repr_init mem heap⟩ ?_
  rintro s op s' ⟨nodes, hr⟩ hok hstep
  cases op with
  | mkdir parent dirName dle => exact mkdir_repr hr hstep
  | rmdir parent child bigDirId => exact (rmdir_repr hr hstep).1 hok

/-- In every run in which no `rmdir` takes the last of several children, every directory's
list is right in every state; and a step from there keeps that exactly when it is no such
`rmdir`. -/
theorem dirTree_run {mem : ℕ → ℕ → UInt8} {heap : ℕ → DirListEntry} {s : DirRun}
    (h : Reach dirStep KeepsTail ⟨fillSuper mem heap, fun _ => []⟩ s) :
    ListsChildren s ∧
      ∀ op s', dirStep s op = some s' → (ListsChildren s' ↔ KeepsTail s op) := by
  obtain ⟨nodes, hr⟩ := dirTree_repr h
  refine ⟨hr.lists, fun op s' hstep => ?_⟩
  cases op with
  | mkdir parent dirName dle =>
    obtain ⟨nodes', hr'⟩ := mkdir_repr hr hstep
    exact iff_of_true hr'.lists trivial
  | rmdir parent child bigDirId =>
    obtain ⟨hkeep, hneed⟩ := rmdir_repr hr hstep
    refine ⟨hneed, fun hok => ?_⟩
    obtain ⟨nodes', hr'⟩ := hkeep hok
    exact hr'.lists

def zeroTree : DirRun := ⟨fillSuper (fun _ _ => 0) (fun _ => ⟨0, 0, 0⟩), fun _ => []⟩

theorem dirTree_run_remove_first : ∃ s : DirRun,
    run dirStep KeepsTail zeroTree
      [.mkdir 2 [97] 1, .mkdir 2 [98] 2, .rmdir 2 3 (-1)] = some s ∧
    s.children 2 = [4] ∧ ListsChildren s := by
  obtain ⟨s, hrun, hkids⟩ := exists_of_check
    (r := run dirStep KeepsTail zeroTree [.mkdir 2 [97] 1, .mkdir 2 [98] 2, .rmdir 2 3 (-1)])
    (p := fun s => s.children 2 = [4]) (by decide +kernel)
  exact ⟨s, hrun, hkids, (dirTree_run (.of_run hrun)).1⟩

/-- After `mkdir a`, `mkdir b`, `rmdir b`, `mkdir c` under the root a walk meets `a` alone. -/
theorem removeDir_loses_child : ∃ s : DirRun,
    run dirStep anyStep zeroTree
      [.mkdir 2 [97] 1, .mkdir 2 [98] 2, .rmdir 2 4 (-1), .mkdir 2 [99] 3] = some s ∧
    s.children 2 = [3, 4] ∧ s.sb.dtree.visited 2 = [1] ∧ (s.sb.dtree.de 2).dirSize = 2 ∧
    ¬ ListsChildren s := by
  obtain ⟨s, hrun, hkids, hvisited, hsize⟩ := exists_of_check
    (r := run dirStep anyStep zeroTree
      [.mkdir 2 [97] 1, .mkdir 2 [98] 2, .rmdir 2 4 (-1), .mkdir 2 [99] 3])
    (p := fun s => s.children 2 = [3, 4] ∧ s.sb.dtree.visited 2 = [1] ∧
      (s.sb.dtree.de 2).dirSize = 2) (by decide +kernel)
  refine ⟨s, hrun, hkids, hvisited, hsize, fun hall => ?_⟩
  have := (hall 2).size
  rw [hvisited, hsize] at this
  simp at this

end FlatFS
