import FlatFS.DirTreeRun
import FlatFS.Lib.Acyclic

namespace FlatFS
open Lib

/-- The superblock with the addresses that `kzalloc` has given to list nodes so far; none of them
is given a second time. -/
structure IdRun where
  sb : SbInfo
  used : ℕ → Bool

inductive IdOp
  | mkdir (parent : ℕ) (dirName : CStr) (dle : ℕ)
  | remove (parent dir : ℕ) (bigDirId : ℤ)

/-- `fill_one_dir_entry` and `insert_dir` under a live parent while an id is free, and
`remove_dir` of a directory of size 0. -/
def idStep (s : IdRun) : IdOp → Option IdRun
  | .mkdir parent dirName dle =>
    let r := fillOneDirEntry s.sb.dtree dirName
    if s.sb.dtree.Live parent ∧ r.1 ≠ 0 ∧ dle ≠ 0 ∧ s.used dle = false then
      some ⟨{ s.sb with dtree := insertDir r.2 parent r.1 dle }, Function.update s.used dle true⟩
    else none
  | .remove parent dir bigDirId =>
    if parent < 2 ^ 14 ∧ dir < 2 ^ 14 ∧ (s.sb.dtree.de dir).dirSize = 0 then
      some ⟨removeDir s.sb (dirIdToInode (BitVec.ofNat 64 parent))
        (dirIdToInode (BitVec.ofNat 64 dir)) bigDirId, s.used⟩
    else none

namespace DirTree

/-- The ids met from the head of a directory's list on, `dir_size` of them at most. -/
def listed (t : DirTree) (d : ℕ) : List ℕ :=
  (walk t.next (t.de d).head (t.de d).dirSize).map fun p => (t.de (t.node p).de).dirId

/-- Ids are counted and issued once, and the lists make a forest of ids in use. -/
structure Forest (t : DirTree) : Prop where
  count : t.dirEntryNum = t.dirIdBitmap.weight (2 ^ 14) - 2
  reserved : t.dirIdBitmap 0 = true ∧ t.dirIdBitmap 1 = true ∧ t.dirIdBitmap 2 = true
  issued : ∀ dirName, (fillOneDirEntry t dirName).1 ≠ 0 → 3 ≤ (fillOneDirEntry t dirName).1 ∧
    (fillOneDirEntry t dirName).1 < 2 ^ 14 ∧ t.dirIdBitmap (fillOneDirEntry t dirName).1 = false
  nodup : ∀ d, (t.listed d).Nodup
  disjoint : ∀ d d', d ≠ d' → (t.listed d).Disjoint (t.listed d')
  used : ∀ d, ∀ c ∈ t.listed d, t.dirIdBitmap c = true
  no_cycle : ∀ d, ∀ c ∈ t.listed d, ¬ Relation.TransGen (fun p c => c ∈ t.listed p) c c

def kids (t : DirTree) (nodes : ℕ → List ℕ) (d : ℕ) : List ℕ := (nodes d).map fun p => (t.node p).de

structure IdTable (t : DirTree) (used : ℕ → Bool) : Prop where
  ids : ∀ d, (t.de d).dirId = d
  tail_used : ∀ d, (t.de d).dirSize ≠ 0 → used (t.de d).tail = true
  unused : ∀ d, t.dirIdBitmap d = false → (t.de d).dirSize = 0
  reserved : ∀ i < 3, t.dirIdBitmap i = true
  count : t.dirEntryNum + 2 = t.dirIdBitmap.weight (2 ^ 14)

/-- The lists as they are met from their heads. Nodes may hang behind the end of a list, where no
walk finds them: then the tail pointer is at a node of no list, and the size is too large. -/
structure Loose (t : DirTree) (nodes : ℕ → List ℕ) (used : ℕ → Bool) : Prop
    extends Linked t nodes, IdTable t used where
  size : ∀ d, (nodes d).length ≤ (t.de d).dirSize
  tail : ∀ d, (t.de d).dirSize ≠ 0 →
    (nodes d).getLast? = some (t.de d).tail ∨ ∀ e, (t.de d).tail ∉ nodes e
  nodes_used : ∀ d, ∀ p ∈ nodes d, used p = true
  kids_nodup : ∀ d, (t.kids nodes d).Nodup
  kids_disjoint : ∀ d d', d ≠ d' → (t.kids nodes d).Disjoint (t.kids nodes d')
  kids_used : ∀ d, ∀ c ∈ t.kids nodes d, t.dirIdBitmap c = true ∧ 3 ≤ c ∧ c < 2 ^ 14
  acyclic : Acyclic fun p c => c ∈ t.kids nodes p

variable {t t' : DirTree} {nodes : ℕ → List ℕ} {used : ℕ → Bool}

theorem idTable_init (mem : ℕ → ℕ → UInt8) (heap : ℕ → DirListEntry) :
    (fillSuper mem heap).dtree.IdTable fun _ => false := by
  have hr := repr_init mem heap
  have hsize : ∀ d, ((fillSuper mem heap).dtree.de d).dirSize = 0 := hr.size
  constructor
  case ids => exact hr.ids
  case tail_used => exact fun d hd => absurd (hsize d) hd
  case unused => exact fun d _ => hsize d
  case reserved => exact hr.reserved
  case count =>
    change 1 + 2 = (((Bitmap.zero.set 0).set 1).set 2).weight (2 ^ 14)
    rw [Bitmap.weight_set _ (by norm_num) (by decide),
      Bitmap.weight_set _ (by norm_num) (by decide),
      Bitmap.weight_set _ (by norm_num) (by decide), Bitmap.weight_zero]

theorem loose_init (mem : ℕ → ℕ → UInt8) (heap : ℕ → DirListEntry) :
    (fillSuper mem heap).dtree.Loose (fun _ => []) (fun _ => false) := by
  have hr := repr_init mem heap
  constructor
  case toLinked => exact hr.linked
  case toIdTable => exact idTable_init mem heap
  case size => exact fun d => Nat.zero_le _
  case tail => exact fun d hd => absurd (hr.size d) hd
  case nodes_used => simp
  case kids_nodup => simp [kids]
  case kids_disjoint => simp [kids]
  case kids_used => simp [kids]
  case acyclic =>
    intro d hd
    obtain ⟨c, hc, -⟩ := Relation.TransGen.head'_iff.mp hd
    simp [kids] at hc

theorem Loose.nil_of_size (h : t.Loose nodes used) {d : ℕ} (hd : (t.de d).dirSize = 0) :
    nodes d = [] := by
  have hlen := h.size d
  rw [hd] at hlen
  exact List.length_eq_zero_iff.mp (Nat.le_zero.mp hlen)

theorem Loose.listed_eq (h : t.Loose nodes used) (d : ℕ) : t.listed d = t.kids nodes d := by
  rw [listed, (h.seg d).walk_eq (h.size d), kids]
  apply List.map_congr_left
  exact fun p _ => h.ids _

theorem Loose.forest (h : t.Loose nodes used) : t.Forest := by
  have hrel : (fun p c => c ∈ t.listed p) = fun p c => c ∈ t.kids nodes p := by
    funext p c
    rw [h.listed_eq]
  constructor
  case count =>
    have hc := h.count
    omega
  case reserved =>
    exact ⟨h.reserved 0 (by norm_num), h.reserved 1 (by norm_num), h.reserved 2 (by norm_num)⟩
  case issued =>
    intro dirName hid
    rw [fillOneDirEntry_fst] at hid ⊢
    obtain ⟨hlt, hclear, -⟩ := getUnusedDirId_spec hid
    refine ⟨?_, hlt, hclear⟩
    by_contra h3
    rw [h.reserved _ (by omega)] at hclear
    cases hclear
  case nodup => exact fun d => h.listed_eq d ▸ h.kids_nodup d
  case disjoint =>
    intro d d' hne
    rw [h.listed_eq, h.listed_eq]
    exact h.kids_disjoint d d' hne
  case used =>
    intro d c hc
    rw [h.listed_eq] at hc
    exact (h.kids_used d c hc).1
  case no_cycle =>
    intro d c _
    rw [hrel]
    exact h.acyclic c

section fill

variable {n : ℕ} (hf : Filled t t' n) (hclear : t.dirIdBitmap n = false)
include hf hclear

/-- Filling an entry takes an unused id, whose directory has size 0 as it is. -/
theorem IdTable.fill_size (h : t.IdTable used) (d : ℕ) : (t'.de d).dirSize = (t.de d).dirSize := by
  rw [hf.dirSize]
  split_ifs with hd
  · rw [hd, h.unused n hclear]
  · rfl

theorem IdTable.fill (h : t.IdTable used) (hlt : n < 2 ^ 14) : t'.IdTable used := by
  have hsize := h.fill_size hf hclear
  constructor
  case ids => exact fun d => (hf.dirId d).trans (h.ids d)
  case tail_used =>
    intro d hd
    rw [hsize] at hd
    rw [hf.tail]
    exact h.tail_used d hd
  case unused =>
    intro d hd
    rw [hsize]
    apply h.unused d
    rw [hf.dirIdBitmap, Bool.eq_false_iff, ne_eq, Bitmap.set_iff, not_or] at hd
    exact Bool.eq_false_iff.mpr hd.2
  case reserved =>
    intro i hi
    rw [hf.dirIdBitmap, Bitmap.set_iff]
    exact .inr (h.reserved i hi)
  case count =>
    have hc := h.count
    rw [hf.dirIdBitmap, Bitmap.weight_set _ hlt hclear, hf.dirEntryNum]
    omega

theorem Loose.fill (h : t.Loose nodes used) (hlt : n < 2 ^ 14) : t'.Loose nodes used := by
  have hsize := h.fill_size hf hclear
  have hkids : t'.kids nodes = t.kids nodes := by
    funext d
    rw [kids, hf.node]
    rfl
  constructor
  case toLinked =>
    refine ⟨fun d => ?_, h.nodup, h.disjoint⟩
    have hs := h.seg d
    rw [hf.head]
    unfold DirTree.next DirTree.last at hs ⊢
    rw [hf.node]
    exact hs
  case toIdTable => exact h.toIdTable.fill hf hclear hlt
  case size => exact fun d => hsize d ▸ h.size d
  case tail =>
    intro d hd
    rw [hsize] at hd
    rw [hf.tail]
    exact h.tail d hd
  case nodes_used => exact h.nodes_used
  case kids_nodup => exact hkids ▸ h.kids_nodup
  case kids_disjoint => exact hkids ▸ h.kids_disjoint
  case kids_used =>
    intro d c hc
    rw [hkids] at hc
    rw [hf.dirIdBitmap, Bitmap.set_iff]
    exact ⟨.inr (h.kids_used d c hc).1, (h.kids_used d c hc).2⟩
  case acyclic => exact hkids ▸ h.acyclic

end fill

theorem insertDir_dirEntryNum (t : DirTree) (parent n dle : ℕ) :
    (insertDir t parent n dle).dirEntryNum = t.dirEntryNum := by
  unfold insertDir
  dsimp only
  split_ifs <;> rfl

section insert

variable {parent n dle : ℕ}

theorem Loose.inserted (h : t.Loose nodes used) (parent n : ℕ) (hfresh : used dle = false) :
    (∀ d, dle ∉ nodes d) ∧ Inserted t (insertDir t parent n dle) parent n dle := by
  constructor
  · intro d hd
    rw [h.nodes_used d dle hd] at hfresh
    cases hfresh
  · apply insertDir_inserted
    intro hz he
    rw [← he, h.tail_used parent hz] at hfresh
    cases hfresh

theorem IdTable.insert (h : t.IdTable used)
    (hi : Inserted t (insertDir t parent n dle) parent n dle) (hp : t.dirIdBitmap parent = true) :
    (insertDir t parent n dle).IdTable (Function.update used dle true) := by
  constructor
  case ids =>
    intro d
    by_cases hd : d = parent
    · rw [hd, hi.dirId, h.ids]
    · rw [hi.others d hd, h.ids]
  case tail_used =>
    intro d hz
    by_cases hd : d = parent
    · rw [hd, hi.tail, Function.update_self]
    · rw [hi.others d hd] at hz ⊢
      rw [Function.update_apply, h.tail_used d hz, ite_self]
  case unused =>
    intro d hd
    rw [hi.dirIdBitmap] at hd
    have hdp : d ≠ parent := by
      rintro rfl
      rw [hp] at hd
      cases hd
    rw [hi.others d hdp]
    exact h.unused d hd
  case reserved => exact hi.dirIdBitmap ▸ h.reserved
  case count => rw [insertDir_dirEntryNum, hi.dirIdBitmap, h.count]

theorem Loose.insert_tail (h : t.Loose nodes used) (htail : t.TailAt nodes parent)
    (hp : t.dirIdBitmap parent = true) (hn : t.dirIdBitmap n = true) (h3 : 3 ≤ n ∧ n < 2 ^ 14)
    (hun : ∀ d, n ∉ t.kids nodes d) (hsize : (t.de n).dirSize = 0) (hne : n ≠ parent)
    (h0 : dle ≠ 0) (hfresh : used dle = false) :
    (insertDir t parent n dle).Loose (Function.update nodes parent (nodes parent ++ [dle]))
      (Function.update used dle true) := by
  obtain ⟨hnot, hi⟩ := h.inserted parent n hfresh
  have hkids : (insertDir t parent n dle).kids
      (Function.update nodes parent (nodes parent ++ [dle])) =
      Function.update (t.kids nodes) parent (t.kids nodes parent ++ [n]) := by
    have hmap : ∀ d, (nodes d).map (fun p => ((insertDir t parent n dle).node p).de) =
        t.kids nodes d := by
      intro d
      apply List.map_congr_left
      intro p hmem
      rw [hi.node, if_neg (fun he : p = dle => hnot d (he ▸ hmem))]
    funext d
    rw [kids]
    by_cases hd : d = parent
    · rw [hd, Function.update_self, Function.update_self, List.map_append, hmap]
      simp [hi.node]
    · rw [Function.update_of_ne hd, Function.update_of_ne hd, hmap]
  constructor
  case toLinked => exact h.toLinked.insert htail hi h0 hnot
  case toIdTable => exact h.toIdTable.insert hi hp
  case size =>
    intro d
    have hle := h.size d
    by_cases hd : d = parent
    · rw [hd] at hle ⊢
      rw [hi.dirSize, Function.update_self, List.length_append, List.length_singleton]
      omega
    · rwa [hi.others d hd, Function.update_of_ne hd]
  case tail =>
    intro d hz
    by_cases hd : d = parent
    · left
      rw [hd, Function.update_self, hi.tail, List.getLast?_append, List.getLast?_singleton,
        Option.some_or]
    · rw [hi.others d hd] at hz ⊢
      rw [Function.update_of_ne hd]
      refine (h.tail d hz).imp_right fun hstale e hmem => ?_
      rcases mem_snoc.mp hmem with hmem | ⟨-, he⟩
      · exact hstale e hmem
      · rw [← he, h.tail_used d hz] at hfresh
        cases hfresh
  case nodes_used =>
    intro d p hmem
    rcases mem_snoc.mp hmem with hmem | ⟨-, rfl⟩
    · rw [Function.update_apply, h.nodes_used d p hmem, ite_self]
    · rw [Function.update_self]
  case kids_nodup => exact hkids ▸ nodup_snoc h.kids_nodup hun
  case kids_disjoint => exact hkids ▸ disjoint_snoc h.kids_disjoint hun
  case kids_used =>
    intro d c hc
    rw [hkids] at hc
    rw [hi.dirIdBitmap]
    rcases mem_snoc.mp hc with hc | ⟨-, rfl⟩
    · exact h.kids_used d c hc
    · exact ⟨hn, h3⟩
  case acyclic =>
    rw [hkids]
    -- the new directory has no children
    refine h.acyclic.add_leaf (v := n) (fun d c hc hcn => ?_) fun c hc => ?_
    · exact (mem_snoc.mp hc).resolve_right fun hpn => hcn hpn.2
    · rw [Function.update_of_ne hne, kids, h.nil_of_size hsize] at hc
      simp at hc

/-- A node behind a tail pointer that hangs loose is met by no walk. -/
theorem Loose.insert_stale (h : t.Loose nodes used) (hz : (t.de parent).dirSize ≠ 0)
    (hstale : ∀ d, (t.de parent).tail ∉ nodes d) (hp : t.dirIdBitmap parent = true)
    (hfresh : used dle = false) :
    (insertDir t parent n dle).Loose nodes (Function.update used dle true) := by
  obtain ⟨hnot, hi⟩ := h.inserted parent n hfresh
  have hkids : (insertDir t parent n dle).kids nodes = t.kids nodes := by
    funext d
    apply List.map_congr_left
    intro p hmem
    rw [hi.node, if_neg (fun he : p = dle => hnot d (he ▸ hmem))]
  have hhead : ∀ d, ((insertDir t parent n dle).de d).head = (t.de d).head := by
    intro d
    by_cases hd : d = parent
    · rw [hd, hi.head, if_neg hz]
    · rw [hi.others d hd]
  constructor
  case toLinked =>
    refine ⟨fun d => ?_, h.nodup, h.disjoint⟩
    rw [hhead]
    refine (h.seg d).congr (fun p hmem => ?_) (fun p hmem => ?_)
    · rw [hi.next, if_neg (fun he : p = dle => hnot d (he ▸ hmem)), if_neg]
      rintro ⟨-, rfl⟩
      exact hstale d hmem
    · rw [hi.last, if_neg (fun he : p = dle => hnot d (he ▸ hmem))]
  case toIdTable => exact h.toIdTable.insert hi hp
  case size =>
    intro d
    have hle := h.size d
    by_cases hd : d = parent
    · rw [hd] at hle ⊢
      rw [hi.dirSize]
      omega
    · rwa [hi.others d hd]
  case tail =>
    intro d hdz
    by_cases hd : d = parent
    · right
      rw [hd, hi.tail]
      exact hnot
    · rw [hi.others d hd] at hdz ⊢
      exact h.tail d hdz
  case nodes_used =>
    intro d p hmem
    rw [Function.update_apply, h.nodes_used d p hmem, ite_self]
  case kids_nodup => exact hkids ▸ h.kids_nodup
  case kids_disjoint => exact hkids ▸ h.kids_disjoint
  case kids_used =>
    intro d c hc
    rw [hkids] at hc
    rw [hi.dirIdBitmap]
    exact h.kids_used d c hc
  case acyclic => exact hkids ▸ h.acyclic

end insert

theorem findEntry_none (hids : ∀ d, (t.de d).dirId = d) {prev p child start n : ℕ} {xs : List ℕ}
    (h : Seg t.next t.last prev p xs 0) (hxs : ∀ y ∈ xs, (t.node y).de ≠ child) :
    findEntry t child p start n = none := by
  induction n generalizing prev p start xs with
  | zero => rfl
  | succ n ih =>
    cases xs with
    | nil =>
      rw [Seg] at h
      rw [findEntry, if_pos h]
    | cons x xs =>
      obtain ⟨rfl, h0, -, hrest⟩ := h
      have hne : child ≠ (t.de (t.node p).de).dirId := by
        rw [hids]
        exact (hxs p (by simp)).symm
      rw [findEntry, if_neg h0, if_pos hne]
      exact ih hrest fun y hy => hxs y (by simp [hy])

theorem unlinkEntry_dirEntryNum (t : DirTree) (parent dir x start : ℕ) :
    (unlinkEntry t parent dir x start).dirEntryNum = t.dirEntryNum := by
  have hprev : ∀ last next, (relinkPrev t parent last next start).dirEntryNum = t.dirEntryNum := by
    intro last next
    unfold relinkPrev
    split_ifs <;> rfl
  have hnext : ∀ (u : DirTree) last next,
      (relinkNext u parent dir last next start).dirEntryNum = u.dirEntryNum := by
    intro u last next
    unfold relinkNext
    split_ifs <;> rfl
  exact (hnext _ _ _).trans (hprev _ _)

section remove

variable {parent child x : ℕ} {xs ys : List ℕ}

theorem IdTable.remove (h : t.IdTable used) {u : DirTree} {start : ℕ}
    (hu : Unlinked t u parent x start) (hnum : u.dirEntryNum = t.dirEntryNum)
    (hsize : (t.de child).dirSize = 0)
    (hc : t.dirIdBitmap child = true ∧ 3 ≤ child ∧ child < 2 ^ 14) :
    (clearEntry u child).IdTable used := by
  have hcde := clearEntry_de u child
  have hbm := (clearEntry_frame u child).2.2
  rw [hu.dirId, h.ids, hu.dirIdBitmap] at hbm
  have hsizes : ∀ d, (t.de d).dirSize = 0 → ((clearEntry u child).de d).dirSize = 0 := by
    intro d hd
    rw [(hcde d).2.1, hu.dirSize, hd, ite_self]
  constructor
  case ids => exact fun d => by rw [(hcde d).1, hu.dirId, h.ids]
  case tail_used =>
    intro d hd
    have hdc : d ≠ child := fun he => hd (hsizes d (he ▸ hsize))
    rw [(hcde d).2.2.2, if_neg hdc, hu.tail]
    exact h.tail_used d fun hz => hd (hsizes d hz)
  case unused =>
    intro d hd
    apply hsizes
    by_cases hdc : d = child
    · rw [hdc, hsize]
    · rw [hbm, Bitmap.clear_of_ne _ hdc] at hd
      exact h.unused d hd
  case reserved =>
    intro i hi
    rw [hbm, Bitmap.clear_of_ne _ (by omega)]
    exact h.reserved i hi
  case count =>
    have hcount := h.count
    have hw := Bitmap.weight_clear _ hc.2.2 hc.1
    -- the bits of two reserved ids are left over, so that the counter is not 0
    have h0 : t.dirIdBitmap.clear child 0 = true := by
      rw [Bitmap.clear_of_ne _ (by omega), h.reserved 0 (by omega)]
    have h1 : (t.dirIdBitmap.clear child).clear 0 1 = true := by
      rw [Bitmap.clear_of_ne _ (by omega), Bitmap.clear_of_ne _ (by omega), h.reserved 1 (by omega)]
    have hw0 := Bitmap.weight_clear (n := 2 ^ 14) _ (by omega) h0
    have hw1 := Bitmap.weight_clear (n := 2 ^ 14) _ (by omega) h1
    have hn : (clearEntry u child).dirEntryNum = t.dirEntryNum - 1 := by
      rw [← hnum]
      rfl
    rw [hbm, hn]
    omega

theorem Loose.notMem_rest (h : t.Loose nodes used) (hnodes : nodes parent = xs ++ x :: ys) (d : ℕ) :
    (t.node x).de ∉ t.kids (Function.update nodes parent (xs ++ ys)) d := by
  intro hc
  obtain ⟨p, hp, hpc⟩ := List.mem_map.mp hc
  obtain ⟨hpn, hpx⟩ := h.mem_rest hnodes d p hp
  have hx : x ∈ nodes parent := by
    rw [hnodes]
    simp
  by_cases hd : d = parent
  · rw [hd] at hpn
    exact hpx (List.inj_on_of_nodup_map (h.kids_nodup parent) hpn hx hpc)
  · exact h.kids_disjoint d parent hd (hpc ▸ List.mem_map_of_mem hpn) (List.mem_map_of_mem hx)

/-- The tail pointer stays where it is: at the end of the list still, or, when the last node goes,
at a node of no list. -/
theorem Loose.tail_rest (h : t.Loose nodes used) (hnodes : nodes parent = xs ++ x :: ys) {d : ℕ}
    (hz : (t.de d).dirSize ≠ 0) :
    (Function.update nodes parent (xs ++ ys) d).getLast? = some (t.de d).tail ∨
      ∀ e, (t.de d).tail ∉ Function.update nodes parent (xs ++ ys) e := by
  have hrest := h.mem_rest hnodes
  rcases h.tail d hz with hlast | hstale
  · by_cases hd : d = parent
    · rw [hd] at hlast ⊢
      rw [hnodes] at hlast
      rw [Function.update_self]
      cases ys with
      | nil =>
        right
        intro e he
        rw [List.getLast?_append, List.getLast?_singleton, Option.some_or,
          Option.some_inj] at hlast
        exact (hrest e _ he).2 hlast.symm
      | cons z zs =>
        left
        rw [← hlast]
        simp [List.getLast?_append, List.getLast?_cons]
    · left
      rwa [Function.update_of_ne hd]
  · exact .inr fun e he => hstale e (hrest e _ he).1

/-- Taking a directory of size 0 out of the list that holds it. -/
theorem Loose.remove (h : t.Loose nodes used) (hnodes : nodes parent = xs ++ x :: ys)
    (hx : (t.node x).de = child) (hsize : (t.de child).dirSize = 0) :
    (clearEntry (unlinkEntry t parent child x xs.length) child).Loose
      (Function.update nodes parent (xs ++ ys)) used := by
  have hmem : child ∈ t.kids nodes parent := by
    rw [kids, hnodes, ← hx]
    simp
  have hu : Unlinked t (unlinkEntry t parent child x xs.length) parent x xs.length := by
    have hlen := length_le_of_ids (h.kids_nodup parent) fun c hc => (h.kids_used parent c hc).2.2
    rw [kids, List.length_map, hnodes, List.length_append, List.length_cons] at hlen
    exact unlinkEntry_unlinked hsize (by omega)
  have hnum := unlinkEntry_dirEntryNum t parent child x xs.length
  generalize unlinkEntry t parent child x xs.length = u at hu hnum ⊢
  have hcde := clearEntry_de u child
  obtain ⟨hcnode, -, hcbm⟩ := clearEntry_frame u child
  rw [hu.dirId, h.ids, hu.dirIdBitmap] at hcbm
  have hkids : (clearEntry u child).kids (Function.update nodes parent (xs ++ ys)) =
      t.kids (Function.update nodes parent (xs ++ ys)) := by
    funext d
    simp only [kids, hcnode, hu.node]
  have hsub : ∀ d, (t.kids (Function.update nodes parent (xs ++ ys)) d).Sublist
      (t.kids nodes d) := fun d => (sublist_rest hnodes d).map _
  constructor
  case toLinked => exact h.toLinked.remove hnodes (h.nil_of_size hsize) hu
  case toIdTable => exact h.toIdTable.remove hu hnum hsize (h.kids_used parent child hmem)
  case size =>
    intro d
    have hle := h.size d
    rw [(hcde d).2.1, hu.dirSize]
    by_cases hd : d = parent
    · rw [hd, hnodes, List.length_append, List.length_cons] at hle
      rw [if_pos hd, hd, Function.update_self, List.length_append]
      omega
    · rwa [if_neg hd, Function.update_of_ne hd]
  case tail =>
    intro d hz
    rw [(hcde d).2.1, hu.dirSize] at hz
    have hz' : (t.de d).dirSize ≠ 0 := by
      intro h0
      rw [h0, ite_self] at hz
      exact hz rfl
    rw [(hcde d).2.2.2, if_neg (fun he : d = child => hz' (he ▸ hsize)), hu.tail]
    exact h.tail_rest hnodes hz'
  case nodes_used => exact fun d p hp => h.nodes_used d p (h.mem_rest hnodes d p hp).1
  case kids_nodup =>
    rw [hkids]
    exact fun d => (h.kids_nodup d).sublist (hsub d)
  case kids_disjoint =>
    rw [hkids]
    intro d d' hdd c hc hc'
    exact h.kids_disjoint d d' hdd ((hsub d).subset hc) ((hsub d').subset hc')
  case kids_used =>
    rw [hkids]
    intro d c hc
    have hne : c ≠ child := fun he => h.notMem_rest hnodes d (hx.trans he.symm ▸ hc)
    rw [hcbm, Bitmap.clear_of_ne _ hne]
    exact h.kids_used d c ((hsub d).subset hc)
  case acyclic =>
    rw [hkids]
    exact h.acyclic.mono fun d c hc => (hsub d).subset hc

end remove

end DirTree

theorem mkdir_loose {s s' : IdRun} {nodes : ℕ → List ℕ} {parent dle : ℕ} {dirName : CStr}
    (h : s.sb.dtree.Loose nodes s.used) (hstep : idStep s (.mkdir parent dirName dle) = some s') :
    ∃ nodes', s'.sb.dtree.Loose nodes' s'.used := by
  simp only [idStep] at hstep
  split_ifs at hstep with hg
  obtain ⟨hlive, hid, h0, hfresh⟩ := hg
  cases hstep
  have hf := DirTree.fillOneDirEntry_filled hid
  obtain ⟨h3, hlt, hclear⟩ := h.forest.issued dirName hid
  have hfill := h.fill hf hclear hlt
  have hun : ∀ d, (fillOneDirEntry s.sb.dtree dirName).1 ∉
      (fillOneDirEntry s.sb.dtree dirName).2.kids nodes d := by
    intro d hmem
    rw [DirTree.kids, hf.node] at hmem
    rw [(h.kids_used d _ hmem).1] at hclear
    cases hclear
  have hne : (fillOneDirEntry s.sb.dtree dirName).1 ≠ parent := by
    intro he
    rw [he, hlive.2.2] at hclear
    cases hclear
  have hp : (fillOneDirEntry s.sb.dtree dirName).2.dirIdBitmap parent = true := by
    rw [hf.dirIdBitmap, Bitmap.set_of_ne _ hne.symm]
    exact hlive.2.2
  have hn : (fillOneDirEntry s.sb.dtree dirName).2.dirIdBitmap
      (fillOneDirEntry s.sb.dtree dirName).1 = true := by
    rw [hf.dirIdBitmap, Bitmap.set_self]
  have hsize := hf.dirSize (fillOneDirEntry s.sb.dtree dirName).1
  rw [if_pos rfl] at hsize
  dsimp only
  generalize (fillOneDirEntry s.sb.dtree dirName).2 = t at hfill hun hp hn hsize ⊢
  by_cases hz : (t.de parent).dirSize = 0
  · refine ⟨_, hfill.insert_tail ?_ hp hn ⟨h3, hlt⟩ hun hsize hne h0 hfresh⟩
    rw [DirTree.TailAt, if_pos hz]
    exact hfill.nil_of_size hz
  · rcases hfill.tail parent hz with hlast | hstale
    · refine ⟨_, hfill.insert_tail ?_ hp hn ⟨h3, hlt⟩ hun hsize hne h0 hfresh⟩
      rw [DirTree.TailAt, if_neg hz]
      exact List.getLast?_eq_some_iff.mp hlast
    · exact ⟨_, hfill.insert_stale hz hstale hp hfresh⟩

theorem remove_loose {s s' : IdRun} {nodes : ℕ → List ℕ} {parent dir : ℕ} {bigDirId : ℤ}
    (h : s.sb.dtree.Loose nodes s.used) (hstep : idStep s (.remove parent dir bigDirId) = some s') :
    ∃ nodes', s'.sb.dtree.Loose nodes' s'.used := by
  simp only [idStep] at hstep
  split_ifs at hstep with hg
  obtain ⟨hparent, hdir, hsize⟩ := hg
  cases hstep
  simp only [removeDir, inodeToDirId_dirIdToInode (show parent < 2 ^ 49 by omega),
    inodeToDirId_dirIdToInode (show dir < 2 ^ 49 by omega), h.ids]
  by_cases hmem : dir ∈ s.sb.dtree.kids nodes parent
  · obtain ⟨x, hxmem, hx⟩ := List.mem_map.mp hmem
    have hnd : ((nodes parent).map fun p =>
        (s.sb.dtree.de (s.sb.dtree.node p).de).dirId).Nodup := by
      simp only [h.ids]
      exact h.kids_nodup parent
    obtain ⟨xs, ys, hnodes, hfind⟩ := DirTree.findEntry_split (h.seg parent) (h.size parent) hnd
      hxmem ((h.ids _).trans hx)
    refine ⟨Function.update nodes parent (xs ++ ys), ?_⟩
    rw [hfind]
    dsimp only
    split_ifs <;> exact h.remove hnodes hx hsize
  · have hfind : findEntry s.sb.dtree dir (s.sb.dtree.de parent).head 0
        (s.sb.dtree.de parent).dirSize = none := by
      apply DirTree.findEntry_none h.ids (h.seg parent)
      intro y hy he
      exact hmem (he ▸ List.mem_map_of_mem hy)
    rw [hfind]
    exact ⟨nodes, h⟩

/-- In every run of `mkdir` and `remove_dir` the ids are counted and issued once, and the lists
make a forest. -/
theorem dirIds_run {mem : ℕ → ℕ → UInt8} {heap : ℕ → DirListEntry} {s : IdRun}
    (h : Reach idStep anyStep ⟨fillSuper mem heap, fun _ => false⟩ s) : s.sb.dtree.Forest := by
  obtain ⟨nodes, hl⟩ : ∃ nodes, s.sb.dtree.Loose nodes s.used := by
    refine h.invariant (fun s => ∃ nodes, s.sb.dtree.Loose nodes s.used)
      ⟨_, DirTree.loose_init mem heap⟩ ?_
    rintro s op s' ⟨nodes, hl⟩ - hstep
    cases op with
    | mkdir parent dirName dle => exact mkdir_loose hl hstep
    | remove parent dir bigDirId => exact remove_loose hl hstep
  exact hl.forest

/-- A tail pointer left at a freed node: the directory made next has an id and no place in a
list. -/
theorem dirIds_run_stale_tail : ∃ s : IdRun,
    run idStep anyStep ⟨fillSuper (fun _ _ => 0) (fun _ => ⟨0, 0, 0⟩), fun _ => false⟩
      [.mkdir 2 [97] 1, .mkdir 2 [98] 2, .remove 2 4 (-1), .mkdir 2 [99] 3, .mkdir 3 [100] 4] =
      some s ∧
    s.sb.dtree.listed 2 = [3] ∧ s.sb.dtree.dirEntryNum = 4 ∧ s.sb.dtree.Forest := by
  obtain ⟨s, hrun, hlisted, hnum⟩ := exists_of_check
    (r := run idStep anyStep ⟨fillSuper (fun _ _ => 0) (fun _ => ⟨0, 0, 0⟩), fun _ => false⟩
      [.mkdir 2 [97] 1, .mkdir 2 [98] 2, .remove 2 4 (-1), .mkdir 2 [99] 3, .mkdir 3 [100] 4])
    (p := fun s => s.sb.dtree.listed 2 = [3] ∧ s.sb.dtree.dirEntryNum = 4) (by decide +kernel)
  exact ⟨s, hrun, hlisted, hnum, dirIds_run (.of_run hrun)⟩

end FlatFS
