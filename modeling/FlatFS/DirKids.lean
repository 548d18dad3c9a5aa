import FlatFS.DirLookup
import FlatFS.PageNames
import FlatFS.Lib.Paths

namespace FlatFS
open Lib

namespace DirTree

/-- The child that the search of `flatfs_dir_inode_by_name` takes for a name. -/
def kid (t : DirTree) (d : ℕ) (name : CStr) : Option ℕ :=
  findChild t name (t.de d).head (t.de d).dirSize

def kidIn (t : DirTree) (nodes : List ℕ) (name : CStr) : Option ℕ :=
  (nodes.find? fun p => name = (t.entry p).name).map fun p => (t.node p).de

variable {t u : DirTree} {children nodes : ℕ → List ℕ}

theorem kidIn_append (t : DirTree) (ps qs : List ℕ) (name : CStr) :
    t.kidIn (ps ++ qs) name = (t.kidIn ps name).or (t.kidIn qs name) := by
  rw [kidIn, List.find?_append, Option.map_or]
  rfl

theorem kidIn_congr {ps : List ℕ} (h : ∀ p ∈ ps, (u.node p).de = (t.node p).de ∧
    (u.entry p).name = (t.entry p).name) (name : CStr) : u.kidIn ps name = t.kidIn ps name := by
  have hfind : (ps.find? fun p => name = (u.entry p).name) =
      ps.find? fun p => name = (t.entry p).name := by
    apply List.find?_congr
    intro p hp
    rw [(h p hp).2]
  rw [kidIn, hfind]
  apply Option.map_congr
  intro p hp
  exact (h p (List.mem_of_find?_eq_some hp)).1

theorem kidIn_eq_none_iff {ps : List ℕ} {name : CStr} :
    t.kidIn ps name = none ↔ name ∉ ps.map fun p => (t.entry p).name := by
  rw [kidIn, Option.map_eq_none_iff, List.find?_eq_none, List.mem_map, not_exists]
  apply forall_congr'
  intro p
  rw [not_and, decide_eq_true_iff, eq_comm]

theorem kidIn_singleton (t : DirTree) (p : ℕ) (name : CStr) :
    t.kidIn [p] name = if name = (t.entry p).name then some (t.node p).de else none := by
  rw [kidIn, List.find?_singleton, apply_ite (Option.map _)]
  simp

theorem Shape.kid_eq (h : t.Shape children nodes) (d : ℕ) (name : CStr) :
    t.kid d name = t.kidIn (nodes d) name := by
  rw [kid, findChild_eq, (h.seg d).walk_eq (h.size d).ge]
  apply Option.map_congr
  intro p _
  exact h.ids _

theorem Shape.kid_mem (h : t.Shape children nodes) {d c : ℕ} {name : CStr}
    (hc : t.kid d name = some c) : c ∈ children d := by
  rw [h.kid_eq] at hc
  obtain ⟨p, hp, hpc⟩ := Option.map_eq_some_iff.mp hc
  rw [← h.kids d, ← hpc]
  exact List.mem_map_of_mem (List.mem_of_find?_eq_some hp)

theorem Shape.kid_name (h : t.Shape children nodes) {d c : ℕ} {name : CStr}
    (hc : t.kid d name = some c) : (t.de c).name = name := by
  rw [h.kid_eq] at hc
  obtain ⟨p, hp, hpc⟩ := Option.map_eq_some_iff.mp hc
  have hfound := List.find?_some hp
  rw [← hpc]
  exact (of_decide_eq_true hfound).symm

theorem Shape.kid_of_nil (h : t.Shape children nodes) {d : ℕ} (hd : children d = [])
    (name : CStr) : t.kid d name = none := by
  apply Option.eq_none_iff_forall_ne_some.mpr
  intro c hc
  have hmem := h.kid_mem hc
  rw [hd] at hmem
  exact List.not_mem_nil hmem

theorem fillOneDirEntry_name {name : CStr} (hid : (fillOneDirEntry t name).1 ≠ 0) (h0 : 0 ∉ name)
    (d : ℕ) : ((fillOneDirEntry t name).2.de d).name =
      if d = (fillOneDirEntry t name).1 then name else (t.de d).name := by
  rw [fillOneDirEntry_fst] at hid ⊢
  simp only [fillOneDirEntry, if_neg hid, myStrlen_eq h0, List.take_length, modifyDe_de]
  by_cases hd : d = (getUnusedDirId t.dirIdBitmap).1
  · rw [if_pos hd, if_pos hd]
    apply ((DirEntry.eq_name_iff _ name).mp ⟨rfl, List.all_eq_true.mpr fun i hi => ?_⟩).symm
    have hlt : i < name.length := List.mem_range.mp hi
    dsimp only
    rw [beq_iff_eq, if_pos (by omega), memcpy, List.getD_eq_getElem _ _ hlt,
      List.getD_eq_getElem _ _ hlt]
  · rw [if_neg hd, if_neg hd]

theorem modifyDe_name {f : DirEntry → DirEntry} (hf : ∀ de, (f de).name = de.name) (t : DirTree)
    (i d : ℕ) : ((t.modifyDe i f).de d).name = (t.de d).name := by
  rw [modifyDe_de]
  split_ifs with hd
  · rw [hf, hd]
  · rfl

theorem insertDir_name (t : DirTree) (parent n dle d : ℕ) :
    ((insertDir t parent n dle).de d).name = (t.de d).name := by
  unfold insertDir
  dsimp only
  refine (modifyDe_name ?_ _ _ _).trans ?_
  · exact fun de => rfl
  · split_ifs
    · refine modifyDe_name ?_ _ _ _
      exact fun de => rfl
    · refine modifyDe_name ?_ _ _ _
      exact fun de => rfl

/-- `fill_one_dir_entry` and `insert_dir` under a live parent, which find the id `n`. -/
structure Mkdir (t u : DirTree) (parent : ℕ) (name : CStr) (n dle : ℕ) : Prop where
  id : (fillOneDirEntry t name).1 = n
  id_ne : n ≠ 0
  live : t.Live parent
  dle_ne : dle ≠ 0
  fresh : t.allocated dle = false
  tree : insertDir (fillOneDirEntry t name).2 parent n dle = u

section mkdir
variable {parent n dle : ℕ} {name : CStr}

theorem Repr.mkdir (h : t.Repr children nodes) (hm : Mkdir t u parent name n dle) :
    u.Repr (Function.update children parent (children parent ++ [n]))
        (Function.update nodes parent (nodes parent ++ [dle])) ∧
      t.dirIdBitmap n = false ∧ u.dirIdBitmap = t.dirIdBitmap.set n ∧ 3 ≤ n ∧ n < 2 ^ 14 := by
  obtain ⟨rfl, hid, hlive, h0, hfresh, rfl⟩ := hm
  obtain ⟨hfill, hal, hclear, hbm, h3, hlt⟩ := h.fill hid
  refine ⟨hfill.insert hlive.2.1 ?_ ?_ ⟨h3, hlt⟩ (fun d hmem => ?_) h0 (hal ▸ hfresh), hclear,
    ?_, h3, hlt⟩
  · rw [hbm, Bitmap.set_iff]
    exact .inr hlive.2.2
  · rw [hbm, Bitmap.set_self]
  · rw [(h.kids_used d _ hmem).1] at hclear
    cases hclear
  · rw [← hbm]
    unfold insertDir
    dsimp only
    split_ifs <;> rfl

/-- The new node has the new name and id, and those in the lists stay as they are. -/
theorem Repr.mkdir_entry (h : t.Repr children nodes) (hm : Mkdir t u parent name n dle)
    (h0 : 0 ∉ name) : (u.node dle).de = n ∧ (u.entry dle).name = name ∧
      ∀ d, ∀ p ∈ nodes d, (u.node p).de = (t.node p).de ∧ (u.entry p).name = (t.entry p).name := by
  obtain ⟨rfl, hid, -, -, hfresh, rfl⟩ := hm
  have hf := fillOneDirEntry_filled hid
  obtain ⟨hfill, -, hclear, -⟩ := h.fill hid
  have hname : ∀ i,
      ((insertDir (fillOneDirEntry t name).2 parent (fillOneDirEntry t name).1 dle).de i).name =
        if i = (fillOneDirEntry t name).1 then name else (t.de i).name := by
    intro i
    rw [insertDir_name, fillOneDirEntry_name hid h0]
  generalize (fillOneDirEntry t name).1 = n at *
  have hnot : ∀ d, dle ∉ nodes d := by
    intro d hd
    rw [h.allocated d dle hd] at hfresh
    cases hfresh
  have hi : Inserted (fillOneDirEntry t name).2
      (insertDir (fillOneDirEntry t name).2 parent n dle) parent n dle := by
    refine insertDir_inserted _ fun hz he => ?_
    obtain ⟨xs, hxs⟩ := hfill.tail_mem hz
    exact hnot parent (by rw [hxs, he]; simp)
  generalize insertDir (fillOneDirEntry t name).2 parent n dle = u at *
  have hdle : (u.node dle).de = n := by rw [hi.node, if_pos rfl]
  refine ⟨hdle, by rw [entry, hdle, hname, if_pos rfl], fun d p hp => ?_⟩
  have hpd : (u.node p).de = (t.node p).de := by
    rw [hi.node, if_neg (fun he : p = dle => hnot d (he ▸ hp)), hf.node]
  refine ⟨hpd, ?_⟩
  rw [entry, entry, hpd, hname, if_neg]
  -- a listed directory has its id already
  intro he
  have hused := (h.kids_used d _ (h.kids d ▸ List.mem_map_of_mem hp)).1
  rw [he, hclear] at hused
  cases hused

end mkdir

structure Named (t : DirTree) (children nodes : ℕ → List ℕ) : Prop
    extends Repr t children nodes where
  names : ∀ d, ((nodes d).map fun p => (t.entry p).name).Nodup

section mkdir
variable {parent n dle : ℕ} {name : CStr}

/-- The directory made is the child under its name, and no other search changes. -/
theorem Repr.mkdir_kid (h : t.Repr children nodes) (hm : Mkdir t u parent name n dle)
    (h0 : 0 ∉ name) (hnew : t.kid parent name = none) :
    u.kid = setKid t.kid parent name (some n) := by
  obtain ⟨hnode, hname, hkeep⟩ := h.mkdir_entry hm h0
  have hrepr := (h.mkdir hm).1
  funext d m
  rw [hrepr.kid_eq, setKid_apply]
  by_cases hd : d = parent
  · rw [hd, Function.update_self, kidIn_append, kidIn_congr (hkeep parent), ← h.kid_eq,
      kidIn_singleton, hname, hnode]
    by_cases hm : m = name
    · rw [hm, hnew, Option.none_or, if_pos rfl, if_pos ⟨rfl, rfl⟩]
    · rw [if_neg hm, Option.or_none, if_neg fun he => hm he.2]
  · rw [Function.update_of_ne hd, kidIn_congr (hkeep d), if_neg fun he => hd he.1, h.kid_eq]

theorem Named.mkdir (h : t.Named children nodes) (hm : Mkdir t u parent name n dle)
    (h0 : 0 ∉ name) (hnew : t.kid parent name = none) :
    u.Named (Function.update children parent (children parent ++ [n]))
      (Function.update nodes parent (nodes parent ++ [dle])) := by
  obtain ⟨-, hname, hkeep⟩ := h.mkdir_entry hm h0
  rw [h.kid_eq, kidIn_eq_none_iff] at hnew
  refine ⟨(h.toRepr.mkdir hm).1, fun d => ?_⟩
  have hmap : (nodes d).map (fun p => (u.entry p).name) =
      (nodes d).map fun p => (t.entry p).name :=
    List.map_congr_left fun p hp => (hkeep d p hp).2
  by_cases hd : d = parent
  · rw [hd] at hmap ⊢
    rw [Function.update_self, List.map_append, hmap, List.map_singleton, hname,
      ← List.concat_eq_append]
    exact List.Nodup.concat hnew (h.names parent)
  · rw [Function.update_of_ne hd, hmap]
    exact h.names d

end mkdir

theorem Named.kid_entry (h : t.Named children nodes) {d p : ℕ} (hp : p ∈ nodes d) :
    t.kid d (t.entry p).name = some (t.node p).de := by
  obtain ⟨xs, ys, hsplit⟩ := List.append_of_mem hp
  have hnames := h.names d
  rw [hsplit, List.map_append, List.map_cons, List.nodup_middle, List.nodup_cons] at hnames
  have hxs : t.kidIn xs (t.entry p).name = none :=
    kidIn_eq_none_iff.mpr fun hmem => hnames.1 (List.mem_append_left _ hmem)
  rw [h.kid_eq, hsplit, kidIn_append, hxs, Option.none_or, ← List.singleton_append, kidIn_append,
    kidIn_singleton, if_pos rfl, Option.some_or]

section rmdir
variable {parent child x : ℕ} {xs ys : List ℕ}

theorem Shape.dirSize_of_nil (h : t.Shape children nodes) {d : ℕ} (hd : children d = []) :
    (t.de d).dirSize = 0 := by
  have hkids := h.kids d
  rw [hd] at hkids
  rw [h.size, List.map_eq_nil_iff.mp hkids, List.length_nil]

theorem Named.childList (h : t.Named children nodes) {d : ℕ} (hown : d ∉ children d) :
    t.ChildList d (children d) where
  toLists := h.lists d
  entries p hp := by
    rw [h.visited] at hp
    exact (h.kids_used d _ (h.kids d ▸ List.mem_map_of_mem hp)).2.2
  names := by
    rw [h.visited]
    exact h.names d
  own := hown

theorem Named.rest (h : t.Named children nodes) (hnodes : nodes parent = xs ++ x :: ys)
    (hx : (t.node x).de = child) :
    ∀ y ∈ xs ++ ys, (t.node y).de ≠ child ∧ (t.entry y).name ≠ (t.de child).name := by
  have hids := h.kids_nodup parent
  have hnames := h.names parent
  rw [← h.kids parent, hnodes] at hids
  rw [hnodes] at hnames
  rw [List.map_append, List.map_cons, List.nodup_middle, List.nodup_cons, ← List.map_append]
    at hids hnames
  intro y hy
  constructor
  · intro he
    apply hids.1
    rw [hx, ← he]
    exact List.mem_map_of_mem (f := fun p => (t.node p).de) hy
  · intro he
    apply hnames.1
    rw [entry, hx, ← he]
    exact List.mem_map_of_mem (f := fun p => (t.entry p).name) hy

theorem Shape.rmdir_dirIdBitmap (h : t.Shape children nodes) (hnodes : nodes parent = xs ++ x :: ys)
    (hleaf : children child = []) :
    (clearEntry (unlinkEntry t parent child x xs.length) child).dirIdBitmap =
      t.dirIdBitmap.clear child := by
  have hlen := h.length_le parent
  rw [hnodes, List.length_append, List.length_cons] at hlen
  have hu : Unlinked t (unlinkEntry t parent child x xs.length) parent x xs.length :=
    unlinkEntry_unlinked (h.dirSize_of_nil hleaf) (by omega)
  rw [(clearEntry_frame _ child).2.2, hu.dirId, h.ids, hu.dirIdBitmap]

/-- Taking a childless directory out leaves every search as it is but the one for its name. -/
theorem Named.rmdir (h : t.Named children nodes) (hnodes : nodes parent = xs ++ x :: ys)
    (hx : (t.node x).de = child) (hleaf : children child = []) (hlast : ys = [] → xs = [])
    (hown : parent ∉ children parent)
    (hu : clearEntry (unlinkEntry t parent child x xs.length) child = u) :
    u.Named (Function.update children parent ((children parent).erase child))
        (Function.update nodes parent (xs ++ ys)) ∧
      u.kid = setKid t.kid parent (t.de child).name none := by
  have hchild := h.childList hown
  have hvisited := (h.visited parent).trans hnodes
  have hmem : child ∈ children parent := by
    rw [← h.kids parent, hnodes, ← hx]
    simp
  have hout := hchild.takenOut hvisited (h.dirSize_of_nil hleaf)
  have hrepr := h.toRepr.remove hnodes hx hleaf hlast
  rw [hu] at hout hrepr
  have hrest := h.rest hnodes hx
  refine ⟨⟨hrepr, fun d => ?_⟩, ?_⟩
  · have hkeep : ∀ p ∈ Function.update nodes parent (xs ++ ys) d,
        (u.entry p).name = (t.entry p).name := by
      intro p hp
      rw [entry, entry, hout.node]
      refine (hout.named _ fun he => ?_).1
      have hpc : p ∈ xs ++ ys := by
        by_cases hd : d = parent
        · rwa [hd, Function.update_self] at hp
        · rw [Function.update_of_ne hd] at hp
          exact absurd (he ▸ h.kids d ▸ List.mem_map_of_mem hp)
            fun hc => h.kids_disjoint d parent hd hc hmem
      exact (hrest p hpc).1 he
    rw [List.map_congr_left hkeep]
    exact (h.names d).sublist ((sublist_rest hnodes d).map _)
  · funext d name
    rw [setKid_apply]
    by_cases hd : d = parent
    · rw [hd]
      by_cases hname : name = (t.de child).name
      · rw [if_pos ⟨rfl, hname⟩, hname]
        exact hout.findChild_gone (fun y hy => (hrest y hy).1) fun y hy => (hrest y hy).2
      · rw [if_neg fun he => hname he.2]
        exact hout.findChild_left (hchild.searched.trans hvisited) hx (fun y hy => (hrest y hy).1)
          hname
    · rw [if_neg fun he => hd he.1]
      exact hout.findChild_other hx hd (h.listed_once hmem hd) name

end rmdir

end DirTree

end FlatFS
