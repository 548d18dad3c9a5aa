import FlatFS.DirKids
import FlatFS.PageNames

namespace FlatFS
open Lib

def dirIno (d : ℕ) : BitVec 64 := dirIdToInode (BitVec.ofNat 64 d)

/-- A walk along directory names, as the kernel makes it: `flatfs_dir_inode_by_name` for one name
after the other. -/
def walkPath (sb : SbInfo) : BitVec 64 → List CStr → Option (BitVec 64)
  | ino, [] => some ino
  | ino, name :: names =>
    let child := flatfsDirInodeByName sb ino name
    if child = 0 then none else walkPath sb child names

inductive PathOp
  | mkdir (path : List CStr) (name : CStr) (dle : ℕ)
  | rmdir (path : List CStr) (name : CStr) (bigDirId : ℤ)

def PathOp.target : PathOp → List CStr
  | .mkdir path name _ => path ++ [name]
  | .rmdir path name _ => path ++ [name]

/-- What the kernel calls on a state: it walks to the parent and looks the name up, refuses a
`mkdir` of a name that is there, and an `rmdir` of one that is not. -/
def PathOp.dirOp (sb : SbInfo) : PathOp → Option DirOp
  | .mkdir path name dle =>
    (walkPath sb (dirIno flatfsRootIno) path).bind fun ino =>
      if AdmittedName name ∧ flatfsDirInodeByName sb ino name = 0 then
        some (.mkdir (inodeToDirId ino).toNat name dle)
      else none
  | .rmdir path name bigDirId =>
    (walkPath sb (dirIno flatfsRootIno) path).bind fun ino =>
      let child := flatfsDirInodeByName sb ino name
      if child = 0 then none
      else some (.rmdir (inodeToDirId ino).toNat (inodeToDirId child).toNat bigDirId)

/-- The call on the tree. An `rmdir` of a directory with children is left out, which `ffs_rmdir`
would not refuse. -/
def pathStep (s : DirRun) (op : PathOp) : Option DirRun := (op.dirOp s.sb).bind (dirStep s)

/-- No `rmdir` takes the last of several children: the tail pointer would stay at the freed node. -/
def PathKeepsTail (s : DirRun) (op : PathOp) : Prop :=
  ∀ dirOp ∈ op.dirOp s.sb, KeepsTail s dirOp

instance (s : DirRun) (op : PathOp) : Decidable (PathKeepsTail s op) :=
  inferInstanceAs (Decidable (∀ dirOp ∈ op.dirOp s.sb, KeepsTail s dirOp))

def paths (sb : SbInfo) : Set (List CStr) := {p | walkPath sb (dirIno flatfsRootIno) p ≠ none}

open Classical in
/-- A `mkdir` adds one path under one that is there, an `rmdir` takes one away that has none under
it. -/
noncomputable def specStep (dirs : Set (List CStr)) : PathOp → Option (Set (List CStr))
  | .mkdir path name _ =>
    if path ∈ dirs ∧ path ++ [name] ∉ dirs then some (insert (path ++ [name]) dirs) else none
  | .rmdir path name _ =>
    if path ++ [name] ∈ dirs ∧ ∀ below, path ++ [name] ++ [below] ∉ dirs then
      some (dirs \ {path ++ [name]})
    else none

def DirTree.at (t : DirTree) (p : List CStr) : Option ℕ := resolve t.kid flatfsRootIno p

/-- The live directories are those with a path, and each has one path only. -/
structure PathInv (s : DirRun) (nodes : ℕ → List ℕ) : Prop
    extends s.sb.dtree.Named s.children nodes where
  unique : UniquePaths s.sb.dtree.kid flatfsRootIno
  live : ∀ d, s.sb.dtree.Live d ↔ ∃ p, s.sb.dtree.at p = some d

theorem pathInv_init (mem : ℕ → ℕ → UInt8) (heap : ℕ → DirListEntry) :
    PathInv ⟨fillSuper mem heap, fun _ => []⟩ fun _ => [] := by
  have hrepr := DirTree.repr_init mem heap
  have hkid : ∀ d name, (fillSuper mem heap).dtree.kid d name = none :=
    fun d name => hrepr.kid_of_nil rfl name
  have hat : ∀ p d, (fillSuper mem heap).dtree.at p = some d ↔ p = [] ∧ d = flatfsRootIno := by
    intro p d
    cases p with
    | nil =>
      rw [DirTree.at, resolve, Option.some_inj, and_iff_right rfl, eq_comm]
    | cons name names =>
      rw [DirTree.at, resolve, hkid]
      simp
  constructor
  case toNamed => exact ⟨hrepr, fun d => List.nodup_nil⟩
  case unique =>
    intro p q d hp hq
    rw [((hat p d).mp hp).1, ((hat q d).mp hq).1]
  case live =>
    intro d
    simp only [hat, exists_eq_left]
    change (2 ≤ d ∧ d < 2 ^ 14 ∧ (((Bitmap.zero.set 0).set 1).set 2) d = true) ↔ d = 2
    simp only [Bitmap.set_iff, Bitmap.zero_apply, Bool.false_eq_true, or_false]
    omega

section
variable {s s' : DirRun} {nodes : ℕ → List ℕ} {d : ℕ} {p : List CStr}

theorem PathInv.lt (h : PathInv s nodes) (hp : s.sb.dtree.at p = some d) : d < 2 ^ 14 :=
  ((h.live d).mpr ⟨p, hp⟩).2.1

theorem dirId_dirIno (hd : d < 2 ^ 14) : (inodeToDirId (dirIno d)).toNat = d :=
  inodeToDirId_dirIdToInode (by omega)

theorem dirIno_ne_zero (hd : d < 2 ^ 14) : dirIno d ≠ 0 := by
  intro he
  have hid := dirId_dirIno hd
  rw [he] at hid
  have hbig : (inodeToDirId 0).toNat = 2 ^ 49 - 1 := by decide
  omega

theorem PathInv.byName (h : PathInv s nodes) (hp : s.sb.dtree.at p = some d) (name : CStr) :
    flatfsDirInodeByName s.sb (dirIno d) name = (s.sb.dtree.kid d name).elim 0 dirIno := by
  unfold flatfsDirInodeByName
  rw [dirId_dirIno (h.lt hp)]
  change (if (s.sb.dtree.kid d name).getD d = d then 0
    else dirIno ((s.sb.dtree.kid d name).getD d)) = _
  cases hc : s.sb.dtree.kid d name with
  | none => exact if_pos rfl
  | some c => exact if_neg (h.unique.kid_ne hp hc)

theorem PathInv.at_concat (hp : s.sb.dtree.at p = some d) (name : CStr) :
    s.sb.dtree.at (p ++ [name]) = s.sb.dtree.kid d name := by
  rw [DirTree.at, resolve_concat]
  exact congrArg (fun o => o.bind fun c => s.sb.dtree.kid c name) hp

theorem PathInv.byName_eq_zero_iff (h : PathInv s nodes) (hp : s.sb.dtree.at p = some d)
    (name : CStr) :
    flatfsDirInodeByName s.sb (dirIno d) name = 0 ↔ s.sb.dtree.kid d name = none := by
  rw [h.byName hp]
  cases hc : s.sb.dtree.kid d name with
  | none => exact iff_of_true rfl rfl
  | some c =>
    have hpc := (PathInv.at_concat hp name).trans hc
    exact iff_of_false (dirIno_ne_zero (h.lt hpc)) (Option.some_ne_none c)

theorem PathInv.walk (h : PathInv s nodes) (hp : s.sb.dtree.at p = some d) (q : List CStr) :
    walkPath s.sb (dirIno d) q = (resolve s.sb.dtree.kid d q).map dirIno := by
  induction q generalizing d p with
  | nil => rfl
  | cons name names ih =>
    have hzero := h.byName_eq_zero_iff hp name
    have hname := h.byName hp name
    rw [walkPath, resolve]
    cases hc : s.sb.dtree.kid d name with
    | none =>
      rw [if_pos (hzero.mpr hc)]
      rfl
    | some c =>
      rw [hc] at hzero hname
      rw [if_neg (fun hz => Option.some_ne_none c (hzero.mp hz)), hname]
      exact ih ((PathInv.at_concat hp name).trans hc)

theorem PathInv.walkPath_eq (h : PathInv s nodes) (q : List CStr) :
    walkPath s.sb (dirIno flatfsRootIno) q = (s.sb.dtree.at q).map dirIno :=
  h.walk (p := []) rfl q

theorem PathInv.mem_paths (h : PathInv s nodes) (q : List CStr) :
    q ∈ paths s.sb ↔ ∃ d, s.sb.dtree.at q = some d := by
  change walkPath s.sb (dirIno flatfsRootIno) q ≠ none ↔ _
  rw [h.walkPath_eq, ne_eq, Option.map_eq_none_iff]
  exact Option.ne_none_iff_exists'

end

section
variable {s s' : DirRun} {nodes : ℕ → List ℕ} {d c : ℕ} {path : List CStr} {name : CStr} {dle : ℕ}
  {bigDirId : ℤ}

theorem PathInv.mkdir_dirOp (h : PathInv s nodes) {o : DirOp}
    (ho : (PathOp.mkdir path name dle).dirOp s.sb = some o) :
    ∃ d, s.sb.dtree.at path = some d ∧ AdmittedName name ∧ s.sb.dtree.kid d name = none ∧
      o = .mkdir d name dle := by
  rw [PathOp.dirOp, h.walkPath_eq] at ho
  obtain ⟨ino, hino, ho⟩ := Option.bind_eq_some_iff.mp ho
  obtain ⟨d, hp, rfl⟩ := Option.map_eq_some_iff.mp hino
  obtain ⟨⟨hname, hzero⟩, ho⟩ := Option.ite_none_right_eq_some.mp ho
  rw [dirId_dirIno (h.lt hp)] at ho
  exact ⟨d, hp, hname, (h.byName_eq_zero_iff hp name).mp hzero,
    (Option.some.inj ho).symm⟩

theorem PathInv.rmdir_dirOp (h : PathInv s nodes) {o : DirOp}
    (ho : (PathOp.rmdir path name bigDirId).dirOp s.sb = some o) :
    ∃ d c, s.sb.dtree.at path = some d ∧ s.sb.dtree.kid d name = some c ∧
      o = .rmdir d c bigDirId := by
  rw [PathOp.dirOp, h.walkPath_eq] at ho
  obtain ⟨ino, hino, ho⟩ := Option.bind_eq_some_iff.mp ho
  obtain ⟨d, hp, rfl⟩ := Option.map_eq_some_iff.mp hino
  obtain ⟨hne, ho⟩ := Option.ite_none_left_eq_some.mp ho
  rw [h.byName_eq_zero_iff hp] at hne
  obtain ⟨c, hc⟩ := Option.ne_none_iff_exists'.mp hne
  have hpc := (PathInv.at_concat hp name).trans hc
  rw [h.byName hp, hc, Option.elim_some, dirId_dirIno (h.lt hp), dirId_dirIno (h.lt hpc)] at ho
  exact ⟨d, c, hp, hc, (Option.some.inj ho).symm⟩

/-- The ids in use stay the ends of the paths when the child under the name is the one that comes
or goes. -/
theorem PathInv.live_relink (h : PathInv s nodes) {o : Option ℕ}
    (hlink : Relink s.sb.dtree.kid s'.sb.dtree.kid flatfsRootIno path name d o)
    (hlive : ∀ e, s'.sb.dtree.Live e ↔
      o = some e ∨ s.sb.dtree.Live e ∧ s.sb.dtree.kid d name ≠ some e) (e : ℕ) :
    s'.sb.dtree.Live e ↔ ∃ p, s'.sb.dtree.at p = some e := by
  rw [hlive, h.live]
  exact (hlink.reached_iff h.unique e).symm

theorem PathInv.mkdir (h : PathInv s nodes) (hp : s.sb.dtree.at path = some d)
    (hname : AdmittedName name) (hkid : s.sb.dtree.kid d name = none)
    (hstep : dirStep s (.mkdir d name dle) = some s') : ∃ nodes' n, PathInv s' nodes' ∧
      Relink s.sb.dtree.kid s'.sb.dtree.kid flatfsRootIno path name d (some n) := by
  simp only [dirStep] at hstep
  split_ifs at hstep with hg
  obtain ⟨hlive, hid, h0, hfresh⟩ := hg
  have hm : DirTree.Mkdir s.sb.dtree s'.sb.dtree d name (fillOneDirEntry s.sb.dtree name).1
      dle := by
    cases hstep
    exact ⟨rfl, hid, hlive, h0, hfresh, rfl⟩
  have hchildren : s'.children = Function.update s.children d
      (s.children d ++ [(fillOneDirEntry s.sb.dtree name).1]) := by
    cases hstep
    rfl
  generalize (fillOneDirEntry s.sb.dtree name).1 = n at hm hchildren
  obtain ⟨-, hclear, hbm, h3, hlt⟩ := h.toRepr.mkdir hm
  have hlink : Relink s.sb.dtree.kid s'.sb.dtree.kid flatfsRootIno path name d (some n) := by
    constructor
    case parent => exact hp
    case kids_eq => exact h.toRepr.mkdir_kid hm hname.1 hkid
    case old =>
      intro c hc
      rw [hkid] at hc
      cases hc
    case new =>
      intro c hc
      cases hc
      refine ⟨fun q hq => ?_, h.kid_of_nil (h.unused n hclear)⟩
      have hset := ((h.live n).mpr ⟨q, hq⟩).2.2
      rw [hclear] at hset
      cases hset
  refine ⟨_, n, ⟨hchildren ▸ h.toNamed.mkdir hm hname.1 hkid, hlink.unique h.unique,
    h.live_relink hlink fun e => ?_⟩, hlink⟩
  simp only [DirTree.Live, hbm, Bitmap.set_iff, hkid, Option.some_inj]
  by_cases he : e = n
  · simp only [he, true_or, and_true, iff_true]
    omega
  · simp [he, Ne.symm he]

theorem PathInv.rmdir (h : PathInv s nodes) (hp : s.sb.dtree.at path = some d)
    (hkid : s.sb.dtree.kid d name = some c) (hkeep : KeepsTail s (.rmdir d c bigDirId))
    (hstep : dirStep s (.rmdir d c bigDirId) = some s') : ∃ nodes', PathInv s' nodes' ∧
      Relink s.sb.dtree.kid s'.sb.dtree.kid flatfsRootIno path name d none := by
  simp only [dirStep] at hstep
  split_ifs at hstep with hg
  obtain ⟨hmem, hleaf⟩ := hg
  obtain ⟨xs, x, ys, hnodes, hx, hdtree⟩ := removeDir_dtree bigDirId h.toRepr hmem
  have hu : clearEntry (unlinkEntry s.sb.dtree d c x xs.length) c = s'.sb.dtree := by
    cases hstep
    exact hdtree.symm
  have hchildren : s'.children = Function.update s.children d ((s.children d).erase c) := by
    cases hstep
    rfl
  have hkids : s.children d = (xs ++ x :: ys).map fun p => (s.sb.dtree.node p).de := by
    rw [← hnodes, h.kids]
  have hlast := (keepsTail_iff (h.kids_nodup d) hkids hx).mp hkeep
  have hown : d ∉ s.children d := by
    intro hd
    rw [← h.kids d] at hd
    obtain ⟨y, hy, hyd⟩ := List.mem_map.mp hd
    exact h.unique.kid_ne hp (h.toNamed.kid_entry hy) hyd
  obtain ⟨hnamed, hkid'⟩ := h.toNamed.rmdir hnodes hx hleaf hlast hown hu
  have hbm := h.toShape.rmdir_dirIdBitmap hnodes hleaf
  rw [hu] at hbm
  have hlink : Relink s.sb.dtree.kid s'.sb.dtree.kid flatfsRootIno path name d none := by
    constructor
    case parent => exact hp
    case kids_eq =>
      -- the search for the name has found the entry of the child
      rw [hkid', h.kid_name hkid]
    case old =>
      intro e he
      rw [hkid] at he
      cases he
      exact h.kid_of_nil hleaf
    case new =>
      intro e he
      cases he
  refine ⟨_, ⟨hchildren ▸ hnamed, hlink.unique h.unique, h.live_relink hlink fun e => ?_⟩, hlink⟩
  have hne : some c ≠ some e ↔ e ≠ c := by rw [ne_eq, Option.some_inj, eq_comm]
  simp only [DirTree.Live, hbm, Bitmap.clear_iff, hkid, hne, reduceCtorEq, false_or]
  tauto

end

section
variable {s s' : DirRun} {nodes nodes' : ℕ → List ℕ} {path : List CStr} {name : CStr} {d : ℕ}
  {o : Option ℕ} {op : PathOp}

theorem PathInv.walkPath_relink (h : PathInv s nodes) (h' : PathInv s' nodes')
    (hlink : Relink s.sb.dtree.kid s'.sb.dtree.kid flatfsRootIno path name d o) (q : List CStr) :
    walkPath s'.sb (dirIno flatfsRootIno) q =
      if q = path ++ [name] then o.map dirIno else walkPath s.sb (dirIno flatfsRootIno) q := by
  rw [h'.walkPath_eq, h.walkPath_eq, DirTree.at, hlink.resolve_eq h.unique]
  split_ifs <;> rfl

/-- A step of the code is a step of the specification, and changes the walk along the path that is
made or removed only. -/
theorem PathInv.step (h : PathInv s nodes) (hok : PathKeepsTail s op)
    (hstep : pathStep s op = some s') : (∃ nodes', PathInv s' nodes') ∧
      specStep (paths s.sb) op = some (paths s'.sb) ∧
      ∀ p, op.target ≠ p → walkPath s'.sb (dirIno flatfsRootIno) p =
        walkPath s.sb (dirIno flatfsRootIno) p := by
  obtain ⟨dirOp, hdirOp, hstep⟩ := Option.bind_eq_some_iff.mp hstep
  have hkeep := hok dirOp hdirOp
  cases op with
  | mkdir path name dle =>
    obtain ⟨d, hp, hname, hkid, rfl⟩ := h.mkdir_dirOp hdirOp
    obtain ⟨nodes', n, h', hlink⟩ := h.mkdir hp hname hkid hstep
    have hwalk := h.walkPath_relink h' hlink
    have hnew : path ++ [name] ∉ paths s.sb := by
      rw [h.mem_paths, PathInv.at_concat hp, hkid]
      simp
    refine ⟨⟨nodes', h'⟩, ?_, fun p hne => (hwalk p).trans (if_neg hne.symm)⟩
    rw [specStep, if_pos ⟨(h.mem_paths path).mpr ⟨d, hp⟩, hnew⟩]
    congr 1
    ext q
    change _ ↔ walkPath s'.sb (dirIno flatfsRootIno) q ≠ none
    rw [hwalk, Set.mem_insert_iff]
    split_ifs with hq
    · exact iff_of_true (.inl hq) (Option.some_ne_none _)
    · exact or_iff_right hq
  | rmdir path name bigDirId =>
    obtain ⟨d, c, hp, hkid, rfl⟩ := h.rmdir_dirOp hdirOp
    obtain ⟨nodes', h', hlink⟩ := h.rmdir hp hkid hkeep hstep
    have hwalk := h.walkPath_relink h' hlink
    have hpc : s.sb.dtree.at (path ++ [name]) = some c := (PathInv.at_concat hp name).trans hkid
    have hleaf : ∀ below, path ++ [name] ++ [below] ∉ paths s.sb := by
      intro below
      rw [h.mem_paths, PathInv.at_concat hpc, hlink.old c hkid]
      simp
    refine ⟨⟨nodes', h'⟩, ?_, fun p hne => (hwalk p).trans (if_neg hne.symm)⟩
    rw [specStep, if_pos ⟨(h.mem_paths _).mpr ⟨c, hpc⟩, hleaf⟩]
    congr 1
    ext q
    change _ ↔ walkPath s'.sb (dirIno flatfsRootIno) q ≠ none
    rw [hwalk, Set.mem_sdiff, Set.mem_singleton_iff]
    split_ifs with hq
    · exact iff_of_false (fun hne => hne.2 hq) (fun hne => hne rfl)
    · exact and_iff_left hq

end

def mountedDirs (mem : ℕ → ℕ → UInt8) (heap : ℕ → DirListEntry) : DirRun :=
  ⟨fillSuper mem heap, fun _ => []⟩

def zeroDirs : DirRun := mountedDirs (fun _ _ => 0) fun _ => ⟨0, 0, 0⟩

section
variable {mem : ℕ → ℕ → UInt8} {heap : ℕ → DirListEntry} {s s' : DirRun} {ops : List PathOp}

theorem pathInv_of_reach (h : Reach pathStep PathKeepsTail (mountedDirs mem heap) s) :
    ∃ nodes, PathInv s nodes := by
  refine h.invariant (fun s => ∃ nodes, PathInv s nodes) ⟨_, pathInv_init mem heap⟩ ?_
  intro s op s' hi hok hstep
  obtain ⟨nodes, hi⟩ := hi
  exact (hi.step hok hstep).1

end

section
variable {mem : ℕ → ℕ → UInt8} {heap : ℕ → DirListEntry} {s s' : DirRun} {ops : List PathOp}

theorem dirIno_inj {d e : ℕ} (hd : d < 2 ^ 14) (he : e < 2 ^ 14) : dirIno d = dirIno e ↔ d = e := by
  constructor
  · intro h
    rw [← dirId_dirIno hd, h, dirId_dirIno he]
  · exact congrArg dirIno

/-- In every state the directory ids in use are the ends of the paths, and every one of them has
exactly one path. -/
theorem live_path_unique (h : Reach pathStep PathKeepsTail (mountedDirs mem heap) s) :
    (∀ d < 2 ^ 14, s.sb.dtree.Live d ↔
      ∃! p, walkPath s.sb (dirIno flatfsRootIno) p = some (dirIno d)) ∧
    ∀ p ino, walkPath s.sb (dirIno flatfsRootIno) p = some ino →
      ∃ d, s.sb.dtree.Live d ∧ ino = dirIno d := by
  obtain ⟨nodes, hi⟩ := pathInv_of_reach h
  have hwalk : ∀ p ino, walkPath s.sb (dirIno flatfsRootIno) p = some ino ↔
      ∃ e, s.sb.dtree.at p = some e ∧ dirIno e = ino := by
    intro p ino
    rw [hi.walkPath_eq, Option.map_eq_some_iff]
  have hat : ∀ d < 2 ^ 14, ∀ p, walkPath s.sb (dirIno flatfsRootIno) p = some (dirIno d) ↔
      s.sb.dtree.at p = some d := by
    intro d hd p
    rw [hwalk]
    constructor
    · intro hex
      obtain ⟨e, he, hed⟩ := hex
      rw [he, (dirIno_inj (hi.lt he) hd).mp hed]
    · exact fun hp => ⟨d, hp, rfl⟩
  constructor
  · intro d hd
    rw [hi.live]
    constructor
    · intro hex
      obtain ⟨p, hp⟩ := hex
      refine ⟨p, (hat d hd p).mpr hp, fun q hq => ?_⟩
      exact hi.unique q p d ((hat d hd q).mp hq) hp
    · intro hex
      obtain ⟨p, hp, -⟩ := hex
      exact ⟨p, (hat d hd p).mp hp⟩
  · intro p ino hp
    obtain ⟨d, hd, hino⟩ := (hwalk p ino).mp hp
    exact ⟨d, (hi.live d).mpr ⟨p, hd⟩, hino.symm⟩

theorem live_path_unique_three : ∃ s, run pathStep PathKeepsTail zeroDirs [.mkdir [] [97] 1] =
      some s ∧ ∃! p, walkPath s.sb (dirIno flatfsRootIno) p = some (dirIno 3) := by
  obtain ⟨s, hrun, hlive⟩ := exists_of_check
    (r := run pathStep PathKeepsTail zeroDirs [.mkdir [] [97] 1])
    (p := fun s => s.sb.dtree.Live 3) (by decide +kernel)
  exact ⟨s, hrun, ((live_path_unique (.of_run hrun)).1 3 (by norm_num)).mp hlive⟩

/-- Operations elsewhere, above, beside or below, leave a path at its inode number or at nothing. -/
theorem walks_stable (h : Reach pathStep PathKeepsTail (mountedDirs mem heap) s)
    (hrun : run pathStep PathKeepsTail s ops = some s') {p : List CStr}
    (hp : ∀ op ∈ ops, op.target ≠ p) :
    walkPath s'.sb (dirIno flatfsRootIno) p = walkPath s.sb (dirIno flatfsRootIno) p := by
  have h0 : (∃ nodes, PathInv s nodes) ∧ ((∀ op ∈ ([] : List PathOp), op.target ≠ p) →
      walkPath s.sb (dirIno flatfsRootIno) p = walkPath s.sb (dirIno flatfsRootIno) p) :=
    ⟨pathInv_of_reach h, fun _ => rfl⟩
  refine (run_history (fun ops t => (∃ nodes, PathInv t nodes) ∧ ((∀ op ∈ ops, op.target ≠ p) →
    walkPath t.sb (dirIno flatfsRootIno) p = walkPath s.sb (dirIno flatfsRootIno) p)) ?_ h0
    hrun).2 hp
  intro ops t op t' hi hok hstep
  obtain ⟨⟨nodes, hi⟩, hsame⟩ := hi
  obtain ⟨hi', -, hkeep⟩ := hi.step hok hstep
  refine ⟨hi', fun hops => ?_⟩
  rw [hkeep p (hops op (by simp)), hsame fun op' hop' => hops op' (by simp [hop'])]

theorem walks_stable_a : ∃ s s', run pathStep PathKeepsTail zeroDirs [.mkdir [] [97] 1] = some s ∧
    run pathStep PathKeepsTail s [.mkdir [[97]] [98] 2, .rmdir [[97]] [98] (-1)] = some s' ∧
    walkPath s.sb (dirIno flatfsRootIno) [[97]] = some (dirIno 3) ∧
    walkPath s'.sb (dirIno flatfsRootIno) [[97]] = some (dirIno 3) := by
  obtain ⟨s', hrun', -⟩ := exists_of_check
    (r := run pathStep PathKeepsTail zeroDirs
      ([.mkdir [] [97] 1] ++ [.mkdir [[97]] [98] 2, .rmdir [[97]] [98] (-1)]))
    (p := fun _ => True) (by decide +kernel)
  obtain ⟨s, hrun, ha⟩ := exists_of_check
    (r := run pathStep PathKeepsTail zeroDirs [.mkdir [] [97] 1])
    (p := fun s => walkPath s.sb (dirIno flatfsRootIno) [[97]] = some (dirIno 3))
    (by decide +kernel)
  rw [run_append, hrun, Option.bind_some] at hrun'
  have hsame := walks_stable (.of_run hrun) hrun' (p := [[97]]) (by decide)
  exact ⟨s, s', hrun, hrun', ha, hsame.trans ha⟩

theorem PathInv.ncard_paths {nodes : ℕ → List ℕ} (h : PathInv s nodes) : (paths s.sb).ncard =
    ((Finset.Ico 2 (2 ^ 14)).filter fun d => s.sb.dtree.dirIdBitmap d = true).card := by
  rw [← Set.ncard_coe_finset]
  refine Set.ncard_congr (fun p _ => (s.sb.dtree.at p).getD 0) ?_ ?_ ?_
  · intro p hp
    obtain ⟨d, hd⟩ := (h.mem_paths p).mp hp
    have hlive := (h.live d).mpr ⟨p, hd⟩
    simp only [hd, Option.getD_some, Finset.coe_filter, Finset.mem_Ico, Set.mem_ofPred_eq]
    exact ⟨⟨hlive.1, hlive.2.1⟩, hlive.2.2⟩
  · intro p q hp hq he
    obtain ⟨d, hd⟩ := (h.mem_paths p).mp hp
    obtain ⟨e, he'⟩ := (h.mem_paths q).mp hq
    rw [hd, he', Option.getD_some, Option.getD_some] at he
    exact h.unique p q d hd (he ▸ he')
  · intro d hd
    simp only [Finset.coe_filter, Finset.mem_Ico, Set.mem_ofPred_eq] at hd
    obtain ⟨p, hp⟩ := (h.live d).mp ⟨hd.1.1, hd.1.2, hd.2⟩
    refine ⟨p, (h.mem_paths p).mpr ⟨d, hp⟩, ?_⟩
    rw [hp, Option.getD_some]

/-- No id is lost: `fill_one_dir_entry` finds one exactly while there are fewer than 16382
directories. -/
theorem id_free_iff (h : Reach pathStep PathKeepsTail (mountedDirs mem heap) s) (name : CStr) :
    (fillOneDirEntry s.sb.dtree name).1 ≠ 0 ↔ (paths s.sb).ncard < 2 ^ 14 - 2 := by
  obtain ⟨nodes, hi⟩ := pathInv_of_reach h
  have hcard : (Finset.Ico 2 (2 ^ 14)).card = 2 ^ 14 - 2 := Nat.card_Ico _ _
  have hfull : (fillOneDirEntry s.sb.dtree name).1 = 0 ↔
      ∀ j < 2 ^ 14, s.sb.dtree.dirIdBitmap j = true := by
    rw [DirTree.fillOneDirEntry_fst, ← Bitmap.firstZero_eq_size_iff]
    unfold getUnusedDirId
    rw [show 1 <<< maxDirBits = 2 ^ 14 from rfl]
    dsimp only
    split_ifs with he
    · exact iff_of_true rfl he
    · refine iff_of_false (fun hz : s.sb.dtree.dirIdBitmap.firstZero (2 ^ 14) = 0 => ?_) he
      -- the bit of id 0 is set
      have hclear := Bitmap.firstZero_clear (m := s.sb.dtree.dirIdBitmap) (n := 2 ^ 14) (by omega)
      rw [hz, hi.reserved 0 (by norm_num)] at hclear
      cases hclear
  rw [hi.ncard_paths, ← hcard, (Finset.card_filter_le _ _).lt_iff_ne, ne_eq, ne_eq,
    Finset.card_filter_eq_iff, hfull, not_iff_not]
  constructor
  · intro hall j hj
    exact hall j (Finset.mem_Ico.mp hj).2
  · intro hall j hj
    by_cases hj2 : j < 3
    · exact hi.reserved j hj2
    · exact hall j (Finset.mem_Ico.mpr (by omega))

theorem id_free_three : ∃ s, run pathStep PathKeepsTail zeroDirs [.mkdir [] [97] 1] = some s ∧
    (paths s.sb).ncard < 2 ^ 14 - 2 := by
  obtain ⟨s, hrun, hid⟩ := exists_of_check
    (r := run pathStep PathKeepsTail zeroDirs [.mkdir [] [97] 1])
    (p := fun s => (fillOneDirEntry s.sb.dtree [98]).1 ≠ 0) (by decide +kernel)
  exact ⟨s, hrun, (id_free_iff (.of_run hrun) [98]).mp hid⟩

end

end FlatFS
