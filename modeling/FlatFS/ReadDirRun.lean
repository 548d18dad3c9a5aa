import FlatFS.ReadDir
import FlatFS.Lookup

namespace FlatFS
open Lib Function

structure FilledBy (de : DirEntry) (dirName : CStr) : Prop where
  namelen : de.namelen = myStrlen dirName
  recLen : de.recLen = ffsDirRecLen (myStrlen dirName)
  name : ∀ i < myStrlen dirName, de.dirName i = dirName.getD i 0

theorem fillOneDirEntry_filledBy {t : DirTree} {dirName : CStr}
    (hid : (fillOneDirEntry t dirName).1 ≠ 0) :
    FilledBy ((fillOneDirEntry t dirName).2.de (fillOneDirEntry t dirName).1) dirName := by
  rw [DirTree.fillOneDirEntry_fst] at hid ⊢
  simp only [fillOneDirEntry, if_neg hid, DirTree.modifyDe, update_self]
  refine ⟨rfl, rfl, fun i hi => ?_⟩
  have hlen : i < dirName.length := lt_of_lt_of_le hi (List.takeWhile_prefix _).length_le
  rw [if_pos (by omega)]
  simp [memcpy, List.getD_eq_getElem?_getD, hi, hlen]

/-- A directory that does not change: all that `ffs_readdir` reads, the cursors apart. -/
structure Directory where
  disk : Disk
  sb : SbInfo
  dfi : FfsInodeInfo
  d : ℕ
  children : List ℕ
  name : ℕ → CStr
  hashtbl : HashTable
  bigHashtbl : BigDirHashTable
  d_lt : d < 2 ^ 14
  dirId : dfi.dirId = d
  table : sb.hashtbl d = some hashtbl
  bigTable : dfi.isBigDir ≠ 0 → sb.bigDirHashtbl dfi.bigDirId.toNat = some bigHashtbl
  lists : sb.dtree.Lists d children
  names : ∀ c ∈ children, name c ≠ [] ∧ 0 ∉ name c
  filled : ∀ p ∈ sb.dtree.visited d,
    FilledBy (sb.dtree.de (sb.dtree.node p).de) (name (sb.dtree.de (sb.dtree.node p).de).dirId)

namespace Directory

variable (D : Directory)

def childDirent (c : ℕ) : Dirent :=
  ⟨D.name c, le32ToCpu (dirIdToInode (BitVec.ofNat 64 c)), 4⟩

def smallDirent : ℕ × ℕ → Dirent :=
  slotDirent minFileBucketBits D.disk (BitVec.ofNat 64 D.d) D.hashtbl

def bigDirent : ℕ × ℕ → Dirent :=
  slotDirent (minFileBucketBits + minDirBits) D.disk (BitVec.ofNat 64 D.d) D.bigHashtbl

def smallSlots : List (ℕ × ℕ) := liveSlots minFileBucketBits D.hashtbl

def bigSlots : List (ℕ × ℕ) :=
  if D.dfi.isBigDir ≠ 0 then liveSlots (minFileBucketBits + minDirBits) D.bigHashtbl else []

/-- The entries of the directory: the subdirectories in the order of their list, the files of the
small table, those of the big table. -/
def entries : List Dirent :=
  D.children.map D.childDirent ++ D.smallSlots.map D.smallDirent ++ D.bigSlots.map D.bigDirent

def readdir (cur : Cursors) (ctx : DirContext) : Option (DirContext × Cursors) :=
  ffsReaddir D.disk D.sb D.dfi cur ctx

structure AtEnd (cur : Cursors) : Prop where
  de : cur.de = D.children.length
  small : cur.small = D.smallSlots.length
  big : D.dfi.isBigDir ≠ 0 → cur.big = D.bigSlots.length

theorem walk_eq_visited :
    walk D.sb.dtree.next (D.sb.dtree.de D.d).head (D.sb.dtree.de D.d).dirSize =
      D.sb.dtree.visited D.d := by
  have hlen := D.lists.size
  unfold DirTree.visited at hlen ⊢
  rw [walk_take, List.take_of_length_le hlen.le]

theorem children_length : D.children.length = (D.sb.dtree.de D.d).dirSize := by
  rw [← D.lists.ids, List.length_map, D.lists.size]

theorem recLen_ne_zero {de : DirEntry} {dirName : CStr} (h : FilledBy de dirName) :
    de.recLen ≠ 0 := by
  rw [h.recLen, ffsDirRecLen]
  omega

theorem dirDirent_eq {de : DirEntry} {dirName : CStr} (h : FilledBy de dirName)
    (h0 : 0 ∉ dirName) :
    dirDirent de = ⟨dirName, le32ToCpu (dirIdToInode (BitVec.ofNat 64 de.dirId)), 4⟩ := by
  have hname : (List.range de.namelen).map de.dirName = dirName := by
    rw [h.namelen]
    apply List.ext_getElem
    · rw [List.length_map, List.length_range, myStrlen_eq h0]
    · intro i hi hi'
      rw [List.getElem_map, List.getElem_range, h.name i (by rwa [myStrlen_eq h0])]
      simp [List.getD_eq_getElem?_getD, hi']
  rw [dirDirent, hname]

theorem visited_map :
    (D.sb.dtree.visited D.d).map (fun p => dirDirent (D.sb.dtree.de (D.sb.dtree.node p).de)) =
      D.children.map D.childDirent := by
  rw [← D.lists.ids, List.map_map]
  apply List.map_congr_left
  intro p hp
  have hc : (D.sb.dtree.de (D.sb.dtree.node p).de).dirId ∈ D.children := by
    rw [← D.lists.ids]
    exact List.mem_map_of_mem hp
  exact dirDirent_eq (D.filled p hp) (D.names _ hc).2

theorem dirId_toNat : (inodeToDirId (dirIdToInode (BitVec.ofNat 64 D.d))).toNat = D.d :=
  inodeToDirId_dirIdToInode (D.d_lt.trans (by norm_num))

theorem readDirDirs_first {ctx : DirContext} (hpos : ctx.pos = 0) (dePos : ℕ) :
    readDirDirs D.sb.dtree (dirIdToInode (BitVec.ofNat 64 D.d)) ctx dePos =
      (ctx.emitAll (D.children.map D.childDirent), D.children.length) := by
  rw [readDirDirs, D.dirId_toNat, if_pos hpos, emitDirs_eq, D.walk_eq_visited, D.visited_map,
    Nat.zero_add, D.lists.size, D.children_length]
  intro p hp
  rw [D.walk_eq_visited] at hp
  exact recLen_ne_zero (D.filled p hp)

theorem readDirDirs_end {ctx : DirContext} (hpos : ctx.pos ≠ 0) :
    readDirDirs D.sb.dtree (dirIdToInode (BitVec.ofNat 64 D.d)) ctx D.children.length =
      (ctx, D.children.length) := by
  have hlen := D.children_length
  have hseek : (seekDirs D.sb.dtree D.children.length (D.sb.dtree.de D.d).head 0
      (D.sb.dtree.de D.d).dirSize).2 = (D.sb.dtree.de D.d).dirSize := by
    rw [seekDirs_end, Nat.zero_add]
    · rw [D.walk_eq_visited, D.lists.size]
    · omega
  rw [readDirDirs, D.dirId_toNat, if_neg hpos]
  dsimp only
  rw [hseek, Nat.sub_self, emitDirs]

/-- A call through a file at its start emits every entry and leaves the cursors at the end. -/
theorem readdir_first (cur : Cursors) {ctx : DirContext} (hpos : ctx.pos = 0) :
    ∃ cur', D.readdir cur ctx = some (ctx.emitAll D.entries, cur') ∧ D.AtEnd cur' := by
  have hid := inodeToDirId_eq D.d_lt
  simp only [readdir, ffsReaddir, D.dirId, readdirIno_eq D.d_lt, Int.toNat_natCast, D.table,
    Option.bind_some]
  rw [if_pos hpos, if_pos hpos, D.readDirDirs_first hpos, readDirFiles, readFiles_zero, hid]
  by_cases hbig : D.dfi.isBigDir = 0
  · refine ⟨⟨D.children.length, D.smallSlots.length, cur.big⟩, ?_, rfl, rfl, absurd hbig⟩
    rw [if_neg (not_not.mpr hbig), DirContext.emitAll_append, entries, bigSlots,
      if_neg (not_not.mpr hbig), List.map_nil, List.append_nil]
    rfl
  · refine ⟨⟨D.children.length, D.smallSlots.length, D.bigSlots.length⟩, ?_, rfl, rfl, fun _ => rfl⟩
    rw [if_pos hbig, D.bigTable hbig, Option.map_some, readBigDirFiles, readFiles_zero, hid,
      DirContext.emitAll_append, DirContext.emitAll_append, ← List.append_assoc, entries, bigSlots,
      if_pos hbig]
    rfl

/-- A call through a file that is past its start emits nothing while the cursors are at the end. -/
theorem readdir_end {cur : Cursors} (hend : D.AtEnd cur) {ctx : DirContext} (hpos : ctx.pos ≠ 0) :
    D.readdir cur ctx = some (ctx, cur) := by
  obtain ⟨de, small, big⟩ := cur
  obtain ⟨hde, hsmall, hbig⟩ := hend
  dsimp only at hde hsmall hbig
  simp only [readdir, ffsReaddir, D.dirId, readdirIno_eq D.d_lt, Int.toNat_natCast, D.table,
    Option.bind_some]
  rw [if_neg hpos, if_neg hpos, hde, D.readDirDirs_end hpos, hsmall, smallSlots, readDirFiles,
    readFiles_end]
  by_cases hb : D.dfi.isBigDir = 0
  · rw [if_neg (not_not.mpr hb)]
  · rw [if_pos hb, D.bigTable hb, Option.map_some, hbig hb, bigSlots, if_pos hb, readBigDirFiles,
      readFiles_end]

end Directory

/-- The open files of a directory, with the `ctx->pos` of each, and the cursors they share. -/
structure OpenFiles where
  cur : Cursors
  pos : ℕ → ℕ

namespace Directory

variable (D : Directory)

def call (s : OpenFiles) (f : ℕ) : Option (List Dirent × OpenFiles) :=
  (D.readdir s.cur ⟨s.pos f, none, []⟩).map fun r => (r.1.out, ⟨r.2, update s.pos f r.1.pos⟩)

def calls (s : OpenFiles) (fs : List ℕ) : Option OpenFiles :=
  fs.foldlM (fun s f => (D.call s f).map Prod.snd) s

structure ReadBy (s : OpenFiles) (fs : List ℕ) : Prop where
  pos : ∀ f, s.pos f = if f ∈ fs then D.entries.length else 0
  cur : fs ≠ [] → D.AtEnd s.cur

theorem call_eq {s : OpenFiles} {fs : List ℕ} (h : D.ReadBy s fs) (f : ℕ) :
    ∃ s', D.call s f = some (if f ∈ fs then [] else D.entries, s') ∧ D.ReadBy s' (f :: fs) := by
  by_cases hpos : s.pos f = 0
  · obtain ⟨cur', hcall, hend⟩ := D.readdir_first s.cur
      (show (⟨s.pos f, none, []⟩ : DirContext).pos = 0 from hpos)
    -- a file that is still at its start after a call has nothing to read
    have hout : D.entries = if f ∈ fs then [] else D.entries := by
      have hf := h.pos f
      rw [hpos] at hf
      split_ifs at hf ⊢
      · exact List.length_eq_zero_iff.mp hf.symm
      · rfl
    refine ⟨⟨cur', update s.pos f D.entries.length⟩, ?_, fun g => ?_, fun _ => hend⟩
    · rw [call, hcall, Option.map_some, ← hout]
      simp only [DirContext.emitAll, fits, hpos, Nat.zero_add, List.nil_append]
    · by_cases hg : g = f
      · simp [hg]
      · simp [hg, h.pos g]
  · have hmem : f ∈ fs := by
      by_contra hmem
      rw [h.pos f, if_neg hmem] at hpos
      exact hpos rfl
    have hend := h.cur (List.ne_nil_of_mem hmem)
    refine ⟨s, ?_, fun g => ?_, fun _ => hend⟩
    · rw [call, D.readdir_end hend hpos, Option.map_some, if_pos hmem]
      simp only [update_eq_self]
    · rw [h.pos g]
      by_cases hg : g = f <;> simp [hg, hmem]

theorem calls_eq (cur : Cursors) (fs : List ℕ) :
    ∃ s, D.calls ⟨cur, fun _ => 0⟩ fs = some s ∧ D.ReadBy s fs := by
  induction fs using List.reverseRecOn with
  | nil => exact ⟨_, rfl, fun f => by simp, absurd rfl⟩
  | append_singleton fs f ih =>
    obtain ⟨s, hcalls, hs⟩ := ih
    obtain ⟨s', hcall, hs'⟩ := D.call_eq hs f
    refine ⟨s', ?_, fun g => ?_, fun _ => hs'.cur (by simp)⟩
    · rw [calls] at hcalls ⊢
      rw [List.foldlM_append, hcalls]
      simp [hcall]
    · rw [hs'.pos g]
      simp [or_comm]

/-- The number emitted for a small file is the one its slot got when it was allocated. -/
theorem smallDirent_ino {ht : HashTable} {name : CStr}
    (hf : ¬ (ht.buckets (smallBucket name)).Full) :
    (D.smallDirent (smallBucket name, (ht.buckets (smallBucket name)).freeSlot)).ino =
      (flatfsFileSlotAllocByName ht D.d name).1 := by
  have hd := D.d_lt
  have hb := smallBucket_lt name
  have hs := Bucket.freeSlot_lt hf
  obtain ⟨hino, -⟩ := fileSlotAlloc_free D.d_lt hf
  have hslot := slotIno_toNat hd hb hs
  rw [fileNumber] at hslot
  change le32ToCpu (slotIno minFileBucketBits (BitVec.ofNat 64 D.d) (smallBucket name)
    (ht.buckets (smallBucket name)).freeSlot) = _
  rw [le32ToCpu_eq (by omega)]
  apply BitVec.eq_of_toNat_eq
  rw [hslot, hino]

end Directory

structure InOrder (bits : ℕ) (ht : HashTable) (slots : List (ℕ × ℕ)) : Prop where
  mem : ∀ x, x ∈ slots ↔ x.1 < 2 ^ bits ∧ x.2 < 8 ∧ ht.bit x.1 x.2 = true
  sorted : slots.Pairwise fun x y => x.1 < y.1 ∨ x.1 = y.1 ∧ x.2 < y.2

theorem liveSlots_inOrder (bits : ℕ) (ht : HashTable) : InOrder bits ht (liveSlots bits ht) where
  mem x := by
    rw [liveSlots, mem_cells]
    simp
  sorted := cells_sorted _ _ _ _

namespace Directory

variable (D : Directory)

/-- Whatever calls were made before, through whatever files and from whatever cursors, the first
call of an open file emits the subdirectories, the small files and the big files, and every later
one nothing. -/
theorem readdir_interleaved :
    (∀ cur before f, ∃ s s', D.calls ⟨cur, fun _ => 0⟩ before = some s ∧
      D.call s f = some (if f ∈ before then [] else D.children.map D.childDirent ++
        D.smallSlots.map D.smallDirent ++ D.bigSlots.map D.bigDirent, s')) ∧
    InOrder minFileBucketBits D.hashtbl D.smallSlots ∧
    (if D.dfi.isBigDir ≠ 0 then InOrder (minFileBucketBits + minDirBits) D.bigHashtbl D.bigSlots
      else D.bigSlots = []) ∧
    ∀ (ht : HashTable) (name : CStr), ¬ (ht.buckets (smallBucket name)).Full →
      (D.smallDirent (smallBucket name, (ht.buckets (smallBucket name)).freeSlot)).ino =
        (flatfsFileSlotAllocByName ht D.d name).1 := by
  refine ⟨fun cur before f => ?_, liveSlots_inOrder _ _, ?_, fun ht name => D.smallDirent_ino⟩
  · obtain ⟨s, hcalls, hs⟩ := D.calls_eq cur before
    obtain ⟨s', hcall, -⟩ := D.call_eq hs f
    exact ⟨s, s', hcalls, hcall⟩
  · unfold bigSlots
    split_ifs
    · exact liveSlots_inOrder _ _
    · rfl

/-- A call through one open file with a buffer for `cap` entries; the state is `ctx->pos` and the
cursors. -/
def boundedCall (s : ℕ × Cursors) (cap : ℕ) : Option (List Dirent × ℕ × Cursors) :=
  (D.readdir s.2 ⟨s.1, some cap, []⟩).map fun r => (r.1.out, r.1.pos, r.2)

def deliveries (D : Directory) : ℕ × Cursors → List ℕ → Option (List (List Dirent))
  | _, [] => some []
  | s, cap :: caps =>
    (D.boundedCall s cap).bind fun r => (deliveries D r.2 caps).map (r.1 :: ·)

/-- Calling until a call delivers nothing delivers every entry once. -/
def DeliversOnce (cur : Cursors) (caps : ℕ → ℕ) : Prop :=
  ∃ n outs, D.deliveries (0, cur) ((List.range (n + 1)).map caps) = some (outs ++ [[]]) ∧
    [] ∉ outs ∧ outs.flatten.Perm D.entries

theorem boundedCall_first (cur : Cursors) (cap : ℕ) :
    ∃ cur', D.boundedCall (0, cur) cap = some (D.entries.take cap, D.entries.length, cur') ∧
      D.AtEnd cur' := by
  obtain ⟨cur', hcall, hend⟩ := D.readdir_first cur
    (show (⟨0, some cap, []⟩ : DirContext).pos = 0 from rfl)
  refine ⟨cur', ?_, hend⟩
  rw [boundedCall, hcall]
  simp [DirContext.emitAll, fits]

theorem boundedCall_end {cur : Cursors} (hend : D.AtEnd cur) (cap : ℕ) :
    ∃ cur', D.boundedCall (D.entries.length, cur) cap = some ([], D.entries.length, cur') ∧
      D.AtEnd cur' := by
  by_cases h0 : D.entries.length = 0
  · -- nothing to read, and the file stays at its start
    obtain ⟨cur', hcall, hend'⟩ := D.boundedCall_first cur cap
    refine ⟨cur', ?_, hend'⟩
    rw [List.length_eq_zero_iff.mp h0, List.take_nil] at hcall
    rw [List.length_eq_zero_iff.mp h0]
    exact hcall
  · exact ⟨cur, by rw [boundedCall, D.readdir_end hend h0]; rfl, hend⟩

theorem deliveries_end {cur : Cursors} (hend : D.AtEnd cur) (caps : List ℕ) :
    D.deliveries (D.entries.length, cur) caps = some (caps.map fun _ => []) := by
  induction caps generalizing cur with
  | nil => rfl
  | cons cap caps ih =>
    obtain ⟨cur', hcall, hend'⟩ := D.boundedCall_end hend cap
    rw [deliveries, hcall, Option.bind_some, ih hend', Option.map_some, List.map_cons]

/-- The first call delivers what its buffer takes, and no later one delivers anything. -/
theorem deliveries_eq (cur : Cursors) (cap : ℕ) (caps : List ℕ) :
    D.deliveries (0, cur) (cap :: caps) = some (D.entries.take cap :: caps.map fun _ => []) := by
  obtain ⟨cur', hcall, hend⟩ := D.boundedCall_first cur cap
  rw [deliveries, hcall, Option.bind_some, D.deliveries_end hend, Option.map_some]

theorem flatten_of_stop {out : List Dirent} {caps : List ℕ} {outs : List (List Dirent)}
    (h : out :: caps.map (fun _ => []) = outs ++ [[]]) (hne : [] ∉ outs) : outs.flatten = out := by
  cases outs with
  | nil =>
    rw [List.nil_append, List.cons.injEq] at h
    rw [h.1, List.flatten_nil]
  | cons x outs =>
    rw [List.cons_append, List.cons.injEq] at h
    have hnil : outs = [] := by
      apply List.eq_nil_iff_forall_not_mem.mpr
      intro y hy
      have hmem : y ∈ outs ++ [[]] := List.mem_append_left _ hy
      rw [← h.2] at hmem
      obtain ⟨-, -, rfl⟩ := List.mem_map.mp hmem
      exact hne (List.mem_cons_of_mem _ hy)
    rw [hnil, h.1, List.flatten_singleton]

theorem deliversOnce_iff_length (cur : Cursors) (caps : ℕ → ℕ) :
    D.DeliversOnce cur caps ↔ D.entries.length ≤ caps 0 := by
  have hdel : ∀ n, D.deliveries (0, cur) ((List.range (n + 1)).map caps) = some
      (D.entries.take (caps 0) :: ((List.range n).map (caps ∘ Nat.succ)).map fun _ => []) := by
    intro n
    rw [List.range_succ_eq_map, List.map_cons, List.map_map, D.deliveries_eq]
  constructor
  · rintro ⟨n, outs, houts, hne, hperm⟩
    rw [hdel, Option.some_inj] at houts
    have hlen := hperm.length_eq
    rw [flatten_of_stop houts hne, List.length_take] at hlen
    omega
  · intro hle
    have htake : D.entries.take (caps 0) = D.entries := List.take_of_length_le hle
    by_cases hnil : D.entries = []
    · refine ⟨0, [], ?_, by simp, ?_⟩
      · rw [hdel, htake, hnil]
        rfl
      · rw [hnil, List.flatten_nil]
    · refine ⟨1, [D.entries], ?_, ?_, ?_⟩
      · rw [hdel, htake]
        rfl
      · rw [List.mem_singleton]
        exact fun he => hnil he.symm
      · rw [List.flatten_singleton]

/-- Calls with bounded buffers deliver every entry exactly when the buffer of the first one has room
for all subdirectories and files. -/
theorem deliversOnce_iff (cur : Cursors) (caps : ℕ → ℕ) :
    D.DeliversOnce cur caps ↔
      D.children.length + D.smallSlots.length + D.bigSlots.length ≤ caps 0 := by
  rw [D.deliversOnce_iff_length, entries]
  simp only [List.length_append, List.length_map]

end Directory

def filledTree : ℕ × DirTree :=
  fillOneDirEntry (fillSuper (fun _ _ => 0) fun _ => ⟨0, 0, 0⟩).dtree [97]

theorem filledTree_id : filledTree.1 = 3 := by decide

def mixedTree : DirTree := insertDir filledTree.2 2 filledTree.1 1

theorem mixedTree_inserted : DirTree.Inserted filledTree.2 mixedTree 2 filledTree.1 1 := by
  apply DirTree.insertDir_inserted
  decide

theorem mixedTree_repr :
    mixedTree.Repr (update (fun _ => []) 2 [filledTree.1]) (update (fun _ => []) 2 [1]) := by
  have hid : filledTree.1 ≠ 0 := by
    rw [filledTree_id]
    norm_num
  obtain ⟨hfill, hal, -, hbm, h3, hlt⟩ :=
    (DirTree.repr_init (fun _ _ => 0) fun _ => ⟨0, 0, 0⟩).fill hid
  have hused : filledTree.2.dirIdBitmap 2 = true := by decide
  have hn : filledTree.2.dirIdBitmap filledTree.1 = true := by decide
  exact hfill.insert (by norm_num) hused hn ⟨h3, hlt⟩ (fun _ h => by cases h) one_ne_zero
    (congrFun hal 1)

def mixedDir : Directory where
  disk _ _ := 0
  sb := { fillSuper (fun _ _ => 0) fun _ => ⟨0, 0, 0⟩ with
    dtree := mixedTree
    hashtbl := fun _ => some (initFileHt.modify 0 (·.take 0)) }
  dfi := ⟨2, -1, -1, 1, 0, -1, 0, 0, fun _ => 0⟩
  d := 2
  children := [filledTree.1]
  name _ := [97]
  hashtbl := initFileHt.modify 0 (·.take 0)
  bigHashtbl := initBigFileHt
  d_lt := by norm_num
  dirId := rfl
  table := rfl
  bigTable h := absurd rfl h
  lists := mixedTree_repr.lists 2
  names _ _ := by decide
  filled p hp := by
    have hp1 : p = 1 := by
      rw [mixedTree_repr.visited 2, update_self] at hp
      exact List.mem_singleton.mp hp
    have hid : filledTree.1 ≠ 0 := by
      rw [filledTree_id]
      norm_num
    -- the new node stands for the entry that was filled
    have hde : mixedTree.de (mixedTree.node p).de = filledTree.2.de filledTree.1 := by
      rw [hp1, mixedTree_inserted.node, if_pos rfl]
      apply mixedTree_inserted.others
      rw [filledTree_id]
      norm_num
    rw [hde]
    exact fillOneDirEntry_filledBy hid

theorem mixedDir_interleaved : ∃ s s', mixedDir.calls ⟨⟨0, 0, 0⟩, fun _ => 0⟩ [0, 1] = some s ∧
    mixedDir.call s 0 = some ([], s') :=
  mixedDir.readdir_interleaved.1 ⟨0, 0, 0⟩ [0, 1] 0

theorem mixedDir_delivers : mixedDir.DeliversOnce ⟨0, 0, 0⟩ fun _ =>
    mixedDir.children.length + mixedDir.smallSlots.length + mixedDir.bigSlots.length :=
  (mixedDir.deliversOnce_iff _ _).mpr le_rfl

/-- With room for one entry a call, the file behind the subdirectory is never delivered. -/
theorem mixedDir_loses_file : ¬ mixedDir.DeliversOnce ⟨0, 0, 0⟩ fun _ => 1 := by
  have hrow : ones (mixedDir.hashtbl.bit 0) 0 8 = [0] := by decide
  have hslots : 1 ≤ mixedDir.smallSlots.length := by
    have hn : 2 ^ minFileBucketBits = 4095 + 1 := by norm_num
    rw [Directory.smallSlots, liveSlots, hn, cells_succ, hrow, List.length_append, List.length_map,
      List.length_singleton]
    omega
  have hchildren : mixedDir.children.length = 1 := rfl
  rw [Directory.deliversOnce_iff_length, Directory.entries, not_le]
  simp only [List.length_append, List.length_map, hchildren]
  omega

end FlatFS
