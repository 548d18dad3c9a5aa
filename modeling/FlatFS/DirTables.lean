import FlatFS.BigDirs
import FlatFS.DirKids
import FlatFS.Lib.Owners
import FlatFS.ObjectRun

namespace FlatFS
open Lib Function

def Cell.entry (c : Cell) : Option (ℕ × Option ℕ) :=
  c.dir.map fun x => (x.fi.dirId.toNat, x.parent)

def Cell.bigPos (c : Cell) : Option ℕ :=
  c.dir.bind fun x => if x.fi.isBigDir = 0 then none else some x.fi.bigDirId.toNat

namespace World

def entries (w : World) : ℕ → Option (ℕ × Option ℕ) := Cell.entry ∘ w.cell

def dirIds (w : World) : ℕ → Option ℕ := nameAt w.entries

def positions (w : World) : ℕ → Option ℕ := Cell.bigPos ∘ w.cell

/-- The ids of the live directories under a directory, in the order they were made. -/
def subdirs (w : World) : ℕ → List ℕ := childNames w.entries w.count

/-- A `mkdir` finds an id, and `kzalloc` a fresh node. An `rmdir` takes a directory without
subdirectories that is not the last of several. Files are created, unlinked and discarded in any
order, also those of a directory that is removed. -/
def TidyDirs (w : World) : FsOp → Prop
  | .mkdir _ _ _ dle =>
    (getUnusedDirId w.sb.dtree.dirIdBitmap).1 ≠ 0 ∧ dle ≠ 0 ∧ w.sb.dtree.allocated dle = false
  | .rmdir child => ∀ x ∈ (w.cell child).dir, w.subdirs x.fi.dirId.toNat = [] ∧
    ∀ parent ∈ x.parent, ∀ dir ∈ (w.cell parent).dir,
      KeepsTail ⟨w.sb, w.subdirs⟩ (.rmdir dir.fi.dirId.toNat x.fi.dirId.toNat x.fi.bigDirId)
  | _ => True

instance (w : World) : ∀ op, Decidable (w.TidyDirs op)
  | .mkdir _ _ _ _ => inferInstanceAs (Decidable (_ ∧ _ ∧ _))
  | .rmdir _ => inferInstanceAs (Decidable (∀ _ ∈ _, _))
  | .create _ _ _ | .unlink _ _ _ | .complete _ => .isTrue trivial

end World

structure SameTables (sb sb' : SbInfo) : Prop where
  dtree : sb'.dtree = sb.dtree
  tables : ∀ d, (sb'.hashtbl d).isSome = (sb.hashtbl d).isSome
  bigTables : ∀ p, (sb'.bigDirHashtbl p).isSome = (sb.bigDirHashtbl p).isSome
  bitmap : sb'.bigDirBitmap = sb.bigDirBitmap
  num : sb'.bigDirNum = sb.bigDirNum

theorem SameTables.refl (sb : SbInfo) : SameTables sb sb :=
  ⟨rfl, fun _ => rfl, fun _ => rfl, rfl, rfl⟩

theorem isSome_update {t : ℕ → Option HashTable} {i : ℕ} {o : Option HashTable}
    (h : o.isSome = (t i).isSome) (j : ℕ) : (update t i o j).isSome = (t j).isSome := by
  by_cases hj : j = i
  · rw [hj, update_self, h]
  · rw [update_of_ne hj]

theorem sameTables_callback (sb : SbInfo) (e : FfsIoEnd) :
    SameTables sb (callbackForDiscard sb e) := by
  unfold callbackForDiscard
  split_ifs
  · exact ⟨rfl, isSome_update Option.isSome_map, fun _ => rfl, rfl, rfl⟩
  · exact ⟨rfl, fun _ => rfl, isSome_update Option.isSome_map, rfl, rfl⟩

section mknod

variable {sb : SbInfo} {dfi : FfsInodeInfo} {mem : FfsName} {name : CStr} {r : MknodResult}

theorem mknodBigFile_sameTables (h : mknodBigFile sb dfi mem name = some r) :
    SameTables sb r.sb := by
  obtain ⟨ht, hht, he⟩ := Option.map_eq_some_iff.mp h
  rw [← he]
  refine ⟨rfl, fun _ => rfl, ?_, rfl, rfl⟩
  apply isSome_update
  rw [hht]
  rfl

/-- A create leaves the tables as they are, or it promotes the directory to a free position. -/
theorem mknodFile_sameTables (hi : BigRun.Inv ⟨sb, fun _ => none⟩)
    (h : ffsMknodFile sb dfi mem name = some r) :
    (SameTables sb r.sb ∧ r.dfi = dfi) ∨
      ∃ pos : ℕ, dfi.isBigDir = 0 ∧ pos < 64 ∧ sb.bigDirBitmap pos = false ∧
        SameTables (promotedSb sb pos initBigFileHt) r.sb ∧
        r.dfi = { dfi with isBigDir := 1, bigDirId := pos } := by
  unfold ffsMknodFile mknodFileBy at h
  split_ifs at h with hbig
  · obtain ⟨ht, hht, h⟩ := Option.bind_eq_some_iff.mp h
    dsimp only at h
    generalize flatfsFileSlotAllocByName ht dfi.dirId name = a at h
    have hsome : ∀ o : HashTable, ∀ d, (update sb.hashtbl dfi.dirId.toNat (some o) d).isSome =
        (sb.hashtbl d).isSome := by
      intro o
      apply isSome_update
      rw [hht]
      rfl
    split_ifs at h with hfull
    · obtain ⟨⟨pos, sb'⟩, hres, h⟩ := Option.bind_eq_some_iff.mp h
      -- `resize_dir` does not look at the tables of the directories
      have hi' : BigRun.Inv ⟨{ sb with hashtbl := update sb.hashtbl dfi.dirId.toNat (some a.2) },
          fun _ => none⟩ := hi.frame rfl rfl rfl
      by_cases hfree : HasFreePosition sb
      · obtain ⟨p, hlt, hclear, he⟩ := hi'.resizeDir_free hfree
        rw [he] at hres
        cases hres
        have hne : ¬ (p : ℤ) = -1 := by omega
        dsimp only at h
        rw [if_neg hne] at h
        have hsame := mknodBigFile_sameTables h
        refine .inr ⟨p, hbig, hlt, hclear, ⟨hsame.dtree, ?_, hsame.bigTables, hsame.bitmap,
          hsame.num⟩, (mknodBigFile_result h).1⟩
        exact fun d => (hsame.tables d).trans (hsome _ d)
      · rw [hi'.resizeDir_full hfree] at hres
        cases hres
    · cases h
      exact .inl ⟨⟨rfl, hsome _, fun _ => rfl, rfl, rfl⟩, rfl⟩
  · exact .inl ⟨mknodBigFile_sameTables h, (mknodBigFile_result h).1⟩

end mknod

theorem BigRun.Inv.unnamed {s : BigRun} (hi : s.Inv) : BigRun.Inv ⟨s.sb, fun _ => none⟩ := by
  refine ⟨hi.num, hi.table, hi.lt, fun d p hp => ?_, fun d e p hp => ?_⟩
  · cases hp
  · cases hp

namespace World

/-- Every directory has its parent, its number, its id and its table, and every promoted one its
position; and no more ids, tables and positions are in use. -/
structure DirsInv (w : World) : Prop where
  family : Family w.entries w.count
  named : ∀ i x, (w.cell i).dir = some x →
    0 ≤ x.fi.dirId ∧ x.ino = dirIdToInode (BitVec.ofNat 64 x.fi.dirId.toNat)
  bigDirId : ∀ i x, (w.cell i).dir = some x →
    if x.fi.isBigDir = 0 then x.fi.bigDirId = -1 else 0 ≤ x.fi.bigDirId
  ids : Owned w.dirIds w.sb.dtree.Live
  tables : ∀ d, (w.sb.hashtbl d).isSome = true ↔ w.sb.dtree.Live d
  positions : Owned w.positions fun p => w.sb.bigDirBitmap p = true
  counts : BigRun.Inv ⟨w.sb, fun _ => none⟩

variable {w w' : World}

theorem entries_of_dir {i : ℕ} {x : Object} (h : (w.cell i).dir = some x) :
    w.entries i = some (x.fi.dirId.toNat, x.parent) := congrArg (Option.map _) h

theorem dirIds_of_dir {i : ℕ} {x : Object} (h : (w.cell i).dir = some x) :
    w.dirIds i = some x.fi.dirId.toNat := nameAt_eq (entries_of_dir h)

theorem positions_of_dir {i : ℕ} {x : Object} (h : (w.cell i).dir = some x) :
    w.positions i = if x.fi.isBigDir = 0 then none else some x.fi.bigDirId.toNat :=
  congrArg (Option.bind · _) h

theorem positions_big {i : ℕ} {x : Object} (h : (w.cell i).dir = some x)
    (hbig : x.fi.isBigDir ≠ 0) : w.positions i = some x.fi.bigDirId.toNat := by
  rw [positions_of_dir h, if_neg hbig]

theorem DirsInv.live (hi : DirsInv w) {i : ℕ} {x : Object} (hx : (w.cell i).dir = some x) :
    w.sb.dtree.Live x.fi.dirId.toNat :=
  (hi.ids.used_iff _).mpr ⟨i, dirIds_of_dir hx⟩

theorem DirsInv.dirId_nat (hi : DirsInv w) {i : ℕ} {x : Object} (hx : (w.cell i).dir = some x) :
    x.fi.dirId = x.fi.dirId.toNat := (Int.toNat_of_nonneg (hi.named i x hx).1).symm

theorem DirsInv.table (hi : DirsInv w) {i : ℕ} {x : Object} (hx : (w.cell i).dir = some x) :
    ∃ ht, w.sb.hashtbl x.fi.dirId.toNat = some ht :=
  Option.isSome_iff_exists.mp ((hi.tables _).mpr (hi.live hx))

theorem DirsInv.bigTable (hi : DirsInv w) {i : ℕ} {x : Object} (hx : (w.cell i).dir = some x)
    (hbig : x.fi.isBigDir ≠ 0) : ∃ ht, w.sb.bigDirHashtbl x.fi.bigDirId.toNat = some ht := by
  have hset := (hi.positions.used_iff _).mpr ⟨i, positions_big hx hbig⟩
  exact Option.isSome_iff_exists.mp ((hi.counts.table _).symm.trans hset)

theorem DirsInv.dir_count (hi : DirsInv w) : (w.cell w.count).dir = none :=
  Option.map_eq_none_iff.mp (hi.family.fresh _ le_rfl)

theorem DirsInv.dirId_ino (hi : DirsInv w) {i : ℕ} {x : Object} (hx : (w.cell i).dir = some x) :
    (inodeToDirId x.ino).toNat = x.fi.dirId.toNat := by
  rw [(hi.named i x hx).2]
  exact inodeToDirId_dirIdToInode ((hi.live hx).2.1.trans (by norm_num))

theorem DirsInv.ino_toNat (hi : DirsInv w) {i : ℕ} {x : Object} (hx : (w.cell i).dir = some x) :
    x.ino.toNat = x.fi.dirId.toNat * 2 ^ 15 + 1 := by
  rw [(hi.named i x hx).2, dirIdToInode_toNat (hi.live hx).2.1]

theorem DirsInv.lt_count (hi : DirsInv w) {i : ℕ} {x : Object} (hx : (w.cell i).dir = some x) :
    i < w.count := by
  by_contra hge
  have hgone := hi.family.fresh i (not_lt.mp hge)
  rw [entries_of_dir hx] at hgone
  cases hgone

structure SameDirs (w w' : World) : Prop where
  dir : ∀ i, (w'.cell i).dir = (w.cell i).dir
  tables : SameTables w.sb w'.sb
  count : w'.count = w.count ∨ w'.count = w.count + 1

theorem SameDirs.entries (h : SameDirs w w') : w'.entries = w.entries := by
  funext i
  exact congrArg (Option.map _) (h.dir i)

theorem SameDirs.inv (h : SameDirs w w') (hi : DirsInv w) : DirsInv w' := by
  have hpos : w'.positions = w.positions := by
    funext i
    rw [World.positions, World.positions, comp_apply, Cell.bigPos, h.dir]
    rfl
  have hcount : w.count ≤ w'.count := by
    have hc := h.count
    omega
  constructor
  case family =>
    rw [h.entries]
    exact ⟨fun i hle => hi.family.fresh i (hcount.trans hle), hi.family.parent⟩
  case named => exact fun i x hx => hi.named i x (h.dir i ▸ hx)
  case bigDirId => exact fun i x hx => hi.bigDirId i x (h.dir i ▸ hx)
  case ids =>
    rw [dirIds, h.entries, h.tables.dtree]
    exact hi.ids
  case tables =>
    intro d
    rw [h.tables.tables, h.tables.dtree]
    exact hi.tables d
  case positions =>
    rw [hpos, h.tables.bitmap]
    exact hi.positions
  case counts =>
    refine ⟨?_, fun p => ?_, ?_, fun d p hp => ?_, fun d e p hp => ?_⟩
    · rw [h.tables.num, h.tables.bitmap]
      exact hi.counts.num
    · rw [h.tables.bitmap, h.tables.bigTables]
      exact hi.counts.table p
    · rw [h.tables.bitmap]
      exact hi.counts.lt
    · cases hp
    · cases hp

theorem SameDirs.subdirs (h : SameDirs w w') (hi : DirsInv w) : w'.subdirs = w.subdirs := by
  rw [World.subdirs, World.subdirs, h.entries]
  rcases h.count with hc | hc
  · rw [hc]
  · rw [hc, childNames_succ (hi.family.fresh _ le_rfl)]

theorem sameDirs_setCell {i : ℕ} {c : Cell} (hold : (w.cell i).dir = none) (hc : c.dir = none)
    {sb : SbInfo} (hsb : SameTables w.sb sb) :
    SameDirs w ({ w with sb := sb }.setCell i c) := by
  refine ⟨fun j => ?_, hsb, .inl rfl⟩
  by_cases hj : j = i
  · rw [hj, setCell_self, hc, hold]
  · rw [setCell_of_ne _ hj]

theorem sameDirs_addFile (hi : DirsInv w) (parent : ℕ)
    (created : Option (BitVec 64 × FfsInodeInfo)) : SameDirs w (w.addFile parent created) := by
  cases created with
  | none => exact ⟨fun _ => rfl, .refl _, .inl rfl⟩
  | some f =>
    refine ⟨(sameDirs_setCell hi.dir_count ?_ (.refl _)).dir, .refl _, .inr rfl⟩
    rfl

end World

namespace World

variable {w : World} {p : ℕ} {dir : Object}

theorem DirsInv.promote (hi : DirsInv w) (hdir : (w.cell p).dir = some dir)
    (hsmall : dir.fi.isBigDir = 0) {pos : ℕ} (hlt : pos < 64)
    (hclear : w.sb.bigDirBitmap pos = false) :
    let w' := { w with sb := promotedSb w.sb pos initBigFileHt }.setCell p
      (.live (promoted dir pos))
    DirsInv w' ∧ w'.subdirs = w.subdirs := by
  intro w'
  have hlive : Cell.dir (.live (promoted dir pos)) = some (promoted dir pos) := dir_withInfo hdir _
  have hdirs : ∀ i x, (w'.cell i).dir = some x →
      i = p ∧ x = promoted dir pos ∨ i ≠ p ∧ (w.cell i).dir = some x := by
    intro i x hx
    by_cases hip : i = p
    · rw [hip, setCell_self, hlive] at hx
      exact .inl ⟨hip, (Option.some.inj hx).symm⟩
    · rw [setCell_of_ne _ hip] at hx
      exact .inr ⟨hip, hx⟩
  have hentries : w'.entries = w.entries := by
    have hentry : Cell.entry (.live (promoted dir pos)) = w.entries p := by
      rw [Cell.entry, hlive, entries_of_dir hdir]
      rfl
    refine (comp_update Cell.entry w.cell p (.live (promoted dir pos))).trans ?_
    rw [hentry]
    exact update_eq_self ..
  have hpositions : w'.positions = update w.positions p (some pos) := by
    refine (comp_update Cell.bigPos w.cell p (.live (promoted dir pos))).trans ?_
    rw [Cell.bigPos, hlive]
    rfl
  refine ⟨?_, by rw [World.subdirs, hentries]; rfl⟩
  constructor
  case family =>
    rw [hentries]
    exact hi.family
  case named =>
    intro i x hx
    rcases hdirs i x hx with ⟨-, rfl⟩ | ⟨-, hx⟩
    · exact hi.named p dir hdir
    · exact hi.named i x hx
  case bigDirId =>
    intro i x hx
    rcases hdirs i x hx with ⟨-, rfl⟩ | ⟨-, hx⟩
    · exact Int.natCast_nonneg pos
    · exact hi.bigDirId i x hx
  case ids =>
    rw [dirIds, hentries]
    exact hi.ids
  case tables => exact hi.tables
  case positions =>
    rw [hpositions]
    apply hi.positions.acquire
    · rw [positions_of_dir hdir, if_pos hsmall]
    · rw [hclear]
      exact Bool.false_ne_true
    · exact fun q => Bitmap.set_iff ..
  case counts =>
    exact (hi.counts.promote (d := 0) rfl hlt hclear).unnamed

end World

theorem removeDir_found_tables {sb : SbInfo} {parentIno dirIno : BitVec 64} (bigDirId : ℤ)
    {x start d : ℕ} (hids : ∀ i, (sb.dtree.de i).dirId = i) (hd : (inodeToDirId dirIno).toNat = d)
    (h : findEntry sb.dtree (sb.dtree.de (inodeToDirId dirIno).toNat).dirId
      (sb.dtree.de (inodeToDirId parentIno).toNat).head 0
      (sb.dtree.de (inodeToDirId parentIno).toNat).dirSize = some (x, start)) :
    let sb' := removeDir sb parentIno dirIno bigDirId
    sb'.hashtbl = update sb.hashtbl d none ∧
      sb'.bigDirBitmap = if 0 ≤ bigDirId ∧ (sb.bigDirHashtbl bigDirId.toNat).isSome then
        sb.bigDirBitmap.clear bigDirId.toNat else sb.bigDirBitmap := by
  intro sb'
  have hde : ((clearEntry (unlinkEntry sb.dtree (inodeToDirId parentIno).toNat
      (inodeToDirId dirIno).toNat x start) (inodeToDirId dirIno).toNat).de
        (inodeToDirId dirIno).toNat).dirId = d := by
    rw [(DirTree.clearEntry_de ..).1, (DirTree.unlinkEntry_frame ..).2, hids, hd]
  simp only [sb', removeDir, h, hde]
  split_ifs <;> exact ⟨rfl, rfl⟩

namespace World

variable {w : World} {p : ℕ} {dir : Object} {nodes : ℕ → List ℕ}

theorem DirsInv.mkdir (hi : DirsInv w) (hdir : (w.cell p).dir = some dir)
    (hrepr : w.sb.dtree.Repr w.subdirs nodes) {name : CStr} {mem : FfsName} {dle : ℕ}
    (hok : w.TidyDirs (.mkdir p name mem dle)) :
    let r := ffsMknodDir w.sb dir.fi mem name dle
    let n := (fillOneDirEntry w.sb.dtree name).1
    let w' := { w with sb := r.1 }.add ⟨r.2.1, r.2.2, true, some p⟩
    DirsInv w' ∧
      w'.subdirs = update w.subdirs dir.fi.dirId.toNat (w.subdirs dir.fi.dirId.toNat ++ [n]) := by
  intro r n w'
  obtain ⟨hid, h0, hfresh⟩ := hok
  have hn : (getUnusedDirId w.sb.dtree.dirIdBitmap).1 = n :=
    (DirTree.fillOneDirEntry_fst ..).symm
  rw [hn] at hid
  have hm : DirTree.Mkdir w.sb.dtree r.1.dtree dir.fi.dirId.toNat name n dle :=
    ⟨rfl, hid, hi.live hdir, h0, hfresh, rfl⟩
  obtain ⟨-, hclear, hbm, h3, hlt⟩ := hrepr.mkdir hm
  have hr : r.2 = (dirIdToInode (BitVec.ofNat 64 n), dirInfo n mem name) :=
    (ffsMknodDir_frame dir.fi mem name dle hn hid).2.2
  have hlive : ∀ d, r.1.dtree.Live d ↔ d = n ∨ w.sb.dtree.Live d := by
    intro d
    simp only [DirTree.Live, hbm, Bitmap.set_iff]
    by_cases hd : d = n
    · simp only [hd, true_or, and_true, iff_true]
      omega
    · simp [hd]
  have hnew : ¬ w.sb.dtree.Live n := by
    intro hn
    rw [hn.2.2] at hclear
    cases hclear
  have hgone := hi.family.fresh w.count le_rfl
  have hentries : w'.entries = update w.entries w.count (some (n, some p)) := by
    refine (comp_update Cell.entry w.cell w.count _).trans ?_
    rw [hr]
    rfl
  obtain ⟨hfamily, hkids⟩ := hi.family.add (entries_of_dir hdir) n
  rw [← hentries] at hfamily hkids
  refine ⟨?_, hkids⟩
  have hdirs : ∀ i x, (w'.cell i).dir = some x →
      x = ⟨r.2.1, r.2.2, true, some p⟩ ∨ (w.cell i).dir = some x := by
    intro i x hx
    by_cases hic : i = w.count
    · rw [hic] at hx
      exact .inl (dir_live ((congrArg Cell.dir (setCell_self ..)).symm.trans hx))
    · exact .inr ((congrArg Cell.dir (setCell_of_ne _ hic _)).symm.trans hx)
  constructor
  case family => exact hfamily
  case named =>
    intro i x hx
    rcases hdirs i x hx with rfl | hx
    · rw [hr]
      exact ⟨Int.natCast_nonneg n, rfl⟩
    · exact hi.named i x hx
  case bigDirId =>
    intro i x hx
    rcases hdirs i x hx with rfl | hx
    · rw [hr]
      rfl
    · exact hi.bigDirId i x hx
  case ids =>
    rw [dirIds, hentries, nameAt_update]
    refine hi.ids.acquire (congrArg (Option.map Prod.fst) hgone) hnew ?_
    exact hlive
  case tables =>
    intro d
    refine Iff.trans ?_ (hlive d).symm
    change (update w.sb.hashtbl n (some initFileHt) d).isSome = true ↔ _
    rw [← hi.tables, update_apply]
    by_cases hd : d = n <;> simp [hd]
  case positions =>
    have hsame : w'.positions = w.positions := by
      have hnone : Cell.bigPos (.live ⟨r.2.1, r.2.2, true, some p⟩) = w.positions w.count := by
        rw [hr, World.positions, comp_apply, Cell.bigPos, Cell.bigPos,
          Option.map_eq_none_iff.mp hgone]
        rfl
      refine (comp_update Cell.bigPos w.cell w.count _).trans ?_
      rw [hnone]
      exact update_eq_self ..
    rw [hsame]
    exact hi.positions
  case counts => exact hi.counts.frame rfl rfl rfl

end World

theorem BigRun.Inv.removeDir {sb : SbInfo} (hi : BigRun.Inv ⟨sb, fun _ => none⟩)
    (parentIno dirIno : BitVec 64) {q : ℤ}
    (hq : q = -1 ∨ 0 ≤ q ∧ sb.bigDirBitmap q.toNat = true) :
    BigRun.Inv ⟨FlatFS.removeDir sb parentIno dirIno q, fun _ => none⟩ := by
  rcases hq with rfl | ⟨h0, hset⟩
  · exact (hi.remove parentIno dirIno 0).unnamed
  · have hone : ∀ d r, update (fun _ => none) 0 (some q.toNat) d = some r →
        d = 0 ∧ r = q.toNat := by
      intro d r hd
      rw [update_apply] at hd
      split_ifs at hd with hd0
      exact ⟨hd0, (Option.some.inj hd).symm⟩
    have hnamed : BigRun.Inv ⟨sb, update (fun _ => none) 0 (some q.toNat)⟩ := by
      refine ⟨hi.num, hi.table, hi.lt, fun d r hd => ?_, fun d e r hd he => ?_⟩
      · rw [(hone d r hd).2]
        exact hset
      · rw [(hone d r hd).1, (hone e r he).1]
    have hid : BigRun.bigDirId ⟨sb, update (fun _ => none) 0 (some q.toNat)⟩ 0 = q := by
      simp only [BigRun.bigDirId, update_self, Option.elim_some, Int.toNat_of_nonneg h0]
    have hrem := (hnamed.remove parentIno dirIno 0).unnamed
    rwa [hid] at hrem

theorem DirTree.Repr.findEntry_listed {t : DirTree} {children nodes : ℕ → List ℕ}
    (h : t.Repr children nodes) {parent child : ℕ} (hmem : child ∈ children parent) :
    ∃ r, findEntry t child (t.de parent).head 0 (t.de parent).dirSize = some r := by
  rw [← h.kids parent] at hmem
  obtain ⟨x, hx, hxc⟩ := List.mem_map.mp hmem
  have hnd : ((nodes parent).map fun p => (t.de (t.node p).de).dirId).Nodup := by
    simp only [h.ids, h.kids]
    exact h.kids_nodup parent
  obtain ⟨xs, -, -, hfind⟩ := DirTree.findEntry_split (h.seg parent) (h.size parent).ge hnd hx
    ((h.ids _).trans hxc)
  exact ⟨_, hfind⟩

namespace World

variable {w : World} {p c : ℕ} {dir x : Object} {nodes : ℕ → List ℕ}

theorem DirsInv.mem_subdirs (hi : DirsInv w) (hx : (w.cell c).dir = some x)
    (hparent : x.parent = some p) (hdir : (w.cell p).dir = some dir) :
    x.fi.dirId.toNat ∈ w.subdirs dir.fi.dirId.toNat := by
  apply List.mem_filterMap.mpr
  refine ⟨c, List.mem_range.mpr (hi.lt_count hx), ?_⟩
  have hp : parentAt w.entries c = some dir.fi.dirId.toNat := by
    rw [parentAt, entries_of_dir hx, Option.bind_some, hparent, Option.bind_some]
    exact dirIds_of_dir hdir
  rw [childAt, if_pos hp]
  exact dirIds_of_dir hx

/-- A directory without subdirectories is the parent of none. -/
theorem DirsInv.no_child (hi : DirsInv w) (hx : (w.cell c).dir = some x)
    (hleaf : w.subdirs x.fi.dirId.toNat = []) (i a : ℕ) : w.entries i ≠ some (a, some c) := by
  intro he
  obtain ⟨y, hy, hya⟩ := Option.map_eq_some_iff.mp he
  have hmem := hi.mem_subdirs hy (Prod.mk.inj hya).2 hx
  rw [hleaf] at hmem
  exact List.not_mem_nil hmem

theorem DirsInv.rmdir (hi : DirsInv w) (hx : (w.cell c).dir = some x)
    (hparent : x.parent = some p) (hdir : (w.cell p).dir = some dir)
    (hrepr : w.sb.dtree.Repr w.subdirs nodes) (hleaf : w.subdirs x.fi.dirId.toNat = []) :
    let w' := { w with sb := removeDir w.sb dir.ino x.ino x.fi.bigDirId }.setCell c .gone
    DirsInv w' ∧ w'.subdirs = update w.subdirs dir.fi.dirId.toNat
      ((w.subdirs dir.fi.dirId.toNat).erase x.fi.dirId.toNat) := by
  intro w'
  obtain ⟨-, hino⟩ := hi.named c x hx
  obtain ⟨-, hpino⟩ := hi.named p dir hdir
  have hid := hi.dirId_ino hx
  have hpid := hi.dirId_ino hdir
  have hmem := hi.mem_subdirs hx hparent hdir
  obtain ⟨r, hfind⟩ := hrepr.findEntry_listed hmem
  rw [← hrepr.ids x.fi.dirId.toNat, ← hid, ← hpid] at hfind
  obtain ⟨htab, hbits⟩ := removeDir_found_tables x.fi.bigDirId hrepr.ids hid hfind
  obtain ⟨xs, y, ys, hnodes, -, hdtree⟩ :=
    removeDir_dtree (s := ⟨w.sb, w.subdirs⟩) x.fi.bigDirId hrepr hmem
  rw [← hino, ← hpino] at hdtree
  have hlive : ∀ d, w'.sb.dtree.Live d ↔ d ≠ x.fi.dirId.toNat ∧ w.sb.dtree.Live d := by
    intro d
    have hbm : w'.sb.dtree.dirIdBitmap = w.sb.dtree.dirIdBitmap.clear x.fi.dirId.toNat :=
      (congrArg DirTree.dirIdBitmap hdtree).trans (hrepr.rmdir_dirIdBitmap hnodes hleaf)
    simp only [DirTree.Live, hbm, Bitmap.clear_iff]
    tauto
  -- what the position of the directory is, if it has one
  have hq := hi.bigDirId c x hx
  have hown := positions_of_dir hx
  have hused : x.fi.bigDirId = -1 ∧ w.positions c = none ∨ 0 ≤ x.fi.bigDirId ∧
      w.positions c = some x.fi.bigDirId.toNat ∧ w.sb.bigDirBitmap x.fi.bigDirId.toNat = true := by
    split_ifs at hq hown
    · exact .inl ⟨hq, hown⟩
    · exact .inr ⟨hq, hown, (hi.positions.used_iff _).mpr ⟨c, hown⟩⟩
  have hself : w.entries c = some (x.fi.dirId.toNat, some p) := hparent ▸ entries_of_dir hx
  have hentries : w'.entries = update w.entries c none := comp_update ..
  obtain ⟨hfamily, hkids⟩ := hi.family.remove hself (entries_of_dir hdir)
    (fun i he => hi.ids.inj i c _ he (dirIds_of_dir hx)) (hi.no_child hx hleaf)
  rw [← hentries] at hfamily hkids
  refine ⟨?_, hkids⟩
  constructor
  case family => exact hfamily
  case named => exact fun i y hy => hi.named i y (of_setCell_gone rfl hy).2
  case bigDirId => exact fun i y hy => hi.bigDirId i y (of_setCell_gone rfl hy).2
  case ids =>
    rw [dirIds, hentries, nameAt_update]
    exact hi.ids.release (dirIds_of_dir hx) hlive
  case tables =>
    intro d
    rw [hlive, ← hi.tables]
    change (((removeDir w.sb dir.ino x.ino x.fi.bigDirId).hashtbl) d).isSome = true ↔ _
    rw [htab, update_apply]
    by_cases hd : d = x.fi.dirId.toNat <;> simp [hd]
  case positions =>
    have hpos : w'.positions = update w.positions c none := comp_update ..
    change Owned w'.positions fun q => (removeDir w.sb dir.ino x.ino x.fi.bigDirId).bigDirBitmap q
      = true
    rw [hpos, hbits]
    rcases hused with ⟨hneg, hnone⟩ | ⟨h0, hsome, hset⟩
    · rw [if_neg (by omega), ← hnone, update_eq_self]
      exact hi.positions
    · rw [if_pos ⟨h0, by rw [← hi.counts.table, hset]⟩]
      exact hi.positions.release hsome fun q => Bitmap.clear_iff ..
  case counts =>
    apply hi.counts.removeDir
    exact hused.imp (fun h => h.1) fun h => ⟨h.1, h.2.2⟩

end World

end FlatFS
