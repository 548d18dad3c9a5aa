import FlatFS.DirTreeRun
import FlatFS.Mknod

namespace FlatFS
open Lib

def dirInfo (dirId : ℤ) (mem : FfsName) (name : CStr) : FfsInodeInfo where
  dirId := dirId
  bucketId := -1
  slotId := -1
  valid := 1
  isBigDir := 0
  bigDirId := -1
  iSize := 0
  filename := fillName mem name

/-- `ffs_mknod` of a directory in the directory of `dfi`, given the address `dle` that `kzalloc`
returned to `insert_dir`. The id 0 of a failed search is not looked at. -/
def ffsMknodDir (sb : SbInfo) (dfi : FfsInodeInfo) (mem : FfsName) (name : CStr) (dle : ℕ) :
    SbInfo × BitVec 64 × FfsInodeInfo :=
  let r := fillOneDirEntry sb.dtree name
  ({ sb with
      dtree := insertDir r.2 dfi.dirId.toNat r.1 dle
      hashtbl := Function.update sb.hashtbl r.1 (some initFileHt) },
    dirIdToInode (BitVec.ofNat 64 r.1), dirInfo r.1 mem name)

/-- The inode info that `flatfs_iget` fills in for the root. -/
def rootInfo (mem : FfsName) : FfsInodeInfo :=
  { dirInfo flatfsRootIno mem [47] with slotId := 0 }

/-- A live inode: its number, its info, the type in its mode and, but for the root, the object
that is its parent directory. -/
structure Object where
  ino : BitVec 64
  fi : FfsInodeInfo
  isDir : Bool
  parent : Option ℕ

/-- What there is of an object: the inode, or the record of the discard that its unlink has
issued and that has not ended. -/
inductive Cell
  | gone
  | live (x : Object)
  | discard (ioEnd : FfsIoEnd)

/-- The mounted file system with its objects in the order of their creation. -/
structure World where
  sb : SbInfo
  count : ℕ
  cell : ℕ → Cell

/-- The operations, each one taken as a whole. An `unlink` carries what stands at `b_private`,
and whether `submit_bio_for_discard` finds the buffer unlocked and dirty; the discard it then
issues ends at any later time. -/
inductive FsOp
  | mkdir (parent : ℕ) (name : CStr) (mem : FfsName) (dle : ℕ)
  | create (parent : ℕ) (name : CStr) (mem : FfsName)
  | unlink (f : ℕ) (ioEnd : FfsIoEnd) (submitted : Bool)
  | complete (f : ℕ)
  | rmdir (child : ℕ)

/-- `callback_for_discard` leaves its tables: there is none, or it is the bucket just behind the
last one, which the tests of `delete_file` and `delete_big_file` let through. -/
def callbackFaults (sb : SbInfo) (e : FfsIoEnd) : Prop :=
  if e.isBigDir = 0 then
    e.bucketId = 1 <<< minFileBucketBits ∨
      e.bucketId < 1 <<< minFileBucketBits ∧ sb.hashtbl e.dirId.toNat = none
  else e.bigDirId < 0 ∨ e.bucketId = 1 <<< (minFileBucketBits + minDirBits) ∨
    e.bucketId < 1 <<< (minFileBucketBits + minDirBits) ∧ sb.bigDirHashtbl e.bigDirId.toNat = none

instance (sb : SbInfo) (e : FfsIoEnd) : Decidable (callbackFaults sb e) :=
  inferInstanceAs (Decidable (ite _ _ _))

namespace Cell

def object : Cell → Option Object
  | live x => some x
  | _ => none

def dir (c : Cell) : Option Object := c.object.filter (·.isDir)

def file (c : Cell) : Option Object := c.object.filter (!·.isDir)

end Cell

namespace World

def setCell (w : World) (i : ℕ) (c : Cell) : World :=
  { w with cell := Function.update w.cell i c }

@[simp] theorem setCell_self (w : World) (i : ℕ) (c : Cell) : (w.setCell i c).cell i = c :=
  Function.update_self ..

theorem setCell_of_ne (w : World) {i j : ℕ} (h : j ≠ i) (c : Cell) :
    (w.setCell i c).cell j = w.cell j := Function.update_of_ne h ..

def add (w : World) (x : Object) : World :=
  { w.setCell w.count (.live x) with count := w.count + 1 }

def addFile (w : World) (parent : ℕ) : Option (BitVec 64 × FfsInodeInfo) → World
  | some (ino, fi) => w.add ⟨ino, fi, false, some parent⟩
  | none => w

/-- One operation; `none` when it is not enabled, or when the code faults. The size of a directory
is never written, so that `ffs_rmdir` does not refuse a directory with files in it. -/
def step (w : World) : FsOp → Option World
  | .mkdir parent name mem dle =>
    (w.cell parent).dir.map fun dir =>
      let r := ffsMknodDir w.sb dir.fi mem name dle
      { w with sb := r.1 }.add ⟨r.2.1, r.2.2, true, some parent⟩
  | .create parent name mem =>
    (w.cell parent).dir.bind fun dir =>
      (ffsMknodFile w.sb dir.fi mem name).map fun r =>
        ({ w with sb := r.sb }.setCell parent (.live { dir with fi := r.dfi })).addFile parent
          r.created
  | .unlink f ioEnd submitted =>
    (w.cell f).file.map fun x =>
      w.setCell f (if submitted then .discard (initHandlerForDiscard ioEnd x.fi) else .gone)
  | .complete f =>
    match w.cell f with
    | .discard ioEnd =>
      if callbackFaults w.sb ioEnd then none
      else some ({ w with sb := callbackForDiscard w.sb ioEnd }.setCell f .gone)
    | _ => none
  | .rmdir child =>
    (w.cell child).dir.bind fun x => x.parent.bind fun parent => (w.cell parent).dir.map fun dir =>
      if x.fi.iSize = 0 then
        { w with sb := removeDir w.sb dir.ino x.ino x.fi.bigDirId }.setCell child .gone
      else w

def mounted (mem : ℕ → ℕ → UInt8) (heap : ℕ → DirListEntry) (rootMem : FfsName) : World :=
  World.add ⟨fillSuper mem heap, 0, fun _ => .gone⟩
    ⟨dirIdToInode (BitVec.ofNat 64 flatfsRootIno), rootInfo rootMem, true, none⟩

def DistinctInos (w : World) : Prop := ∀ i j x y, (w.cell i).object = some x →
  (w.cell j).object = some y → x.ino = y.ino → i = j

end World

namespace DirTree

variable (t : DirTree)

theorem dirId_modifyDe {f : DirEntry → DirEntry} (hf : ∀ d, (f d).dirId = d.dirId) (i j : ℕ) :
    ((t.modifyDe i f).de j).dirId = (t.de j).dirId := by
  rw [modifyDe_de]
  split_ifs with h
  · rw [hf, h]
  · rfl

theorem fillOneDirEntry_frame (dirName : CStr) :
    (fillOneDirEntry t dirName).2.dirIdBitmap = (getUnusedDirId t.dirIdBitmap).2 ∧
      ∀ d, ((fillOneDirEntry t dirName).2.de d).dirId = (t.de d).dirId := by
  unfold fillOneDirEntry
  dsimp only
  by_cases h : (getUnusedDirId t.dirIdBitmap).1 = 0
  · rw [if_pos h]
    exact ⟨rfl, fun d => rfl⟩
  · rw [if_neg h]
    refine ⟨rfl, fun d => ?_⟩
    rw [dirId_modifyDe _ (by intro _; rfl)]

theorem insertDir_frame (parent n dle : ℕ) :
    (insertDir t parent n dle).dirIdBitmap = t.dirIdBitmap ∧
      ∀ d, ((insertDir t parent n dle).de d).dirId = (t.de d).dirId := by
  constructor
  · unfold insertDir
    dsimp only
    split_ifs <;> rfl
  · intro d
    unfold insertDir
    dsimp only
    rw [dirId_modifyDe _ (by intro _; rfl)]
    split_ifs
    · rw [dirId_modifyDe _ (by intro _; rfl)]
    · rw [dirId_modifyDe _ (by intro _; rfl)]
      rfl

theorem unlinkEntry_frame (parent dir dle start : ℕ) :
    (unlinkEntry t parent dir dle start).dirIdBitmap = t.dirIdBitmap ∧
      ∀ d, ((unlinkEntry t parent dir dle start).de d).dirId = (t.de d).dirId := by
  have hprev := relinkPrev_frame t parent (t.node dle).last (t.node dle).next start
  constructor
  · rw [← hprev.2]
    unfold unlinkEntry freeEntry relinkNext
    dsimp only
    split_ifs <;> rfl
  · intro d
    unfold unlinkEntry relinkNext
    rw [freeEntry_de]
    dsimp only
    split_ifs
    · rw [dirId_modifyDe _ (by intro _; rfl), relinkPrev_de]
    · rw [modifyNode_de, relinkPrev_de]
    · rw [relinkPrev_de]

end DirTree

/-- What `ffs_mknod` of a directory does to the tables when it finds the id `d`. -/
theorem ffsMknodDir_frame {sb : SbInfo} (dfi : FfsInodeInfo) (mem : FfsName) (name : CStr)
    (dle : ℕ) {d : ℕ} (hd : (getUnusedDirId sb.dtree.dirIdBitmap).1 = d) (h0 : d ≠ 0) :
    (ffsMknodDir sb dfi mem name dle).1.dtree.dirIdBitmap = sb.dtree.dirIdBitmap.set d ∧
      (∀ i, ((ffsMknodDir sb dfi mem name dle).1.dtree.de i).dirId = (sb.dtree.de i).dirId) ∧
      (ffsMknodDir sb dfi mem name dle).2 =
        (dirIdToInode (BitVec.ofNat 64 d), dirInfo d mem name) := by
  subst hd
  have hid := DirTree.fillOneDirEntry_fst sb.dtree name
  have hfill := DirTree.fillOneDirEntry_frame sb.dtree name
  have hins := DirTree.insertDir_frame (fillOneDirEntry sb.dtree name).2 dfi.dirId.toNat
    (fillOneDirEntry sb.dtree name).1 dle
  refine ⟨?_, fun i => (hins.2 i).trans (hfill.2 i), ?_⟩
  · rw [← (DirTree.getUnusedDirId_spec h0).2.2, ← hfill.1]
    exact hins.1
  · simp only [ffsMknodDir, hid]

/-- What `remove_dir` of directory `d` may change: the id and the table of `d`, and the big table
at the given position. Nothing changes when the list of the parent does not have it. -/
theorem removeDir_frame {sb : SbInfo} (hids : ∀ i, (sb.dtree.de i).dirId = i)
    (parentIno : BitVec 64) {dirIno : BitVec 64} {d : ℕ} (hd : (inodeToDirId dirIno).toNat = d)
    (bigDirId : ℤ) :
    let sb' := removeDir sb parentIno dirIno bigDirId
    (∀ i, (sb'.dtree.de i).dirId = i) ∧
      (∀ i, i ≠ d → sb'.dtree.dirIdBitmap i = sb.dtree.dirIdBitmap i ∧
        sb'.hashtbl i = sb.hashtbl i) ∧
      ∀ pos : ℕ, (pos : ℤ) ≠ bigDirId → sb'.bigDirBitmap pos = sb.bigDirBitmap pos ∧
        sb'.bigDirHashtbl pos = sb.bigDirHashtbl pos := by
  intro sb'
  subst hd
  cases hfind : findEntry sb.dtree (sb.dtree.de (inodeToDirId dirIno).toNat).dirId
      (sb.dtree.de (inodeToDirId parentIno).toNat).head 0
      (sb.dtree.de (inodeToDirId parentIno).toNat).dirSize with
  | none =>
    have hsb : sb' = sb := by simp only [sb', removeDir, hfind]
    rw [hsb]
    exact ⟨hids, fun i _ => ⟨rfl, rfl⟩, fun pos _ => ⟨rfl, rfl⟩⟩
  | some r =>
    obtain ⟨dle, start⟩ := r
    have hunl := DirTree.unlinkEntry_frame sb.dtree (inodeToDirId parentIno).toNat
      (inodeToDirId dirIno).toNat dle start
    have hde : ∀ i, ((clearEntry (unlinkEntry sb.dtree (inodeToDirId parentIno).toNat
        (inodeToDirId dirIno).toNat dle start) (inodeToDirId dirIno).toNat).de i).dirId = i := by
      intro i
      rw [(DirTree.clearEntry_de ..).1, hunl.2, hids]
    have hbm := (DirTree.clearEntry_frame (unlinkEntry sb.dtree (inodeToDirId parentIno).toNat
      (inodeToDirId dirIno).toNat dle start) (inodeToDirId dirIno).toNat).2.2
    rw [hunl.1, hunl.2, hids] at hbm
    simp only [sb', removeDir, hfind, hde]
    refine ⟨?_, ?_, ?_⟩
    · intro i
      split_ifs <;> exact hde i
    · intro i hi
      split_ifs <;> exact ⟨by rw [hbm, Bitmap.clear_of_ne _ hi], Function.update_of_ne hi ..⟩
    · intro pos hpos
      split_ifs with hbig
      · -- the position of the removed directory alone is cleared
        have hne : pos ≠ bigDirId.toNat := by omega
        exact ⟨Bitmap.clear_of_ne _ hne, Function.update_of_ne hne ..⟩
      · exact ⟨rfl, rfl⟩

inductive Place
  | dir (d : ℕ)
  | small (d b slt : ℕ)
  | big (d b slt : ℕ)
deriving DecidableEq

namespace Place

def number : Place → ℕ
  | dir d => d * 2 ^ 15 + 1
  | small d b slt => d * 2 ^ 15 + b * 8 + slt
  | big d b slt => bigDirField d + b * 8 + slt

def Valid : Place → Prop
  | dir d => d < 2 ^ 14
  | small d b slt => d < 2 ^ 14 ∧ b < 2 ^ 12 ∧ slt < 8
  | big d b slt => d < 2 ^ 14 ∧ b < 2 ^ 18 ∧ slt < 8

/-- The directory id that one reads in the number of a big file as in that of a small one: eleven
bits of the id, and the bucket bits that a small table does not have. -/
def spilledDir (d b : ℕ) : ℕ := d % 2 ^ 11 * 2 ^ 6 + b / 2 ^ 12

/-- The pairs of places that the encodings do not keep apart. The number of a directory is that
of slot 1 in its bucket 0. A slot of a big table is read as one of a small table of the directory
it spills into. And the big tables of two directories agree when the ids do in eleven bits. -/
def Clash : Place → Place → Prop
  | dir d, small d' b slt => d = d' ∧ b = 0 ∧ slt = 1
  | small d' b slt, dir d => d = d' ∧ b = 0 ∧ slt = 1
  | dir d, big d' b slt => d = spilledDir d' b ∧ b % 2 ^ 12 = 0 ∧ slt = 1
  | big d' b slt, dir d => d = spilledDir d' b ∧ b % 2 ^ 12 = 0 ∧ slt = 1
  | small d b slt, big d' b' slt' => d = spilledDir d' b' ∧ b = b' % 2 ^ 12 ∧ slt = slt'
  | big d' b' slt', small d b slt => d = spilledDir d' b' ∧ b = b' % 2 ^ 12 ∧ slt = slt'
  | big d b slt, big d' b' slt' => d ≠ d' ∧ d % 2 ^ 11 = d' % 2 ^ 11 ∧ b = b' ∧ slt = slt'
  | _, _ => False

instance : ∀ p q : Place, Decidable (p.Clash q)
  | dir .., dir .. | small .., small .. => inferInstanceAs (Decidable False)
  | dir .., small .. | small .., dir .. | dir .., big .. | big .., dir .. | small .., big ..
  | big .., small .. => inferInstanceAs (Decidable (_ ∧ _ ∧ _))
  | big .., big .. => inferInstanceAs (Decidable (_ ∧ _ ∧ _ ∧ _))

theorem Clash.symm {p q : Place} (h : p.Clash q) : q.Clash p := by
  cases p <;> cases q <;> simp only [Clash] at h ⊢ <;> first | exact h | skip
  obtain ⟨hne, hd, hb, hs⟩ := h
  exact ⟨hne.symm, hd.symm, hb.symm, hs.symm⟩

theorem small_number_eq_iff {d b slt d' b' slt' : ℕ} (hb : b < 2 ^ 12) (hs : slt < 8)
    (hb' : b' < 2 ^ 12) (hs' : slt' < 8) :
    d * 2 ^ 15 + b * 8 + slt = d' * 2 ^ 15 + b' * 8 + slt' ↔ d = d' ∧ b = b' ∧ slt = slt' := by
  omega

/-- The numbers with a set sign bit are above those of every small table. -/
theorem small_big_number_eq_iff {d b slt d' b' slt' : ℕ} (hd : d < 2 ^ 14) (hb : b < 2 ^ 12)
    (hs : slt < 8) (hs' : slt' < 8) :
    d * 2 ^ 15 + b * 8 + slt = bigDirField d' + b' * 8 + slt' ↔
      d = spilledDir d' b' ∧ b = b' % 2 ^ 12 ∧ slt = slt' := by
  unfold bigDirField spilledDir
  split_ifs with hsign
  · omega
  · constructor
    · intro he
      omega
    · rintro ⟨hd', -⟩
      omega

theorem big_number_eq_iff {d b slt d' b' slt' : ℕ} (hb : b < 2 ^ 18) (hs : slt < 8)
    (hb' : b' < 2 ^ 18) (hs' : slt' < 8) :
    bigDirField d + b * 8 + slt = bigDirField d' + b' * 8 + slt' ↔
      d % 2 ^ 11 = d' % 2 ^ 11 ∧ b = b' ∧ slt = slt' := by
  unfold bigDirField
  split_ifs <;> omega

/-- The encodings give two places one number exactly when these clash. -/
theorem number_eq_iff {p q : Place} (hp : p.Valid) (hq : q.Valid) :
    p.number = q.number ↔ p = q ∨ p.Clash q := by
  -- a directory has the number of slot 1 in bucket 0
  have hdir : ∀ d, number (dir d) = d * 2 ^ 15 + 0 * 8 + 1 := fun d => by
    rw [number, Nat.zero_mul, Nat.add_zero]
  cases p with
  | dir d =>
    cases q with
    | dir d' =>
      simp only [number, Clash, dir.injEq, or_false]
      omega
    | small d' b' slt' =>
      rw [hdir, number, small_number_eq_iff (by norm_num) (by norm_num) hq.2.1 hq.2.2]
      simp [Clash, eq_comm]
    | big d' b' slt' =>
      rw [hdir, number, small_big_number_eq_iff hp (by norm_num) (by norm_num) hq.2.2]
      simp [Clash, eq_comm]
  | small d b slt =>
    cases q with
    | dir d' =>
      rw [hdir, number, small_number_eq_iff hp.2.1 hp.2.2 (by norm_num) (by norm_num)]
      simp [Clash, eq_comm]
    | small d' b' slt' =>
      rw [number, number, small_number_eq_iff hp.2.1 hp.2.2 hq.2.1 hq.2.2]
      simp [Clash]
    | big d' b' slt' =>
      rw [number, number, small_big_number_eq_iff hp.1 hp.2.1 hp.2.2 hq.2.2]
      simp [Clash]
  | big d b slt =>
    cases q with
    | dir d' =>
      rw [hdir, number, eq_comm, small_big_number_eq_iff hq (by norm_num) (by norm_num) hp.2.2]
      simp [Clash, eq_comm]
    | small d' b' slt' =>
      rw [number, number, eq_comm, small_big_number_eq_iff hq.1 hq.2.1 hq.2.2 hp.2.2]
      simp [Clash]
    | big d' b' slt' =>
      rw [number, number, big_number_eq_iff hp.2.1 hp.2.2 hq.2.1 hq.2.2]
      simp only [Clash, big.injEq]
      constructor
      · rintro ⟨hd, hb, hs⟩
        by_cases he : d = d'
        · exact .inl ⟨he, hb, hs⟩
        · exact .inr ⟨he, hd, hb, hs⟩
      · rintro (⟨hd, hb, hs⟩ | ⟨-, hd, hb, hs⟩)
        · exact ⟨by rw [hd], hb, hs⟩
        · exact ⟨hd, hb, hs⟩

end Place

end FlatFS
