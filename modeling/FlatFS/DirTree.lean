import FlatFS.FileTable
import FlatFS.Layout
import FlatFS.Lib.DList

namespace FlatFS
open Lib

/-- `struct dir_list_entry`; the directory it stands for is an index of the tree, and
addresses are numbers with 0 for `NULL`. -/
structure DirListEntry where
  de : ℕ
  last : ℕ
  next : ℕ

structure DirEntry where
  dirId : ℕ
  dirName : ℕ → UInt8
  namelen : ℕ
  recLen : ℕ
  head : ℕ
  tail : ℕ
  dirSize : ℕ

/-- `struct dir_tree` with the memory of its list nodes. The contents of a freed node
stay where they are until its address is allocated again. -/
structure DirTree where
  de : ℕ → DirEntry
  dirEntryNum : ℕ
  dirIdBitmap : Bitmap
  node : ℕ → DirListEntry
  allocated : ℕ → Bool

/-- The fields of `struct flatfs_sb_info` that the operations use. -/
structure SbInfo where
  dtree : DirTree
  hashtbl : ℕ → Option HashTable
  bigDirHashtbl : ℕ → Option BigDirHashTable
  bigDirBitmap : Bitmap
  bigDirNum : BitVec 8

namespace DirTree

def modifyDe (t : DirTree) (i : ℕ) (f : DirEntry → DirEntry) : DirTree :=
  { t with de := Function.update t.de i (f (t.de i)) }

def modifyNode (t : DirTree) (p : ℕ) (f : DirListEntry → DirListEntry) : DirTree :=
  { t with node := Function.update t.node p (f (t.node p)) }

section modify

variable (t : DirTree) (i j : ℕ) (f : DirEntry → DirEntry) (g : DirListEntry → DirListEntry)

theorem modifyDe_de : (t.modifyDe i f).de j = if j = i then f (t.de i) else t.de j :=
  Function.update_apply _ _ _ _

theorem modifyNode_node : (t.modifyNode i g).node j = if j = i then g (t.node i) else t.node j :=
  Function.update_apply _ _ _ _

@[simp] theorem modifyDe_node : (t.modifyDe i f).node = t.node := rfl
@[simp] theorem modifyDe_allocated : (t.modifyDe i f).allocated = t.allocated := rfl
@[simp] theorem modifyDe_dirIdBitmap : (t.modifyDe i f).dirIdBitmap = t.dirIdBitmap := rfl
@[simp] theorem modifyNode_de : (t.modifyNode i g).de = t.de := rfl
@[simp] theorem modifyNode_allocated : (t.modifyNode i g).allocated = t.allocated := rfl
@[simp] theorem modifyNode_dirIdBitmap : (t.modifyNode i g).dirIdBitmap = t.dirIdBitmap := rfl

end modify

end DirTree

def ffsDirRecLen (nameLen : ℕ) : ℕ := (nameLen + 8 + 3) / 4 * 4

/-- `init_dir_tree`. The tree comes from `kmalloc`: of a name only the first byte is set. -/
def initDirTree (mem : ℕ → ℕ → UInt8) (heap : ℕ → DirListEntry) : DirTree where
  de i := ⟨i, Function.update (mem i) 0 0, 0, 0, 0, 0, 0⟩
  dirEntryNum := 1
  dirIdBitmap := ((Bitmap.zero.set 0).set 1).set 2
  node := heap
  allocated _ := false

def initRootEntry (t : DirTree) (iSize : ℕ) : DirTree :=
  t.modifyDe flatfsRootIno fun root =>
    ⟨flatfsRootIno, memcpy root.dirName [47], 1, ffsDirRecLen 1, 0, 0, iSize⟩

/-- `get_unused_dir_id`; 0 is `ENOINO`. -/
def getUnusedDirId (dirIdBitmap : Bitmap) : ℕ × Bitmap :=
  let dirId := dirIdBitmap.firstZero (1 <<< maxDirBits)
  if dirId = 1 <<< maxDirBits then (0, dirIdBitmap) else (dirId, dirIdBitmap.set dirId)

def fillOneDirEntry (t : DirTree) (dirName : CStr) : ℕ × DirTree :=
  let r := getUnusedDirId t.dirIdBitmap
  let t := { t with dirIdBitmap := r.2 }
  if r.1 = 0 then (r.1, t)
  else
    let namelen := myStrlen dirName
    let t := t.modifyDe r.1 fun de =>
      { de with
        dirSize := 0
        namelen := namelen
        recLen := ffsDirRecLen namelen
        dirName := if namelen > 0 then memcpy de.dirName (dirName.take namelen) else de.dirName }
    (r.1, { t with dirEntryNum := t.dirEntryNum + 1 })

/-- `insert_dir`, given the address `dle` that `kzalloc` returned. -/
def insertDir (t : DirTree) (parentDirId insertDirId dle : ℕ) : DirTree :=
  let t := { t with
    node := Function.update t.node dle ⟨insertDirId, 0, 0⟩
    allocated := Function.update t.allocated dle true }
  let tail := (t.de parentDirId).tail
  let t :=
    if (t.de parentDirId).dirSize = 0 then
      t.modifyDe parentDirId fun dir => { dir with head := dle, tail := dle }
    else
      ((t.modifyNode tail fun n => { n with next := dle }).modifyNode dle
        fun n => { n with last := tail }).modifyDe parentDirId fun dir => { dir with tail := dle }
  t.modifyDe parentDirId fun dir => { dir with dirSize := dir.dirSize + 1 }

/-- The search loop of `remove_dir`: the node of the directory and its position. -/
def findEntry (t : DirTree) (dirId : ℕ) : ℕ → ℕ → ℕ → Option (ℕ × ℕ)
  | _, _, 0 => none
  | dle, start, n + 1 =>
    if dle = 0 then none
    else if dirId ≠ (t.de (t.node dle).de).dirId then
      findEntry t dirId (t.node dle).next (start + 1) n
    else some (dle, start)

def relinkPrev (t : DirTree) (parent last next start : ℕ) : DirTree :=
  if start = 0 then t.modifyDe parent fun d => { d with head := next }
  else if last ≠ 0 then t.modifyNode last fun n => { n with next := next }
  else t

/-- The successor, or the tail, is led to the predecessor. The position is compared with the
size of the removed directory `dir`, an `unsigned long`. -/
def relinkNext (t : DirTree) (parent dir last next start : ℕ) : DirTree :=
  if start = ((t.de dir).dirSize + (2 ^ 64 - 1)) % 2 ^ 64 then
    t.modifyDe parent fun d => { d with tail := last }
  else if next ≠ 0 then t.modifyNode next fun n => { n with last := last }
  else t

def freeEntry (t : DirTree) (parent dle : ℕ) : DirTree :=
  let t := t.modifyDe parent fun d => { d with dirSize := d.dirSize - 1 }
  let t := t.modifyNode dle fun n => { n with last := 0, next := 0 }
  { t with allocated := Function.update t.allocated dle false }

def unlinkEntry (t : DirTree) (parent dir dle start : ℕ) : DirTree :=
  let last := (t.node dle).last
  let next := (t.node dle).next
  freeEntry (relinkNext (relinkPrev t parent last next start) parent dir last next start) parent dle

def clearEntry (t : DirTree) (dir : ℕ) : DirTree :=
  let nameLen := arrayStrlen (t.de dir).dirName
  let t := t.modifyDe dir fun d =>
    { d with
      dirName := fun i => if i < nameLen then 0 else d.dirName i
      namelen := 0
      head := 0
      tail := 0 }
  { t with
    dirEntryNum := t.dirEntryNum - 1
    dirIdBitmap := t.dirIdBitmap.clear (t.de dir).dirId }

def removeDir (sbI : SbInfo) (parentIno dirIno : BitVec 64) (bigDirId : ℤ) : SbInfo :=
  let parent := (inodeToDirId parentIno).toNat
  let dir := (inodeToDirId dirIno).toNat
  let t := sbI.dtree
  match findEntry t (t.de dir).dirId (t.de parent).head 0 (t.de parent).dirSize with
  | none => sbI
  | some (dle, start) =>
    let t := clearEntry (unlinkEntry t parent dir dle start) dir
    let sbI := { sbI with
      dtree := t
      hashtbl := Function.update sbI.hashtbl (t.de dir).dirId none }
    if 0 ≤ bigDirId ∧ (sbI.bigDirHashtbl bigDirId.toNat).isSome then
      { sbI with
        bigDirHashtbl := Function.update sbI.bigDirHashtbl bigDirId.toNat none
        bigDirBitmap := sbI.bigDirBitmap.clear bigDirId.toNat
        bigDirNum := sbI.bigDirNum - 1#8 }
    else sbI

/-- The superblock that `flatfs_fill_super` builds: a root of size 0 with an empty file table. -/
def fillSuper (mem : ℕ → ℕ → UInt8) (heap : ℕ → DirListEntry) : SbInfo where
  dtree := initRootEntry (initDirTree mem heap) 0
  hashtbl := Function.update (fun _ => none) flatfsRootIno (some initFileHt)
  bigDirHashtbl _ := none
  bigDirBitmap := Bitmap.zero
  bigDirNum := 0#8

end FlatFS
