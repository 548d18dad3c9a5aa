import FlatFS.Mknod
import Mathlib.Data.List.GetD
import Mathlib.Data.List.TakeWhile

namespace FlatFS
open Lib

/-- `!strcmp(filename, mem)`. -/
def strEq (filename : CStr) (mem : ℕ → UInt8) : Bool :=
  (List.range (myStrlen filename)).all (fun i => mem i == filename.getD i 0) &&
    mem (myStrlen filename) == 0

/-- The first slot of an inode page whose entry has the name, valid or not. -/
def nameSlot (page : FfsInodePage) (filename : CStr) : Option ℕ :=
  (List.range (1 <<< fileSlotBits)).find? fun slt => strEq filename (page.inode slt).filename.name

/-- The common body of `get_file_seg` and `get_big_file_seg`. -/
def getSeg (bits : ℕ) (page : BitVec 64 → FfsInodePage) (fileHt : HashTable) (filename : CStr) :
    BitVec 64 :=
  let bucketId := bucketOf bits filename
  if (List.range (1 <<< fileSlotBits)).any (fileHt.bit bucketId.toNat) then
    match nameSlot (page bucketId) filename with
    | some slt => fileSeg (BitVec.ofNat 8 slt) bucketId
    | none => 0
  else 0

def getFileSeg (dev : Device) (fi : FfsInodeInfo) (fileHt : HashTable) (filename : CStr) :
    BitVec 64 :=
  getSeg minFileBucketBits (fun b => dev (composeLba fi.dirId b.toNat 0 0)) fileHt filename

def getBigFileSeg (dev : Device) (fi : FfsInodeInfo) (fileHt : BigDirHashTable) (filename : CStr) :
    BitVec 64 :=
  getSeg (minFileBucketBits + minDirBits)
    (fun b => dev (composeBigFileLba fi.dirId b.toNat 0 0)) fileHt filename

/-- The common end of the two functions below: segment 0 means that there is no such file. -/
def inodeBySeg (shift : ℕ) (fileSeg : BitVec 64) (parentDirId : ℤ) : BitVec 64 :=
  if fileSeg = 0 then 0 else segIno shift fileSeg parentDirId

def flatfsFileInodeByName (dev : Device) (fi : FfsInodeInfo) (hashtbl : HashTable)
    (parentDirId : ℤ) (child : CStr) : BitVec 64 :=
  inodeBySeg (fileSlotBits + minFileBucketBits) (getFileSeg dev fi hashtbl child) parentDirId

def flatfsBigFileInodeByName (dev : Device) (fi : FfsInodeInfo) (hashtbl : BigDirHashTable)
    (parentDirId : ℤ) (child : CStr) : BitVec 64 :=
  inodeBySeg (fileSlotBits + minFileBucketBits + minDirBits) (getBigFileSeg dev fi hashtbl child)
    parentDirId

def findChild (t : DirTree) (child : CStr) : ℕ → ℕ → Option ℕ
  | _, 0 => none
  | dirNode, n + 1 =>
    if dirNode = 0 then none
    else
      let de := t.de (t.node dirNode).de
      if child.length = de.namelen ∧ (List.range child.length).all
          (fun i => de.dirName i == child.getD i 0) then some de.dirId
      else findChild t child (t.node dirNode).next n

def flatfsDirInodeByName (sbI : SbInfo) (parentIno : BitVec 64) (child : CStr) : BitVec 64 :=
  let parentDirId := (inodeToDirId parentIno).toNat
  let dir := sbI.dtree.de parentDirId
  let ino := (findChild sbI.dtree child dir.head dir.dirSize).getD parentDirId
  if ino = parentDirId then 0 else dirIdToInode (BitVec.ofNat 64 ino)

/-- The `int dir_id` of `ffs_lookup`, taken from the result of the search for a subdirectory. -/
def lookupDirId (ino : BitVec 64) : ℤ :=
  (((ino - 1#64) >>> (minFileBucketBits + fileSlotBits)).setWidth 32).toInt

/-- The inode number that `ffs_lookup` computes; 0 when it finds nothing. The directory has the
inode number `dirIno` and the info `dfi`. -/
def lookupIno (dev : Device) (sb : SbInfo) (dirIno : BitVec 64) (dfi : FfsInodeInfo)
    (name : CStr) : BitVec 64 :=
  let ino := flatfsDirInodeByName sb dirIno name
  let dirId := lookupDirId ino
  if ino = 0 then
    let ino := (sb.hashtbl (inodeToDirId dirIno).toNat).elim 0 fun ht =>
      flatfsFileInodeByName dev dfi ht dirId name
    if ino = 0 ∧ dfi.isBigDir ≠ 0 then
      (sb.bigDirHashtbl dfi.bigDirId.toNat).elim 0 fun ht =>
        flatfsBigFileInodeByName dev dfi ht dirId name
    else ino
  else ino

/-- `ffs_lookup`: the inode number of the inode it returns, if any. -/
def ffsLookup (dev : Device) (sb : SbInfo) (dirIno : BitVec 64) (dfi : FfsInodeInfo)
    (name : CStr) : Option (BitVec 64) :=
  if name.length > ffsMaxFilenameLen then none
  else
    let ino := lookupIno dev sb dirIno dfi name
    if ino = 0 then none else some ino

theorem myStrlen_eq {name : CStr} (h : 0 ∉ name) : myStrlen name = name.length := by
  have hall : ∀ c ∈ name, decide (c ≠ 0) = true := by
    intro c hc
    rw [decide_eq_true_iff]
    rintro rfl
    exact h hc
  rw [myStrlen, List.takeWhile_eq_self_iff.mpr hall]

section

variable {name : CStr} (h0 : 0 ∉ name) (mem : ℕ → UInt8)

include h0

theorem getD_ne_zero {i : ℕ} (hi : i < name.length) : name.getD i 0 ≠ 0 := by
  intro he
  rw [List.getD_eq_getElem _ _ hi] at he
  exact h0 (he ▸ List.getElem_mem hi)

theorem strEq_iff : strEq name mem = true ↔
    (∀ i < name.length, mem i = name.getD i 0) ∧ mem name.length = 0 := by
  rw [strEq, myStrlen_eq h0, Bool.and_eq_true, List.all_eq_true]
  simp only [List.mem_range, beq_iff_eq]

/-- A name is copied without its terminator: the byte behind it decides where it ends. -/
theorem strEq_memcpy : strEq name (memcpy mem name) = true ↔ mem name.length = 0 := by
  have hend : memcpy mem name name.length = mem name.length := List.getD_eq_default _ _ le_rfl
  rw [strEq_iff h0, hend, and_iff_right_iff_imp]
  intro _ i hi
  rw [memcpy, List.getD_eq_getElem _ _ hi, List.getD_eq_getElem _ _ hi]

end

/-- In a zeroed name array the copied name is the only one that reads there. -/
theorem strEq_memcpy_zero {name old : CStr} (h : 0 ∉ name) (hold : 0 ∉ old) :
    strEq name (memcpy (fun _ => 0) old) = true ↔ name = old := by
  constructor
  · intro heq
    obtain ⟨hbytes, hend⟩ := (strEq_iff h _).mp heq
    -- a longer name has a byte where the other ends
    have hle : old.length ≤ name.length := by
      by_contra hlt
      exact getD_ne_zero hold (not_le.mp hlt) hend
    have hge : name.length ≤ old.length := by
      by_contra hlt
      have hb := hbytes old.length (not_le.mp hlt)
      rw [memcpy, List.getD_eq_default _ _ le_rfl] at hb
      exact getD_ne_zero h (not_le.mp hlt) hb.symm
    apply List.ext_getElem (hge.antisymm hle)
    intro i hi hi'
    have hb := hbytes i hi
    rw [memcpy, List.getD_eq_getElem _ _ hi, List.getD_eq_getElem _ _ hi'] at hb
    exact hb.symm
  · intro he
    rw [he]
    exact (strEq_memcpy hold _).mpr rfl

theorem fillName_nameLen (mem : FfsName) {name : CStr} (h0 : 0 ∉ name) :
    (fillName mem name).nameLen.toNat = name.length % 256 := by
  change (UInt8.ofNat (myStrlen name)).toNat = name.length % 256
  rw [myStrlen_eq h0, UInt8.toNat_ofNat']

theorem fillName_bytes (mem : FfsName) {name : CStr} (h0 : 0 ∉ name) (hlen : name.length ≤ 255) :
    (fillName mem name).bytes = name := by
  have hn : (fillName mem name).nameLen.toNat = name.length := by
    rw [fillName_nameLen mem h0, Nat.mod_eq_of_lt (by omega)]
  have hname : (fillName mem name).name = memcpy mem.name name := by
    change memcpy mem.name (name.take (fillName mem name).nameLen.toNat) = _
    rw [hn, List.take_length]
  rw [FfsName.bytes, hn, hname]
  exact map_memcpy _ rfl

theorem nameSlot_lt {page : FfsInodePage} {filename : CStr} {slt : ℕ}
    (h : nameSlot page filename = some slt) : slt < 8 :=
  List.mem_range.mp (List.mem_of_find?_eq_some h)

theorem nameSlot_zero {page : FfsInodePage} {filename : CStr} :
    nameSlot page filename = some 0 ↔ strEq filename (page.inode 0).filename.name = true := by
  constructor
  · intro h
    exact List.find?_some (p := fun slt => strEq filename (page.inode slt).filename.name) h
  · intro h
    have h8 : List.range (1 <<< fileSlotBits) = 0 :: List.map (· + 1) (List.range 7) := by decide
    rw [nameSlot, h8]
    exact List.find?_cons_of_pos h

/-- A set bit in its bucket leads the search for a name to the page. -/
theorem getSeg_eq {bits : ℕ} {page : BitVec 64 → FfsInodePage} {ht : HashTable} {name : CStr}
    {slt : ℕ} (hs : slt < 8) (hbit : ht.bit (bucketOf bits name).toNat slt = true) :
    getSeg bits page ht name = match nameSlot (page (bucketOf bits name)) name with
      | some slt => fileSeg (BitVec.ofNat 8 slt) (bucketOf bits name)
      | none => 0 := by
  have hany : (List.range (1 <<< fileSlotBits)).any (ht.bit (bucketOf bits name).toNat) = true :=
    List.any_eq_true.mpr ⟨slt, List.mem_range.mpr hs, hbit⟩
  rw [getSeg, if_pos hany]

theorem getSeg_lt {bits : ℕ} (hbits : bits < 60) (page : BitVec 64 → FfsInodePage)
    (ht : HashTable) (name : CStr) : (getSeg bits page ht name).toNat < 2 ^ bits * 8 := by
  have hpos := Nat.two_pow_pos bits
  have hb : (bucketOf bits name).toNat < 2 ^ bits := bucketOf_lt (by omega) name
  have hlt : 2 ^ bits < 2 ^ 60 := Nat.pow_lt_pow_right (by norm_num) hbits
  unfold getSeg
  dsimp only
  split_ifs
  · split
    · rename_i slt hslt
      rw [fileSeg_toNat (nameSlot_lt hslt) (by omega)]
      have := nameSlot_lt hslt
      omega
    · simp
  · simp

/-- The search for a file that follows the failed one for a directory has the id -1. -/
theorem lookupDirId_zero : lookupDirId 0 = -1 := by decide

theorem segIno_neg_one_small {seg : BitVec 64} (hseg : seg.toNat < 2 ^ 15) :
    (segIno (fileSlotBits + minFileBucketBits) seg (-1)).toNat = 2 ^ 64 - 2 ^ 15 + seg.toNat := by
  have hx : (BitVec.ofInt 64 (shlInt (-1) (fileSlotBits + minFileBucketBits))).toNat =
      2 ^ 64 - 2 ^ 15 := by decide
  rw [segIno, or_eq_add (k := 15) (by rw [hx]; norm_num) hseg, hx]

theorem segIno_neg_one_big {seg : BitVec 64} (hseg : seg.toNat < 2 ^ 21) :
    (segIno (fileSlotBits + minFileBucketBits + minDirBits) seg (-1)).toNat =
      2 ^ 64 - 2 ^ 21 + seg.toNat := by
  have hx : (BitVec.ofInt 64 (shlInt (-1) (fileSlotBits + minFileBucketBits + minDirBits))).toNat =
      2 ^ 64 - 2 ^ 21 := by decide
  rw [segIno, or_eq_add (k := 21) (by rw [hx]; norm_num) hseg, hx]

theorem inodeBySeg_eq {shift : ℕ} {seg : BitVec 64} {d : ℤ} (h : inodeBySeg shift seg d ≠ 0) :
    inodeBySeg shift seg d = segIno shift seg d := by
  refine if_neg fun hz => h ?_
  rw [inodeBySeg, if_pos hz]

theorem fileInodeByName_ge {dev : Device} {fi : FfsInodeInfo} {ht : HashTable} {name : CStr}
    (h : flatfsFileInodeByName dev fi ht (-1) name ≠ 0) :
    2 ^ 64 - 2 ^ 15 ≤ (flatfsFileInodeByName dev fi ht (-1) name).toNat := by
  have he := inodeBySeg_eq h
  rw [flatfsFileInodeByName, he, segIno_neg_one_small (getSeg_lt (by norm_num) _ _ _)]
  omega

theorem bigFileInodeByName_ge {dev : Device} {fi : FfsInodeInfo} {ht : BigDirHashTable}
    {name : CStr} (h : flatfsBigFileInodeByName dev fi ht (-1) name ≠ 0) :
    2 ^ 64 - 2 ^ 21 ≤ (flatfsBigFileInodeByName dev fi ht (-1) name).toNat := by
  have he := inodeBySeg_eq h
  rw [flatfsBigFileInodeByName, he, segIno_neg_one_big (getSeg_lt (by norm_num) _ _ _)]
  omega

/-- Whatever file a lookup finds, the inode number it computes is at the top of the range. -/
theorem lookup_ge {dev : Device} {sb : SbInfo} {dirIno : BitVec 64} {dfi : FfsInodeInfo}
    {name : CStr} (hdir : flatfsDirInodeByName sb dirIno name = 0) {ino : BitVec 64}
    (h : ffsLookup dev sb dirIno dfi name = some ino) : 2 ^ 64 - 2 ^ 21 ≤ ino.toNat := by
  unfold ffsLookup lookupIno at h
  simp only [hdir, if_true, lookupDirId_zero] at h
  split_ifs at h with hlen hbig hz hz'
  · -- found in the big table
    cases h
    cases hht : sb.bigDirHashtbl dfi.bigDirId.toNat with
    | none => simp [hht] at hz
    | some ht =>
      rw [hht] at hz
      exact bigFileInodeByName_ge hz
  · -- found in the small table
    cases h
    cases hht : sb.hashtbl (inodeToDirId dirIno).toNat with
    | none => simp [hht] at hz'
    | some ht =>
      rw [hht] at hz'
      have := fileInodeByName_ge hz'
      change _ ≤ (flatfsFileInodeByName dev dfi ht (-1) name).toNat
      omega

end FlatFS
