import FlatFS.ReadDirRun
import FlatFS.Mknod

namespace FlatFS
open Lib

def numByte (x : ℤ) (k : ℕ) : UInt8 := UInt8.ofInt (x / 256 ^ k)

def bitmapByte (m : Bitmap) (k : ℕ) : UInt8 :=
  UInt8.ofNat (((List.range 8).filter fun j => m (8 * k + j)).map (2 ^ ·)).sum

/-- Byte `j` of a `struct ffs_inode`, which takes 504 bytes with its padding. -/
def inodeByte (x : FfsInode) (j : ℕ) : UInt8 :=
  if j < 4 then numByte x.valid j
  else if j < 8 then 0
  else if j < 16 then numByte x.size (j - 8)
  else if j = 16 then x.filename.nameLen
  else if j < 17 + (ffsMaxFilenameLen + 2) then x.filename.name (j - 17)
  else 0

/-- Byte `i` of a `struct ffs_inode_page`: a header of 64 bytes and the entries one after the
other. -/
def pageByte (page : FfsInodePage) (i : ℕ) : UInt8 :=
  if i < 8 then bitmapByte page.slotBitmap i
  else if i < 12 then numByte page.validSlotNum (i - 8)
  else if i < 64 then 0
  else inodeByte (page.inode ((i - 64) / 504)) ((i - 64) % 504)

def entryOffset (slt : ℕ) : ℕ := 64 + 504 * slt

theorem rawName_pageByte (page : FfsInodePage) (slt : ℕ) :
    rawName (pageByte page) (entryOffset slt) = (page.inode slt).filename.bytes := by
  have hbyte : ∀ j < 504,
      pageByte page (entryOffset slt + j) = inodeByte (page.inode slt) j := by
    intro j hj
    have hdiv : (entryOffset slt + j - 64) / 504 = slt := by
      rw [entryOffset]
      omega
    have hmod : (entryOffset slt + j - 64) % 504 = j := by
      rw [entryOffset]
      omega
    have hge : 64 ≤ entryOffset slt + j := by
      rw [entryOffset]
      omega
    rw [pageByte, if_neg (by omega), if_neg (by omega), if_neg (by omega), hdiv, hmod]
  have hlen : pageByte page (entryOffset slt + 16) = (page.inode slt).filename.nameLen := by
    rw [hbyte 16 (by norm_num)]
    rfl
  rw [rawName, hlen, FfsName.bytes]
  apply List.map_congr_left
  intro i hi
  have hi' : i < 256 := (List.mem_range.mp hi).trans (UInt8.toNat_lt _)
  have hmax : ffsMaxFilenameLen = 480 := rfl
  rw [add_assoc, hbyte (17 + i) (by omega), inodeByte, if_neg (by omega), if_neg (by omega),
    if_neg (by omega), if_neg (by omega), if_pos (by omega), Nat.add_sub_cancel_left]

/-- What `ffs_dirty_inode` has written of a live file is read again at the place of its entry. -/
theorem rawName_dirtyInode (dev : Device) {fi : FfsInodeInfo} (hvalid : fi.valid ≠ 0) :
    rawName (pageByte (ffsDirtyInode dev fi (fileMetaLba fi))) (entryOffset fi.slotId.toNat) =
      fi.filename.bytes := by
  rw [rawName_pageByte, ffsDirtyInode, Function.update_self, dirtyPage, if_pos hvalid]
  dsimp only
  rw [Function.update_self]
  apply map_memcpy
  rw [List.length_map, List.length_range]

theorem pageByte_zeroPage (i : ℕ) : pageByte zeroPage i = 0 := by
  have hnum : ∀ k, numByte 0 k = 0 := by
    intro k
    rw [numByte, Int.zero_ediv]
    rfl
  have hbitmap : ∀ k, bitmapByte Bitmap.zero k = 0 := by
    intro k
    simp [bitmapByte]
  simp [pageByte, zeroPage, inodeByte, hnum, hbitmap]

structure LiveFile (fi : FfsInodeInfo) (d b slt : ℕ) : Prop extends SmallFile fi d b slt where
  valid : fi.valid ≠ 0
  named : fi.filename.nameLen ≠ 0

/-- The live files of a small directory and its table, in which their slots are set. -/
structure LiveFiles (d : ℕ) (files : List FfsInodeInfo) (ht : HashTable) : Prop where
  live : ∀ fi ∈ files, ∃ b slt, LiveFile fi d b slt
  bit : ∀ b slt, ht.bit b slt = true ↔ ∃ fi ∈ files, fi.bucketId = (b : ℤ) ∧ fi.slotId = (slt : ℤ)

/-- What `read_dir_files` passes on from the start, when the inodes of the files were written to a
device that held `dev` before. -/
def listedFiles (d : ℕ) (dev : Device) (files : List FfsInodeInfo) (ht : HashTable) : List Dirent :=
  (readDirFiles (fun blk => pageByte (files.foldl ffsDirtyInode dev blk)) ht
    (dirIdToInode (BitVec.ofNat 64 d)) ⟨0, none, []⟩ 0).1.out

/-- Every live slot is listed under the name of the file that occupies it. -/
def NamesRight (d : ℕ) (dev : Device) (files : List FfsInodeInfo) (ht : HashTable) : Prop :=
  List.Forall₂ (fun (x : ℕ × ℕ) (e : Dirent) =>
      ∀ fi ∈ files, fi.bucketId = x.1 → fi.slotId = x.2 → e.name = fi.filename.bytes)
    (liveSlots minFileBucketBits ht) (listedFiles d dev files ht)

section

variable {d : ℕ} {files : List FfsInodeInfo} {ht : HashTable}

def readerBlock (d : ℕ) (ht : HashTable) (b : ℕ) : BitVec 64 :=
  slotIno minFileBucketBits (BitVec.ofNat 64 d) b ((firstSlot ht b).getD 0)

theorem readerBlock_lt (hd : d < 2 ^ 14) {b : ℕ} (hb : b < 2 ^ 12) :
    (readerBlock d ht b).toNat < 2 ^ 35 := by
  have hs : (firstSlot ht b).getD 0 < 8 := by
    cases hfirst : firstSlot ht b with
    | none => norm_num
    | some slt => exact List.mem_range.mp (List.mem_of_find?_eq_some hfirst)
  rw [readerBlock, slotIno_toNat hd hb hs, fileNumber]
  omega

/-- Inode pages lie above `FILE_META_LBA_BASE`, the blocks that the reader takes below. -/
theorem fileMetaLba_ne {fi : FfsInodeInfo} {b slt b' : ℕ} (h : SmallFile fi d b slt)
    (hb' : b' < 2 ^ 12) : fileMetaLba fi ≠ readerBlock d ht b' := by
  intro he
  have hlt : (readerBlock d ht b').toNat < 2 ^ 35 := readerBlock_lt h.dir_lt hb'
  rw [← he, fileMetaLba, if_pos h.small, h.dirId, h.bucketId,
    inodePage_toNat h.dir_lt h.bucket_lt] at hlt
  omega

theorem foldl_dirtyInode_of_ne {blk : BitVec 64} (h : ∀ fi ∈ files, fileMetaLba fi ≠ blk)
    (dev : Device) : files.foldl ffsDirtyInode dev blk = dev blk := by
  induction files generalizing dev with
  | nil => rfl
  | cons fi files ih =>
    rw [List.foldl_cons, ih fun fi' hmem => h fi' (List.mem_cons_of_mem _ hmem), ffsDirtyInode,
      Function.update_of_ne (h fi List.mem_cons_self).symm]

theorem listedFiles_eq (hd : d < 2 ^ 14) (dev : Device) :
    listedFiles d dev files ht = (liveSlots minFileBucketBits ht).map
      (slotDirent minFileBucketBits (fun blk => pageByte (files.foldl ffsDirtyInode dev blk))
        (BitVec.ofNat 64 d) ht) := by
  rw [listedFiles, readDirFiles, readFiles_zero, inodeToDirId_eq hd, fileDirents]
  rfl

/-- On a device that was never written before, the reader finds no name at all. -/
theorem not_namesRight (h : LiveFiles d files ht) (hne : files ≠ []) :
    ¬ NamesRight d (fun _ => zeroPage) files ht := by
  obtain ⟨fi, hmem⟩ := List.exists_mem_of_ne_nil _ hne
  obtain ⟨b, slt, hfi⟩ := h.live fi hmem
  have hslot : (b, slt) ∈ liveSlots minFileBucketBits ht :=
    ((liveSlots_inOrder _ ht).mem _).mpr
      ⟨hfi.bucket_lt, hfi.slot_lt, (h.bit b slt).mpr ⟨fi, hmem, hfi.bucketId, hfi.slotId⟩⟩
  intro hnames
  rw [NamesRight, listedFiles_eq hfi.dir_lt, List.forall₂_map_right_iff,
    List.forall₂_same] at hnames
  have hname := hnames (b, slt) hslot fi hmem hfi.bucketId hfi.slotId
  -- no file has its page where the reader looks
  have hblk : files.foldl ffsDirtyInode (fun _ => zeroPage) (readerBlock d ht b) = zeroPage := by
    apply foldl_dirtyInode_of_ne
    intro fi' hmem'
    obtain ⟨b', slt', hfi'⟩ := h.live fi' hmem'
    exact fileMetaLba_ne hfi'.toSmallFile hfi.bucket_lt
  have hnil : (slotDirent minFileBucketBits
      (fun blk => pageByte (files.foldl ffsDirtyInode (fun _ => zeroPage) blk))
      (BitVec.ofNat 64 d) ht (b, slt)).name = [] := by
    change rawName (pageByte (files.foldl ffsDirtyInode (fun _ => zeroPage)
      (readerBlock d ht b))) _ = []
    rw [hblk, rawName, pageByte_zeroPage]
    rfl
  rw [hnil] at hname
  have hlen := congrArg List.length hname
  rw [FfsName.bytes, List.length_map, List.length_range, List.length_nil] at hlen
  exact hfi.named (UInt8.toNat_inj.mp hlen.symm)

/-- Whatever the device held before, the names are those of the files exactly when there are no
files: the reader never looks where an inode was written. -/
theorem namesRight_iff (h : LiveFiles d files ht) :
    (∀ dev, NamesRight d dev files ht) ↔ files = [] := by
  constructor
  · intro hall
    by_contra hne
    exact not_namesRight h hne (hall _)
  · rintro rfl dev
    have hslots : liveSlots minFileBucketBits ht = [] := by
      apply List.eq_nil_iff_forall_not_mem.mpr
      intro x hx
      obtain ⟨fi, hmem, -⟩ := (h.bit x.1 x.2).mp (((liveSlots_inOrder _ ht).mem x).mp hx).2.2
      cases hmem
    rw [NamesRight, listedFiles, readDirFiles, readFiles_zero, fileDirents, hslots]
    exact .nil

end

def fileA : FfsInodeInfo := ⟨2, 97, 0, 1, 0, -1, 0, 1, fun _ => 97⟩

theorem fileA_liveFiles : LiveFiles 2 [fileA] (initFileHt.modify 97 (·.take 0)) where
  live fi hmem := by
    rw [List.mem_singleton] at hmem
    refine ⟨97, 0, ⟨?_, ?_, ?_⟩⟩
    · subst hmem
      constructor <;> first | rfl | norm_num
    · subst hmem
      exact one_ne_zero
    · subst hmem
      decide
  bit b slt := by
    rw [HashTable.bit_take]
    have hclear : initFileHt.bit b slt = false := rfl
    simp only [hclear, Bool.false_eq_true, or_false, List.mem_singleton, exists_eq_left, fileA]
    omega

theorem namesRight_iff_fileA :
    LiveFiles 2 [fileA] (initFileHt.modify 97 (·.take 0)) ∧
      ((∀ dev, NamesRight 2 dev [fileA] (initFileHt.modify 97 (·.take 0))) ↔ [fileA] = []) :=
  ⟨fileA_liveFiles, namesRight_iff fileA_liveFiles⟩

/-- The file `a` is listed without a name. -/
theorem fileA_listed_without_name :
    ¬ NamesRight 2 (fun _ => zeroPage) [fileA] (initFileHt.modify 97 (·.take 0)) :=
  not_namesRight fileA_liveFiles (List.cons_ne_nil _ _)

end FlatFS
