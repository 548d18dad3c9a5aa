import FlatFS.DirTreeRun
import FlatFS.Blocks
import FlatFS.Lib.Rank

namespace FlatFS
open Lib

abbrev Disk := BitVec 64 → ℕ → UInt8

structure Dirent where
  name : List UInt8
  ino : BitVec 64
  dType : UInt8
deriving DecidableEq

/-- `struct dir_context` with the caller's buffer: how many entries it still takes, if it is
bounded, and those it has taken. -/
structure DirContext where
  pos : ℕ
  room : Option ℕ
  out : List Dirent

/-- The cursors of a directory: the fields `pos` of its `dir_entry` and of its two tables. -/
structure Cursors where
  de : ℕ
  small : ℕ
  big : ℕ

def dirEmit (ctx : DirContext) (e : Dirent) : DirContext :=
  match ctx.room with
  | none => { ctx with out := ctx.out ++ [e] }
  | some 0 => ctx
  | some (n + 1) => { ctx with room := some n, out := ctx.out ++ [e] }

/-- `dir_emit` and the two increments that follow it, taken or not. -/
def emit (s : DirContext × ℕ) (e : Dirent) : DirContext × ℕ :=
  ({ dirEmit s.1 e with pos := s.1.pos + 1 }, s.2 + 1)

def le32ToCpu (x : BitVec 64) : BitVec 64 := (x.setWidth 32).setWidth 64

theorem le32ToCpu_eq {x : BitVec 64} (h : x.toNat < 2 ^ 32) : le32ToCpu x = x := by
  apply BitVec.eq_of_toNat_eq
  rw [le32ToCpu, BitVec.toNat_setWidth, BitVec.toNat_setWidth]
  omega

def dirDirent (de : DirEntry) : Dirent :=
  ⟨(List.range de.namelen).map de.dirName, le32ToCpu (dirIdToInode (BitVec.ofNat 64 de.dirId)), 4⟩

/-- The loop of `read_dir_dirs` that moves to `de->pos`; `n` is what is left of `dir_size`. -/
def seekDirs (t : DirTree) (dePos : ℕ) : ℕ → ℕ → ℕ → ℕ × ℕ
  | dle, pos, 0 => (dle, pos)
  | dle, pos, n + 1 =>
    if pos < dePos ∧ dle ≠ 0 then seekDirs t dePos (t.node dle).next (pos + 1) n else (dle, pos)

def emitDirs (t : DirTree) : ℕ → ℕ → DirContext × ℕ → DirContext × ℕ
  | _, 0, s => s
  | dle, n + 1, s =>
    if dle = 0 then s
    else
      let de := t.de (t.node dle).de
      if de.recLen = 0 then s else emitDirs t (t.node dle).next n (emit s (dirDirent de))

def readDirDirs (t : DirTree) (ino : BitVec 64) (ctx : DirContext) (dePos : ℕ) : DirContext × ℕ :=
  let de := t.de (inodeToDirId ino).toNat
  if ctx.pos = 0 then emitDirs t de.head de.dirSize (ctx, 0)
  else
    let r := seekDirs t dePos de.head 0 de.dirSize
    emitDirs t r.1 (de.dirSize - r.2) (ctx, dePos)

def slotIno (bits : ℕ) (dirId : BitVec 64) (bkt slt : ℕ) : BitVec 64 :=
  BitVec.ofNat 64 slt + (BitVec.ofNat 64 bkt + dirId <<< bits) <<< fileSlotBits

/-- The bytes of the name of a `struct ffs_inode` at an offset of a block: `name_len` is its byte
16 and the name follows. -/
def rawName (block : ℕ → UInt8) (offset : ℕ) : List UInt8 :=
  (List.range (block (offset + 16)).toNat).map fun i => block (offset + 17 + i)

/-- What is emitted for a slot, with `FT_UNKNOWN`; its entry is looked for every 512 bytes. -/
def fileDirent (bits : ℕ) (block : ℕ → UInt8) (dirId : BitVec 64) (bkt slt : ℕ) : Dirent :=
  ⟨rawName block (slt * (1 <<< 9)), le32ToCpu (slotIno bits dirId bkt slt), 0⟩

def emitSlots (bits : ℕ) (block : ℕ → UInt8) (dirId : BitVec 64) (hashtbl : HashTable) (bkt : ℕ) :
    ℕ → ℕ → DirContext × ℕ → DirContext × ℕ
  | _, 0, s => s
  | slt, n + 1, s =>
    emitSlots bits block dirId hashtbl bkt (slt + 1) n
      (if hashtbl.bit bkt slt then emit s (fileDirent bits block dirId bkt slt) else s)

def firstSlot (hashtbl : HashTable) (bkt : ℕ) : Option ℕ :=
  (List.range (1 <<< fileSlotBits)).find? (hashtbl.bit bkt)

/-- The loop over the buckets behind the label `first`. A bucket without a set slot is skipped; of
any other the block whose number is the inode number of its first set slot is read. -/
def emitBuckets (bits : ℕ) (disk : Disk) (dirId : BitVec 64) (hashtbl : HashTable) :
    ℕ → ℕ → DirContext × ℕ → DirContext × ℕ
  | _, 0, s => s
  | bkt, n + 1, s =>
    emitBuckets bits disk dirId hashtbl (bkt + 1) n
      (match firstSlot hashtbl bkt with
      | none => s
      | some slt => emitSlots bits (disk (slotIno bits dirId bkt slt)) dirId hashtbl bkt 0
          (1 <<< fileSlotBits) s)

/-- The common body of `read_dir_files` and `read_big_dir_files`, given and giving `hashtbl->pos`.
Under a cursor other than 0 the live slots are counted again to find the place to go on from. -/
def readFiles (bits : ℕ) (disk : Disk) (hashtbl : HashTable) (ino : BitVec 64) (ctx : DirContext)
    (pos : ℕ) : DirContext × ℕ :=
  let dirId := inodeToDirId ino
  if pos = 0 then emitBuckets bits disk dirId hashtbl 0 (1 <<< bits) (ctx, pos)
  else
    let r := seekRows hashtbl.bit (1 <<< fileSlotBits) pos 0 0 (1 <<< bits)
    let s := emitSlots bits (disk (slotIno bits dirId r.1 0)) dirId hashtbl r.1 r.2
      ((1 <<< fileSlotBits) - r.2) (ctx, pos)
    emitBuckets bits disk dirId hashtbl (r.1 + 1) ((1 <<< bits) - (r.1 + 1)) s

def readDirFiles (disk : Disk) (hashtbl : HashTable) :
    BitVec 64 → DirContext → ℕ → DirContext × ℕ :=
  readFiles minFileBucketBits disk hashtbl

def readBigDirFiles (disk : Disk) (hashtbl : BigDirHashTable) :
    BitVec 64 → DirContext → ℕ → DirContext × ℕ :=
  readFiles (minFileBucketBits + minDirBits) disk hashtbl

/-- `ffs_readdir`; `none` where it would follow a null pointer. -/
def ffsReaddir (disk : Disk) (sb : SbInfo) (dfi : FfsInodeInfo) (cur : Cursors)
    (ctx : DirContext) : Option (DirContext × Cursors) :=
  let dirIno := BitVec.ofInt 64 (shlInt dfi.dirId (minFileBucketBits + fileSlotBits) + 1)
  (sb.hashtbl dfi.dirId.toNat).bind fun hashtbl =>
    let small := if ctx.pos = 0 then 0 else cur.small
    let big := if ctx.pos = 0 then 0 else cur.big
    let dirs := readDirDirs sb.dtree dirIno ctx cur.de
    let files := readDirFiles disk hashtbl dirIno dirs.1 small
    if dfi.isBigDir ≠ 0 then
      (sb.bigDirHashtbl dfi.bigDirId.toNat).map fun bigHashtbl =>
        let bigFiles := readBigDirFiles disk bigHashtbl dirIno files.1 big
        (bigFiles.1, ⟨dirs.2, files.2, bigFiles.2⟩)
    else some (files.1, ⟨dirs.2, files.2, cur.big⟩)

section numbers

variable {d : ℕ} (hd : d < 2 ^ 14)
include hd

theorem readdirIno_eq :
    BitVec.ofInt 64 (shlInt d (minFileBucketBits + fileSlotBits) + 1) =
      dirIdToInode (BitVec.ofNat 64 d) := by
  have h15 : minFileBucketBits + fileSlotBits = 15 := rfl
  have hsh : shlInt d (minFileBucketBits + fileSlotBits) + 1 = ((d * 2 ^ 15 + 1 : ℕ) : ℤ) := by
    rw [shlInt, h15, Int.bmod_def]
    push_cast
    omega
  rw [hsh, BitVec.ofInt_natCast, dirIdToInode, ofNat_shl, h15, BitVec.ofNat_add]

theorem inodeToDirId_eq :
    inodeToDirId (dirIdToInode (BitVec.ofNat 64 d)) = BitVec.ofNat 64 d := by
  apply BitVec.eq_of_toNat_eq
  rw [inodeToDirId_dirIdToInode (by omega), BitVec.toNat_ofNat]
  omega

theorem slotIno_toNat {b slt : ℕ} (hb : b < 2 ^ 12) (hs : slt < 8) :
    (slotIno minFileBucketBits (BitVec.ofNat 64 d) b slt).toNat = fileNumber d b slt := by
  have h12 : minFileBucketBits = 12 := rfl
  have h3 : fileSlotBits = 3 := rfl
  rw [slotIno, ofNat_shl, ← BitVec.ofNat_add, ofNat_shl, ← BitVec.ofNat_add, BitVec.toNat_ofNat,
    fileNumber, h12, h3]
  omega

end numbers

def fits : Option ℕ → List Dirent → List Dirent
  | none, es => es
  | some n, es => es.take n

def DirContext.emitAll (ctx : DirContext) (es : List Dirent) : DirContext :=
  ⟨ctx.pos + es.length, ctx.room.map (· - es.length), ctx.out ++ fits ctx.room es⟩

theorem emit_eq (ctx : DirContext) (c : ℕ) (e : Dirent) :
    emit (ctx, c) e = (ctx.emitAll [e], c + 1) := by
  obtain ⟨pos, room, out⟩ := ctx
  rcases room with - | - | n <;> simp [emit, dirEmit, DirContext.emitAll, fits]

theorem DirContext.emitAll_nil (ctx : DirContext) : ctx.emitAll [] = ctx := by
  obtain ⟨pos, room, out⟩ := ctx
  cases room <;> simp [emitAll, fits]

theorem DirContext.emitAll_append (ctx : DirContext) (es es' : List Dirent) :
    (ctx.emitAll es).emitAll es' = ctx.emitAll (es ++ es') := by
  obtain ⟨pos, room, out⟩ := ctx
  cases room with
  | none => simp [emitAll, fits, add_assoc]
  | some n => simp [emitAll, fits, add_assoc, List.take_append, Nat.sub_sub]

theorem emitAll_emit (ctx : DirContext) (c : ℕ) (e : Dirent) (es : List Dirent) :
    ((emit (ctx, c) e).1.emitAll es, (emit (ctx, c) e).2 + es.length) =
      (ctx.emitAll (e :: es), c + (e :: es).length) := by
  rw [emit_eq, DirContext.emitAll_append, List.length_cons, List.singleton_append]
  congr 1
  omega

theorem emitDirs_eq {t : DirTree} {p n : ℕ}
    (hrec : ∀ x ∈ walk t.next p n, (t.de (t.node x).de).recLen ≠ 0) (ctx : DirContext) (c : ℕ) :
    emitDirs t p n (ctx, c) =
      (ctx.emitAll ((walk t.next p n).map fun x => dirDirent (t.de (t.node x).de)),
        c + (walk t.next p n).length) := by
  induction n generalizing p ctx c with
  | zero => rw [emitDirs, walk, List.map_nil, DirContext.emitAll_nil, List.length_nil, add_zero]
  | succ n ih =>
    rw [walk] at hrec
    rw [emitDirs, walk]
    dsimp only
    by_cases h0 : p = 0
    · rw [if_pos h0, if_pos h0, List.map_nil, DirContext.emitAll_nil, List.length_nil, add_zero]
    · rw [if_neg h0] at hrec ⊢
      rw [if_neg h0, if_neg (hrec p (by simp))]
      have hmap := emitAll_emit ctx c (dirDirent (t.de (t.node p).de))
        ((walk t.next (t.next p) n).map fun x => dirDirent (t.de (t.node x).de))
      rw [← List.map_cons (f := fun x => dirDirent (t.de (t.node x).de)), List.length_map,
        List.length_map] at hmap
      rw [← hmap]
      exact ih (fun x hx => hrec x (List.mem_cons_of_mem p hx)) _ _

theorem seekDirs_end {t : DirTree} {dePos p pos n : ℕ} (hlen : (walk t.next p n).length = n)
    (hpos : pos + n ≤ dePos) : (seekDirs t dePos p pos n).2 = pos + n := by
  induction n generalizing p pos with
  | zero => rfl
  | succ n ih =>
    have h0 : p ≠ 0 := by
      rintro rfl
      simp [walk] at hlen
    rw [walk, if_neg h0, List.length_cons, Nat.add_right_cancel_iff] at hlen
    rw [seekDirs, if_pos ⟨by omega, h0⟩, show pos + (n + 1) = pos + 1 + n by omega]
    exact ih hlen (by omega)

section files

variable (bits : ℕ) (disk : Disk) (block : ℕ → UInt8) (dirId : BitVec 64) (hashtbl : HashTable)

theorem emitSlots_eq (bkt slt n : ℕ) (ctx : DirContext) (c : ℕ) :
    emitSlots bits block dirId hashtbl bkt slt n (ctx, c) =
      (ctx.emitAll ((ones (hashtbl.bit bkt) slt n).map (fileDirent bits block dirId bkt)),
        c + (ones (hashtbl.bit bkt) slt n).length) := by
  induction n generalizing slt ctx c with
  | zero => simp [emitSlots, ones, DirContext.emitAll_nil]
  | succ n ih =>
    rw [emitSlots, ones_succ]
    split_ifs with hbit
    · have hmap := emitAll_emit ctx c (fileDirent bits block dirId bkt slt)
        ((ones (hashtbl.bit bkt) (slt + 1) n).map (fileDirent bits block dirId bkt))
      rw [List.length_map, ← List.map_cons, List.length_map] at hmap
      rw [← hmap]
      exact ih (slt + 1) _ _
    · exact ih (slt + 1) ctx c

def slotDirent (x : ℕ × ℕ) : Dirent :=
  fileDirent bits (disk (slotIno bits dirId x.1 ((firstSlot hashtbl x.1).getD 0))) dirId x.1 x.2

theorem emitBuckets_eq (bkt n : ℕ) (ctx : DirContext) (c : ℕ) :
    emitBuckets bits disk dirId hashtbl bkt n (ctx, c) =
      (ctx.emitAll ((cells hashtbl.bit 8 bkt n).map (slotDirent bits disk dirId hashtbl)),
        c + (cells hashtbl.bit 8 bkt n).length) := by
  induction n generalizing bkt ctx c with
  | zero => simp [emitBuckets, cells, DirContext.emitAll_nil]
  | succ n ih =>
    have hrow : (match firstSlot hashtbl bkt with
        | none => (ctx, c)
        | some slt => emitSlots bits (disk (slotIno bits dirId bkt slt)) dirId hashtbl bkt 0
            (1 <<< fileSlotBits) (ctx, c)) =
        (ctx.emitAll (((ones (hashtbl.bit bkt) 0 8).map (Prod.mk bkt)).map
          (slotDirent bits disk dirId hashtbl)), c + (ones (hashtbl.bit bkt) 0 8).length) := by
      rw [List.map_map]
      cases hfirst : firstSlot hashtbl bkt with
      | none =>
        -- nothing is set in a bucket that is skipped
        have hnil : ones (hashtbl.bit bkt) 0 8 = [] := by
          apply List.eq_nil_iff_forall_not_mem.mpr
          intro slt hmem
          obtain ⟨-, hslt, hbit⟩ := mem_ones.mp hmem
          rw [Nat.zero_add] at hslt
          exact List.find?_eq_none.mp hfirst slt (List.mem_range.mpr hslt) hbit
        simp only [hnil, List.map_nil, List.length_nil, DirContext.emitAll_nil, add_zero]
      | some slt =>
        dsimp only
        rw [emitSlots_eq]
        simp only [slotDirent, Function.comp_def, hfirst, Option.getD_some]
        rfl
    rw [emitBuckets, hrow, ih, DirContext.emitAll_append, cells_succ, List.map_append,
      List.length_append, List.length_map, add_assoc]

def liveSlots : List (ℕ × ℕ) := cells hashtbl.bit 8 0 (2 ^ bits)

def fileDirents : List Dirent := (liveSlots bits hashtbl).map (slotDirent bits disk dirId hashtbl)

/-- A reader at the start passes on the whole table. -/
theorem readFiles_zero (ino : BitVec 64) (ctx : DirContext) :
    readFiles bits disk hashtbl ino ctx 0 =
      (ctx.emitAll (fileDirents bits disk (inodeToDirId ino) hashtbl),
        (liveSlots bits hashtbl).length) := by
  rw [readFiles, if_pos rfl, Nat.one_shiftLeft, emitBuckets_eq, Nat.zero_add]
  rfl

/-- A reader whose cursor has passed every live slot finds nothing more. -/
theorem readFiles_end (ino : BitVec 64) (ctx : DirContext) :
    readFiles bits disk hashtbl ino ctx (liveSlots bits hashtbl).length =
      (ctx, (liveSlots bits hashtbl).length) := by
  by_cases h0 : (liveSlots bits hashtbl).length = 0
  · rw [h0, readFiles_zero, h0]
    have hnil : fileDirents bits disk (inodeToDirId ino) hashtbl = [] := by
      rw [fileDirents, List.length_eq_zero_iff.mp h0, List.map_nil]
    rw [hnil, DirContext.emitAll_nil]
  · obtain ⟨i, j, hseek, -, hi, hj, hleft⟩ := seekRows_spec (p := hashtbl.bit) (w := 8) (r := 0)
      (n := 2 ^ bits) (Nat.pos_of_ne_zero h0) (le_of_eq (Nat.zero_add _).symm)
    -- no place has the rank of the cursor
    have hnone : (ones (hashtbl.bit i) j (8 - j)).map (Prod.mk i) ++
        cells hashtbl.bit 8 (i + 1) (2 ^ bits - (i + 1)) = [] := by
      rw [Nat.zero_add, Nat.sub_zero] at hleft
      rw [hleft]
      exact List.drop_length
    obtain ⟨hrow, hrows⟩ := List.append_eq_nil_iff.mp hnone
    have h8 : 1 <<< fileSlotBits = 8 := rfl
    rw [readFiles, if_neg h0, h8, Nat.one_shiftLeft]
    dsimp only
    rw [hseek]
    dsimp only
    rw [emitSlots_eq, List.map_eq_nil_iff.mp hrow, emitBuckets_eq, hrows]
    simp [DirContext.emitAll_nil]

end files

end FlatFS
