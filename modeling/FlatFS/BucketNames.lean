import FlatFS.PageNames

namespace FlatFS
open Lib Function

def strMem (s : CStr) : ℕ → UInt8 := memcpy (fun _ => 0) s

/-- The string in the array after a name was copied to its front without a terminator. -/
def writeOver (old name : CStr) : CStr := name ++ old.drop name.length

theorem memcpy_strMem (old name : CStr) :
    memcpy (strMem old) name = strMem (writeOver old name) := by
  funext i
  simp only [memcpy, strMem, writeOver]
  by_cases h : i < name.length
  · rw [List.getD_append _ _ _ _ h, List.getD_eq_getElem _ _ h, List.getD_eq_getElem _ _ h]
  · have hle : name.length ≤ i := Nat.not_lt.mp h
    rw [List.getD_eq_default _ _ hle, List.getD_append_right _ _ _ _ hle,
      List.getD_eq_getElem?_getD, List.getD_eq_getElem?_getD, List.getElem?_drop,
      Nat.add_sub_cancel' hle]

theorem zero_notMem_writeOver {old name : CStr} (hold : 0 ∉ old) (hname : 0 ∉ name) :
    0 ∉ writeOver old name := by
  rw [writeOver, List.mem_append]
  exact not_or.mpr ⟨hname, fun h => hold (List.mem_of_mem_drop h)⟩

/-- A name that is copied over itself and what stood behind it changes nothing. -/
theorem writeOver_self (name rest : CStr) : writeOver (name ++ rest) name = name ++ rest := by
  rw [writeOver, List.drop_left]

/-- Every name array of a page holds a string. A block that was never written is such a page, and so
is every page that the file system has left on the device. -/
structure HoldsStrings (page : FfsInodePage) (shown : ℕ → CStr) : Prop where
  name : ∀ slt, (page.inode slt).filename.name = strMem (shown slt)
  terminated : ∀ slt, 0 ∉ shown slt

def shownPage (shown : ℕ → CStr) : FfsInodePage :=
  { zeroPage with inode := fun slt => ⟨0, 0, 0, strMem (shown slt)⟩ }

theorem holdsStrings_shownPage {shown : ℕ → CStr} (h : ∀ slt, 0 ∉ shown slt) :
    HoldsStrings (shownPage shown) shown where
  name _ := rfl
  terminated := h

theorem HoldsStrings.nameSlot {page : FfsInodePage} {shown : ℕ → CStr}
    (h : HoldsStrings page shown) {name : CStr} (hname : 0 ∉ name) :
    nameSlot page name = (List.range (1 <<< fileSlotBits)).find? fun slt => shown slt = name := by
  rw [FlatFS.nameSlot]
  congr 1
  funext slt
  rw [h.name, Bool.eq_iff_iff, decide_eq_true_iff, eq_comm (a := shown slt)]
  exact strEq_memcpy_zero hname (h.terminated slt)

/-- The string in a slot after the creates on a bucket, the latest one first: each of them writes
its name over what was there. -/
def shownAfter (shown : ℕ → CStr) (made : List (ℕ × CStr)) (slt : ℕ) : CStr :=
  (owners made slt).foldr (fun name old => writeOver old name) (shown slt)

theorem shownAfter_cons (shown : ℕ → CStr) (made : List (ℕ × CStr)) (slt slt' : ℕ) (name : CStr) :
    shownAfter shown ((slt, name) :: made) slt' =
      if slt' = slt then writeOver (shownAfter shown made slt') name
      else shownAfter shown made slt' := by
  rw [shownAfter, shownAfter, owners_cons]
  split_ifs <;> rfl

/-- A bucket without files, whatever is in the tables and on its page: with a page from before the
mount, for one. -/
def BucketPage.mounted (sb : SbInfo) (page : FfsInodePage) : BucketPage :=
  ⟨sb, page, fun _ => none, []⟩

/-- The page holds what the creates have left of the names, and a live file has its own name at the
front of its entry. -/
structure NamesInv (shown : ℕ → CStr) (s : BucketPage) : Prop where
  holds : HoldsStrings s.page (shownAfter shown s.made)
  live : ∀ slt f, s.file slt = some f → HoldsName f.2 f.1 ∧
    ∃ rest, shownAfter shown s.made slt = f.1 ++ rest

section
variable {shown : ℕ → CStr} {s s' : BucketPage} {slt : ℕ} {fi : FfsInodeInfo}

theorem NamesInv.creates (hi : NamesInv shown s) {name : CStr} {mem : FfsName}
    (hfile : FileName name) (hslot : fi.slotId = slt) (hname : fi.filename = fillName mem name)
    (sb : SbInfo) : NamesInv shown ⟨sb, dirtyPage fi 1 s.page, update s.file slt (some (name, fi)),
      (slt, name) :: s.made⟩ := by
  have hholds := holdsName_fill hfile hname
  have hpage := dirtyPage_entry hslot hholds s.page
  refine ⟨⟨fun slt' => ?_, fun slt' => ?_⟩, fun slt' f hf => ?_⟩
  · dsimp only
    rw [hpage, shownAfter_cons]
    split_ifs
    · exact (congrArg (memcpy · name) (hi.holds.name slt')).trans (memcpy_strMem _ name)
    · exact hi.holds.name slt'
  · rw [shownAfter_cons]
    split_ifs
    · exact zero_notMem_writeOver (hi.holds.terminated slt') hfile.1
    · exact hi.holds.terminated slt'
  · dsimp only at hf ⊢
    rw [update_apply] at hf
    rw [shownAfter_cons]
    split_ifs at hf ⊢
    · cases hf
      exact ⟨hholds, _, rfl⟩
    · exact hi.live slt' f hf

theorem NamesInv.writes (hi : NamesInv shown s) {f : CStr × FfsInodeInfo}
    (hf : s.file slt = some f) (hslot : fi.slotId = slt) (hname : fi.filename = f.2.filename) :
    NamesInv shown
      { s with page := dirtyPage fi 1 s.page, file := update s.file slt (some (f.1, fi)) } := by
  obtain ⟨hold, rest, hrest⟩ := hi.live slt f hf
  have hholds : HoldsName fi f.1 := by
    constructor
    · rw [hname, hold.nameLen]
    · rw [hname, hold.bytes]
  have hpage := dirtyPage_entry hslot hholds s.page
  refine ⟨⟨fun slt' => ?_, hi.holds.terminated⟩, fun slt' f' hf' => ?_⟩
  · dsimp only
    rw [hpage]
    split_ifs with he
    · show memcpy _ f.1 = _
      rw [hi.holds.name, memcpy_strMem, he, hrest, writeOver_self]
    · exact hi.holds.name slt'
  · dsimp only at hf' ⊢
    rw [update_apply] at hf'
    split_ifs at hf' with he
    · cases hf'
      rw [he]
      exact ⟨hholds, rest, hrest⟩
    · exact hi.live slt' f' hf'

theorem NamesInv.effect (hi : NamesInv shown s) {op : BucketOp} (hok : createsFile s op)
    (h : BucketEffect s op s') : NamesInv shown s' := by
  cases h with
  | fails sb => exact ⟨hi.holds, hi.live⟩
  | creates sb hlt hfree hslot hname => exact hi.creates hok hslot hname sb
  | writes hf hslot hname => exact hi.writes hf hslot hname
  | @removes slt ioEnd sb f hlt hf hslot =>
    -- an unlink leaves the name array alone
    refine ⟨⟨hi.holds.name, hi.holds.terminated⟩, fun slt' f' hf' => hi.live slt' f' ?_⟩
    change update s.file slt none slt' = some f' at hf'
    rw [update_apply] at hf'
    split_ifs at hf'
    exact hf'

end

theorem namesInv_mounted {shown : ℕ → CStr} {page : FfsInodePage} (h : HoldsStrings page shown)
    (sb : SbInfo) : NamesInv shown (.mounted sb page) where
  holds := h
  live slt f hf := by cases hf

theorem namesInv_of_reach {dfi : FfsInodeInfo} {d b : ℕ} {sb : SbInfo} {page : FfsInodePage}
    {shown : ℕ → CStr} {s : BucketPage} (hdfi : dfi.dirId = d) (hd : d < 2 ^ 14)
    (hpage : HoldsStrings page shown)
    (h : Reach (bucketStep dfi b) createsFile (.mounted sb page) s) :
    BucketInv dfi.handle.table b s ∧ NamesInv shown s := by
  refine h.invariant (fun s => BucketInv dfi.handle.table b s ∧ NamesInv shown s)
    ⟨fun slt f hf => (by cases hf), namesInv_mounted hpage sb⟩ ?_
  intro s op s' hi hok hs
  obtain ⟨heffect, hb⟩ := bucketStep_effect hdfi hd hi.1 hs
  exact ⟨hb, hi.2.effect hok heffect⟩

def pageLba (dfi : FfsInodeInfo) (b : ℕ) : BitVec 64 :=
  if dfi.isBigDir = 0 then composeLba dfi.dirId b 0 0 else composeBigFileLba dfi.dirId b 0 0

/-- The search for a file in the table that creates in the directory go to. -/
def dirSeg (dev : Device) (dfi : FfsInodeInfo) (ht : HashTable) (name : CStr) : BitVec 64 :=
  if dfi.isBigDir = 0 then getFileSeg dev dfi ht name else getBigFileSeg dev dfi ht name

def BucketPage.search (dfi : FfsInodeInfo) (b : ℕ) (dev : Device) (s : BucketPage) (name : CStr) :
    BitVec 64 :=
  (s.sb.table dfi.handle.table).elim 0 fun ht =>
    dirSeg (update dev (pageLba dfi b) s.page) dfi ht name

def BucketPage.anyBit (dfi : FfsInodeInfo) (b : ℕ) (s : BucketPage) : Bool :=
  (List.range 8).any fun slt => s.sb.bit (dfi.handle.table, b, slt)

section
variable {dfi : FfsInodeInfo} {d b : ℕ} {sb : SbInfo} {page : FfsInodePage} {shown : ℕ → CStr}
  {s : BucketPage} {name : CStr}

theorem getSeg_toNat_eq {bits : ℕ} (hbits : bits < 60) (ht : HashTable)
    (page : BitVec 64 → FfsInodePage) (name : CStr) : (getSeg bits page ht name).toNat =
      if (List.range 8).any (ht.bit (bucketOf bits name).toNat) then
        segOf (bucketOf bits name).toNat (nameSlot (page (bucketOf bits name)) name) else 0 := by
  split_ifs with h
  · obtain ⟨slt, hs, hbit⟩ := List.any_eq_true.mp h
    exact getSeg_toNat hbits (List.mem_range.mp hs) hbit
  · have hzero : getSeg bits page ht name = 0 := if_neg h
    rw [hzero]
    rfl

/-- A bucket without a set bit is not searched, and else its page decides. -/
theorem dirSeg_toNat (hb : dirBucket dfi name = b) (dev : Device) (ht : HashTable) :
    (dirSeg dev dfi ht name).toNat = if (List.range 8).any (ht.bit b) then
      segOf b (nameSlot (dev (pageLba dfi b)) name) else 0 := by
  have hbits : minFileBucketBits < 60 ∧ minFileBucketBits + minDirBits < 60 := by decide
  rw [dirBucket] at hb
  rw [dirSeg, pageLba]
  by_cases hbig : dfi.isBigDir = 0
  · rw [if_pos hbig] at hb ⊢
    rw [if_pos hbig, ← hb]
    exact getSeg_toNat_eq hbits.1 ht _ name
  · rw [if_neg hbig] at hb ⊢
    rw [if_neg hbig, ← hb]
    exact getSeg_toNat_eq hbits.2 ht _ name

theorem search_toNat (hb : dirBucket dfi name = b) (dev : Device) (s : BucketPage) :
    (s.search dfi b dev name).toNat =
      if s.anyBit dfi b then segOf b (nameSlot s.page name) else 0 := by
  have hbit : ∀ slt, s.sb.bit (dfi.handle.table, b, slt) =
      (s.sb.table dfi.handle.table).any fun ht => ht.bit b slt := fun _ => rfl
  simp only [BucketPage.search, BucketPage.anyBit, hbit]
  cases s.sb.table dfi.handle.table with
  | none => simp
  | some ht =>
    rw [Option.elim_some, dirSeg_toNat hb, update_self]
    rfl

/-- In every state of every run on a bucket, also of one that starts with an old page, the search
for a name takes the first slot that shows the name, of a live file or not, and nothing is found
while no slot of the bucket has its bit. -/
theorem bucket_search (hdfi : dfi.dirId = d) (hd : d < 2 ^ 14) (hpage : HoldsStrings page shown)
    (h : Reach (bucketStep dfi b) createsFile (.mounted sb page) s) (hname : 0 ∉ name)
    (hb : dirBucket dfi name = b) (dev : Device) : (s.search dfi b dev name).toNat =
      if s.anyBit dfi b then
        segOf b ((List.range 8).find? fun slt => shownAfter shown s.made slt = name) else 0 := by
  obtain ⟨-, hinv⟩ := namesInv_of_reach hdfi hd hpage h
  rw [search_toNat hb, hinv.holds.nameSlot hname]
  rfl

/-- A mount reads no name back: the root of the superblock that `flatfs_fill_super` builds finds
nothing. -/
theorem ffsLookup_fillSuper (mem : ℕ → ℕ → UInt8) (heap : ℕ → DirListEntry) (m : FfsName)
    (dev : Device) (name : CStr) :
    ffsLookup dev (fillSuper mem heap) (dirIdToInode 2) (rootInfo m) name = none := by
  have hroot : (inodeToDirId (dirIdToInode 2)).toNat = flatfsRootIno := by decide
  have hdir : flatfsDirInodeByName (fillSuper mem heap) (dirIdToInode 2) name = 0 := by
    unfold flatfsDirInodeByName
    rw [hroot]
    exact if_pos rfl
  have hfile : ∀ d, flatfsFileInodeByName dev (rootInfo m) initFileHt d name = 0 := fun _ => rfl
  have htable : (fillSuper mem heap).hashtbl flatfsRootIno = some initFileHt := rfl
  have hsmall : (rootInfo m).isBigDir = 0 := rfl
  have hino : lookupIno dev (fillSuper mem heap) (dirIdToInode 2) (rootInfo m) name = 0 := by
    unfold lookupIno
    simp only [hdir, if_true, hroot, htable, Option.elim_some, hfile, hsmall, ne_eq,
      not_true_eq_false, and_false, if_false]
  rw [ffsLookup, hino, if_pos rfl]
  exact ite_self none

/-- After a mount the root finds no name. But as soon as a file lives in a bucket again, the search
in it finds the names of the page from before the mount, in every slot that was not used since. -/
theorem remount_search {mem : ℕ → ℕ → UInt8} {heap : ℕ → DirListEntry} {m : FfsName}
    (hpage : HoldsStrings page shown)
    (h : Reach (bucketStep (rootInfo m) b) createsFile (.mounted (fillSuper mem heap) page) s)
    (hlive : ∃ slt, s.file slt ≠ none) (hname : 0 ∉ name) (hb : smallBucket name = b) {slt : ℕ}
    (hslt : slt < 8) (hold : shown slt = name) (hunused : owners s.made slt = [])
    (hfirst : ∀ slt' < slt, shownAfter shown s.made slt' ≠ name) :
    (∀ dev, ffsLookup dev (fillSuper mem heap) (dirIdToInode 2) (rootInfo m) name = none) ∧
      ∀ dev, (s.search (rootInfo m) b dev name).toNat = b * 8 + slt := by
  refine ⟨fun dev => ffsLookup_fillSuper mem heap m dev name, fun dev => ?_⟩
  have hbkt : dirBucket (rootInfo m) name = b := hb
  obtain ⟨hfiles, hinv⟩ := namesInv_of_reach rfl (by norm_num : 2 < 2 ^ 14) hpage h
  have hany : s.anyBit (rootInfo m) b = true := by
    obtain ⟨slt', hne⟩ := hlive
    obtain ⟨f, hf⟩ := Option.ne_none_iff_exists'.mp hne
    have hfile := hfiles slt' f hf
    exact List.any_eq_true.mpr ⟨slt', List.mem_range.mpr hfile.slot_lt, hfile.bit⟩
  have hshown : shownAfter shown s.made slt = name := by
    rw [shownAfter, hunused]
    exact hold
  have hfind : nameSlot s.page name = some slt := by
    rw [hinv.holds.nameSlot hname, List.find?_range_eq_some]
    refine ⟨decide_eq_true hshown, List.mem_range.mpr hslt, fun slt' hlt => ?_⟩
    simpa using hfirst slt' hlt
  rw [search_toNat hbkt, if_pos hany, hfind]
  rfl

end

/-- `jz9`, which stood in slot 1 before the mount. -/
def oldNames (slt : ℕ) : CStr := if slt = 1 then [106, 122, 57] else []

theorem zero_notMem_oldNames (slt : ℕ) : 0 ∉ oldNames slt := by
  rw [oldNames]
  split_ifs <;> decide

theorem bucket_search_old : ∃ s, run (bucketStep rootDir 97) createsFile
      (.mounted freshSb (shownPage oldNames)) [.create [97] ⟨0, fun _ => 0⟩] = some s ∧
    ∀ dev, (s.search rootDir 97 dev [106, 122, 57]).toNat = 97 * 8 + 1 := by
  obtain ⟨s, hrun, hany, hfind⟩ := exists_of_check
    (r := run (bucketStep rootDir 97) createsFile
      (.mounted freshSb (shownPage oldNames)) [.create [97] ⟨0, fun _ => 0⟩])
    (p := fun s => s.anyBit rootDir 97 = true ∧
      (List.range 8).find? (fun slt => shownAfter oldNames s.made slt = [106, 122, 57]) = some 1)
    (by decide +kernel)
  refine ⟨s, hrun, fun dev => ?_⟩
  have hname : 0 ∉ ([106, 122, 57] : CStr) := by decide
  have hsearch := bucket_search rfl (by norm_num : 2 < 2 ^ 14)
    (holdsStrings_shownPage zero_notMem_oldNames) (.of_run hrun) hname (by decide) dev
  rw [if_pos hany, hfind] at hsearch
  exact hsearch

theorem remount_search_old : ∃ s, run (bucketStep rootDir 97) createsFile
      (.mounted freshSb (shownPage oldNames)) [.create [97] ⟨0, fun _ => 0⟩] = some s ∧
    (∀ dev, ffsLookup dev freshSb (dirIdToInode 2) rootDir [106, 122, 57] = none) ∧
    ∀ dev, (s.search rootDir 97 dev [106, 122, 57]).toNat = 97 * 8 + 1 := by
  obtain ⟨s, hrun, hlive, hunused, hfirst⟩ := exists_of_check
    (r := run (bucketStep rootDir 97) createsFile
      (.mounted freshSb (shownPage oldNames)) [.create [97] ⟨0, fun _ => 0⟩])
    (p := fun s => (s.file 0).isSome = true ∧ owners s.made 1 = [] ∧
      shownAfter oldNames s.made 0 ≠ [106, 122, 57]) (by decide +kernel)
  refine ⟨s, hrun, remount_search (holdsStrings_shownPage zero_notMem_oldNames) (.of_run hrun)
    ⟨0, Option.isSome_iff_ne_none.mp hlive⟩ (by decide) (by decide) (by norm_num) rfl hunused ?_⟩
  intro slt' hlt
  rw [Nat.lt_one_iff.mp hlt]
  exact hfirst

end FlatFS
