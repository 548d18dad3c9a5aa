import FlatFS.BucketPage
import FlatFS.GoneNames
import FlatFS.Lib.Overlay

namespace FlatFS
open Lib Function

/-- The entry is valid and has the length of the name, and `get_file_seg` reads the name in it. -/
def EntryRight (e : FfsInode) (name : CStr) : Prop :=
  e.valid ≠ 0 ∧ e.filename.nameLen.toNat = name.length ∧ strEq name e.filename.name = true

instance (e : FfsInode) (name : CStr) : Decidable (EntryRight e name) :=
  inferInstanceAs (Decidable (_ ∧ _ ∧ _))

/-- The names of the files that have been in a slot, the latest one first. -/
def owners (made : List (ℕ × CStr)) (slt : ℕ) : List CStr :=
  (made.filter fun p => p.1 = slt).map Prod.snd

def createsFile (_ : BucketPage) : BucketOp → Prop
  | .create name _ => FileName name
  | _ => True

instance (s : BucketPage) : (op : BucketOp) → Decidable (createsFile s op)
  | .create name _ => inferInstanceAs (Decidable (FileName name))
  | .dirty _ _ => .isTrue trivial
  | .unlink _ _ => .isTrue trivial

structure HoldsName (fi : FfsInodeInfo) (name : CStr) : Prop where
  nameLen : fi.filename.nameLen.toNat = name.length
  bytes : fi.filename.bytes = name

theorem holdsName_fill {fi : FfsInodeInfo} {mem : FfsName} {name : CStr} (hname : FileName name)
    (h : fi.filename = fillName mem name) : HoldsName fi name := by
  have hlen := hname.2.2
  constructor
  · rw [h, fillName_nameLen mem hname.1, Nat.mod_eq_of_lt (by omega)]
  · rw [h, fillName_bytes mem hname.1 hlen]

theorem owners_cons (made : List (ℕ × CStr)) (slt slt' : ℕ) (name : CStr) :
    owners ((slt, name) :: made) slt' =
      if slt' = slt then name :: owners made slt' else owners made slt' := by
  split_ifs with h
  · simp [owners, h]
  · simp [owners, Ne.symm h]

/-- The entry was written for the file, whose name is the latest in the slot. -/
structure LiveEntry (e : FfsInode) (names : List CStr) (f : CStr × FfsInodeInfo) : Prop where
  holds : HoldsName f.2 f.1
  valid : e.valid = 1
  nameLen : e.filename.nameLen = f.2.filename.nameLen
  latest : ∃ older, names = f.1 :: older

/-- Every name array is what the owners of its slot have written over each other. -/
structure EntryInv (s : BucketPage) : Prop where
  names : ∀ slt, ∀ name ∈ owners s.made slt, 0 ∉ name
  bytes : ∀ slt, (s.page.inode slt).filename.name = overlay (fun _ => 0) (owners s.made slt)
  live : ∀ slt f, s.file slt = some f → LiveEntry (s.page.inode slt) (owners s.made slt) f

theorem entryInv_init (sb : SbInfo) : EntryInv (.init sb) where
  names slt name h := by cases h
  bytes _ := rfl
  live slt f h := by cases h

theorem dirtyPage_entry {fi : FfsInodeInfo} {name : CStr} {slt : ℕ} (hslot : fi.slotId = slt)
    (hholds : HoldsName fi name) (page : FfsInodePage) (slt' : ℕ) :
    (dirtyPage fi 1 page).inode slt' = if slt' = slt then
        ⟨1, fi.iSize, fi.filename.nameLen, memcpy (page.inode slt').filename.name name⟩
      else page.inode slt' := by
  rw [dirtyPage_inode fi one_ne_zero, hslot, Int.toNat_natCast, hholds.bytes]

theorem EntryInv.creates {s : BucketPage} (hi : EntryInv s) {name : CStr} {mem : FfsName}
    {slt : ℕ} {fi : FfsInodeInfo} (hfile : FileName name) (hslot : fi.slotId = slt)
    (hname : fi.filename = fillName mem name) (sb : SbInfo) :
    EntryInv ⟨sb, dirtyPage fi 1 s.page, update s.file slt (some (name, fi)),
      (slt, name) :: s.made⟩ := by
  have hholds := holdsName_fill hfile hname
  have hpage := dirtyPage_entry hslot hholds s.page
  constructor
  case names =>
    intro slt' n hn
    rw [owners_cons] at hn
    split_ifs at hn
    · rcases List.mem_cons.mp hn with he | hn
      · rw [he]
        exact hfile.1
      · exact hi.names slt' n hn
    · exact hi.names slt' n hn
  case bytes =>
    intro slt'
    dsimp only
    rw [hpage, owners_cons]
    split_ifs
    · exact congrArg (memcpy · name) (hi.bytes slt')
    · exact hi.bytes slt'
  case live =>
    intro slt' f hf
    dsimp only at hf ⊢
    rw [update_apply] at hf
    rw [hpage, owners_cons]
    split_ifs at hf ⊢
    · cases hf
      exact ⟨hholds, rfl, rfl, _, rfl⟩
    · exact hi.live slt' f hf

theorem EntryInv.writes {s : BucketPage} (hi : EntryInv s) {slt : ℕ} {f : CStr × FfsInodeInfo}
    {fi : FfsInodeInfo} (hf : s.file slt = some f) (hslot : fi.slotId = slt)
    (hname : fi.filename = f.2.filename) :
    EntryInv { s with
      page := dirtyPage fi 1 s.page, file := update s.file slt (some (f.1, fi)) } := by
  obtain ⟨hold, -, -, older, howners⟩ := hi.live slt f hf
  have hholds : HoldsName fi f.1 := by
    constructor
    · rw [hname, hold.nameLen]
    · rw [hname, hold.bytes]
  have hpage := dirtyPage_entry hslot hholds s.page
  constructor
  case names => exact hi.names
  case bytes =>
    intro slt'
    dsimp only
    rw [hpage]
    split_ifs with he
    · dsimp only
      rw [hi.bytes, he, howners]
      exact overlay_twice
    · exact hi.bytes slt'
  case live =>
    intro slt' f' hf'
    dsimp only at hf' ⊢
    rw [update_apply] at hf'
    rw [hpage]
    split_ifs at hf' ⊢ with he
    · cases hf'
      rw [he]
      exact ⟨hholds, rfl, rfl, older, howners⟩
    · exact hi.live slt' f' hf'

theorem EntryInv.effect {s s' : BucketPage} {op : BucketOp} (hi : EntryInv s)
    (hok : createsFile s op) (h : BucketEffect s op s') : EntryInv s' := by
  cases h with
  | fails sb => exact ⟨hi.names, hi.bytes, hi.live⟩
  | creates sb hlt hfree hslot hname => exact hi.creates hok hslot hname sb
  | writes hf hslot hname => exact hi.writes hf hslot hname
  | @removes slt ioEnd sb f hlt hf hslot =>
    refine ⟨hi.names, hi.bytes, fun slt' f' hf' => hi.live slt' f' ?_⟩
    change update s.file slt none slt' = some f' at hf'
    rw [update_apply] at hf'
    split_ifs at hf'
    exact hf'

/-- The entry of a live file is right exactly when no name before it in the slot was longer: else
the tail of a longer one shows behind it. -/
theorem EntryInv.right_iff {s : BucketPage} (hi : EntryInv s) {slt : ℕ} {f : CStr × FfsInodeInfo}
    (hf : s.file slt = some f) : EntryRight (s.page.inode slt) f.1 ↔
      ∀ name ∈ owners s.made slt, name.length ≤ f.1.length := by
  obtain ⟨hholds, hvalid, hlen, older, howners⟩ := hi.live slt f hf
  have hnames := hi.names slt
  rw [howners, List.forall_mem_cons] at hnames
  have hstr : strEq f.1 (s.page.inode slt).filename.name = true ↔
      overlay (fun _ => 0) older f.1.length = 0 := by
    rw [hi.bytes, howners]
    exact strEq_memcpy hnames.1 _
  have hvalid' : (s.page.inode slt).valid ≠ 0 := by
    rw [hvalid]
    exact one_ne_zero
  rw [EntryRight, hlen, hholds.nameLen, hstr, overlay_eq_zero_iff hnames.2, howners,
    List.forall_mem_cons, and_iff_right hvalid', and_iff_right rfl, and_iff_right le_rfl]

/-- In every state of every run the entry of a live file is right exactly when the file has the
longest name of all that have been in its slot. -/
theorem entryRight_iff {dfi : FfsInodeInfo} {d b : ℕ} {sb : SbInfo} {s : BucketPage}
    (hdfi : dfi.dirId = d) (hd : d < 2 ^ 14)
    (h : Reach (bucketStep dfi b) createsFile (.init sb) s) {slt : ℕ} {f : CStr × FfsInodeInfo}
    (hf : s.file slt = some f) : EntryRight (s.page.inode slt) f.1 ↔
      ∀ name ∈ owners s.made slt, name.length ≤ f.1.length := by
  have hinv : EntryInv s :=
    reach_effects hdfi hd h (entryInv_init sb) fun _ _ _ hi hok heffect => hi.effect hok heffect
  exact hinv.right_iff hf

theorem entryRight_longer : ∃ s fi, run (bucketStep rootDir 97) createsFile (.init freshSb)
      [.create [97] ⟨0, fun _ => 0⟩, .unlink 0 ⟨0, 0, 0, 0, 0⟩,
        .create [106, 122, 57] ⟨0, fun _ => 0⟩] = some s ∧
    s.file 0 = some ([106, 122, 57], fi) ∧ EntryRight (s.page.inode 0) [106, 122, 57] := by
  obtain ⟨s, hrun, hfile, howners⟩ := exists_of_check
    (r := run (bucketStep rootDir 97) createsFile (.init freshSb)
      [.create [97] ⟨0, fun _ => 0⟩, .unlink 0 ⟨0, 0, 0, 0, 0⟩,
        .create [106, 122, 57] ⟨0, fun _ => 0⟩])
    (p := fun s => (s.file 0).map Prod.fst = some [106, 122, 57] ∧
      ∀ name ∈ owners s.made 0, name.length ≤ 3) (by decide +kernel)
  obtain ⟨⟨name, fi⟩, hf, hname⟩ := Option.map_eq_some_iff.mp hfile
  cases hname
  exact ⟨s, fi, hrun, hf,
    (entryRight_iff rfl (by norm_num : 2 < 2 ^ 14) (.of_run hrun) hf).mpr howners⟩

/-- `jz9` is made and unlinked, and then `a` is made in its slot: the entry reads `az9`. -/
theorem entry_keeps_tail : ∃ s, run (bucketStep rootDir 97) createsFile (.init freshSb)
      [.create [106, 122, 57] ⟨0, fun _ => 0⟩, .unlink 0 ⟨0, 0, 0, 0, 0⟩,
        .create [97] ⟨0, fun _ => 0⟩] = some s ∧
    (s.file 0).map Prod.fst = some [97] ∧
    strEq [97, 122, 57] (s.page.inode 0).filename.name = true ∧
    ¬ EntryRight (s.page.inode 0) [97] :=
  exists_of_check (by decide +kernel)

def AdmittedName (name : CStr) : Prop :=
  0 ∉ name ∧ 0 < name.length ∧ name.length ≤ ffsMaxFilenameLen

instance (name : CStr) : Decidable (AdmittedName name) := inferInstanceAs (Decidable (_ ∧ _ ∧ _))

/-- The entry has the whole name with its terminator, and `get_file_seg` takes it for that name
and for no other one. -/
structure StoresName (e : FfsInode) (name : CStr) : Prop where
  nameLen : e.filename.nameLen.toNat = name.length
  bytes : e.filename.bytes = name
  terminator : e.filename.name name.length = 0
  compares : ∀ other, AdmittedName other → (strEq other e.filename.name = true ↔ other = name)

section

variable {sb : SbInfo} {dfi fi : FfsInodeInfo} {mem : FfsName} {name : CStr} {r : MknodResult}
  {ino : BitVec 64} {dev : Device}

/-- The entry that `ffs_dirty_inode` writes on a zeroed page for a file just made. -/
theorem created_entry (h : ffsMknodFile sb dfi mem name = some r) (hc : r.created = some (ino, fi))
    (hz : dev (fileMetaLba fi) = zeroPage) :
    (ffsDirtyInode dev fi (fileMetaLba fi)).inode fi.slotId.toNat =
      ⟨1, fi.iSize, (fillName mem name).nameLen,
        memcpy (fun _ => 0) (fillName mem name).bytes⟩ := by
  have hfill : fi.valid = 1 ∧ fi.filename = fillName mem name := by
    rcases (mknodFile_result h).2 ino fi hc with he | he
    · rw [he]
      exact ⟨rfl, rfl⟩
    · rw [he]
      exact ⟨rfl, rfl⟩
  rw [ffsDirtyInode, update_self, hz, hfill.1, dirtyPage_inode fi one_ne_zero, if_pos rfl, hfill.2]
  rfl

/-- A name is stored whole exactly when one byte can hold its length. -/
theorem storesName_iff (hname : AdmittedName name) (h : ffsMknodFile sb dfi mem name = some r)
    (hc : r.created = some (ino, fi)) (hz : dev (fileMetaLba fi) = zeroPage) :
    StoresName ((ffsDirtyInode dev fi (fileMetaLba fi)).inode fi.slotId.toNat) name ↔
      name.length ≤ 255 := by
  have hnameLen := fillName_nameLen mem hname.1
  rw [created_entry h hc hz]
  constructor
  · intro hs
    have hlen := hs.nameLen
    rw [hnameLen] at hlen
    omega
  · intro hle
    have hbytes := fillName_bytes mem hname.1 hle
    have hlen : (fillName mem name).nameLen.toNat = name.length := by
      rw [hnameLen, Nat.mod_eq_of_lt (by omega)]
    rw [hbytes]
    constructor
    case nameLen => exact hlen
    case bytes => exact map_memcpy _ hlen.symm
    case terminator => exact List.getD_eq_default _ _ le_rfl
    case compares => exact fun other hother => strEq_memcpy_zero hother.1 hname.1

end

theorem storesName_f1 : ∃ r ino fi,
    ffsMknodFile freshSb rootDir ⟨0, fun _ => 0⟩ [102, 49] = some r ∧
      r.created = some (ino, fi) ∧
      StoresName ((ffsDirtyInode (fun _ => zeroPage) fi (fileMetaLba fi)).inode fi.slotId.toNat)
        [102, 49] := by
  obtain ⟨r, ino, fi, hmk, hc, -, -, -⟩ := f1_stored
  exact ⟨r, ino, fi, hmk, hc, (storesName_iff (by decide) hmk hc rfl).mpr (by decide)⟩

/-- Of a name of 256 bytes no byte is stored. -/
theorem name_of_256_bytes_lost : ∃ r ino fi,
    ffsMknodFile freshSb rootDir ⟨0, fun _ => 0⟩ (List.replicate 256 97) = some r ∧
      r.created = some (ino, fi) ∧ AdmittedName (List.replicate 256 97) ∧
      ((ffsDirtyInode (fun _ => zeroPage) fi (fileMetaLba fi)).inode
        fi.slotId.toNat).filename.nameLen = 0 ∧
      ¬ StoresName ((ffsDirtyInode (fun _ => zeroPage) fi (fileMetaLba fi)).inode
        fi.slotId.toNat) (List.replicate 256 97) := by
  obtain ⟨r, ino, fi, hmk, hc, -, -, -⟩ := @mknodFile_stored freshSb rootDir
    (List.replicate 256 97) 2 initFileHt ⟨0, fun _ => 0⟩ rfl rfl rfl (by norm_num)
    (show ¬ Bucket.empty.Full by decide)
  have hlen : (fillName ⟨0, fun _ => 0⟩ (List.replicate 256 97)).nameLen = 0 := by decide +kernel
  have hentry : (ffsDirtyInode (fun _ => zeroPage) fi (fileMetaLba fi)).inode fi.slotId.toNat = _ :=
    created_entry hmk hc rfl
  refine ⟨r, ino, fi, hmk, hc, by decide +kernel, ?_, fun hs => ?_⟩
  · rw [hentry]
    exact hlen
  · have hstored := hs.nameLen
    rw [hentry] at hstored
    dsimp only at hstored
    rw [hlen, List.length_replicate] at hstored
    revert hstored
    decide

end FlatFS
