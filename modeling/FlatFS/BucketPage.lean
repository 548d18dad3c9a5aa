import FlatFS.DiscardHandler

namespace FlatFS
open Lib Function

def dirBucket (dfi : FfsInodeInfo) (name : CStr) : ℕ :=
  if dfi.isBigDir = 0 then smallBucket name else bigBucket name

/-- One bucket of a directory: the tables, the inode page, the live files by slot with their names,
and the slot and the name of every file created so far, the latest one first. -/
structure BucketPage where
  sb : SbInfo
  page : FfsInodePage
  file : ℕ → Option (CStr × FfsInodeInfo)
  made : List (ℕ × CStr)

/-- The operations. A create carries the name field of the recycled inode, `ffs_dirty_inode` the
size that the inode has by then, and an unlink the record at `b_private`. -/
inductive BucketOp
  | create (name : CStr) (mem : FfsName)
  | dirty (slt : ℕ) (iSize : ℤ)
  | unlink (slt : ℕ) (ioEnd : FfsIoEnd)

namespace BucketPage

def init (sb : SbInfo) : BucketPage := ⟨sb, zeroPage, fun _ => none, []⟩

/-- `ffs_mknod` has returned, and `ffs_dirty_inode` writes the entry of the file it has created. -/
def create (s : BucketPage) (name : CStr) (r : MknodResult) : BucketPage :=
  match r.created with
  | some (_, fi) =>
    { sb := r.sb
      page := dirtyPage fi fi.valid s.page
      file := update s.file fi.slotId.toNat (some (name, fi))
      made := (fi.slotId.toNat, name) :: s.made }
  | none => { s with sb := r.sb }

def dirty (s : BucketPage) (slt : ℕ) (f : CStr × FfsInodeInfo) (iSize : ℤ) : BucketPage :=
  let fi := { f.2 with iSize := iSize }
  { s with page := dirtyPage fi fi.valid s.page, file := update s.file slt (some (f.1, fi)) }

/-- `ffs_unlink` with the callback, which is passed the record `ioEnd`. The last `ffs_dirty_inode`
finds the inode invalid. -/
def unlink (s : BucketPage) (slt : ℕ) (fi : FfsInodeInfo) (ioEnd : FfsIoEnd) : BucketPage :=
  let gone := invalidate fi
  { s with
    sb := callbackForDiscard s.sb ioEnd
    page := dirtyPage gone gone.valid (clearPage fi s.page)
    file := update s.file slt none }

end BucketPage

/-- The steps on bucket `b` of the directory with the info `dfi`, while creates go to its table. A
create that finds the bucket full is not among them: a small directory is promoted by it, and
`insert_big_file` answers with a slot behind the bucket. -/
def bucketStep (dfi : FfsInodeInfo) (b : ℕ) (s : BucketPage) : BucketOp → Option BucketPage
  | .create name mem =>
    (s.sb.table dfi.handle.table).bind fun ht =>
      if dirBucket dfi name = b ∧ ¬ (ht.buckets b).Full then
        (ffsMknodFile s.sb dfi mem name).map (s.create name)
      else none
  | .dirty slt iSize => (s.file slt).map fun f => s.dirty slt f iSize
  | .unlink slt ioEnd =>
    (s.file slt).bind fun f =>
      let ioEnd := initHandlerForDiscard ioEnd f.2
      if callbackFaults s.sb ioEnd then none else some (s.unlink slt f.2 ioEnd)

structure SlotFile (sb : SbInfo) (t : TableId) (b slt : ℕ) (fi : FfsInodeInfo) : Prop where
  slot_lt : slt < 8
  slotId : fi.slotId = slt
  valid : fi.valid = 1
  bit : sb.bit (t, b, slt) = true

theorem SlotFile.congr {sb sb' : SbInfo} {t : TableId} {b slt : ℕ} {fi : FfsInodeInfo}
    (h : SlotFile sb t b slt fi) (hbit : sb'.bit (t, b, slt) = true) : SlotFile sb' t b slt fi :=
  ⟨h.slot_lt, h.slotId, h.valid, hbit⟩

def BucketInv (t : TableId) (b : ℕ) (s : BucketPage) : Prop :=
  ∀ slt f, s.file slt = some f → SlotFile s.sb t b slt f.2

theorem BucketInv.put {t : TableId} {b slt : ℕ} {s : BucketPage} (hi : BucketInv t b s)
    {sb : SbInfo} {o : Option (CStr × FfsInodeInfo)}
    (hkeep : ∀ slt' ≠ slt, s.sb.bit (t, b, slt') = true → sb.bit (t, b, slt') = true)
    (ho : ∀ f, o = some f → SlotFile sb t b slt f.2) (page : FfsInodePage)
    (made : List (ℕ × CStr)) : BucketInv t b ⟨sb, page, update s.file slt o, made⟩ := by
  intro slt' f hf
  dsimp only at hf ⊢
  rw [update_apply] at hf
  split_ifs at hf with he
  · rw [he]
    exact ho f hf
  · exact (hi slt' f hf).congr (hkeep slt' he (hi slt' f hf).bit)

inductive BucketEffect (s : BucketPage) : BucketOp → BucketPage → Prop
  | fails {name : CStr} {mem : FfsName} (sb : SbInfo) :
      BucketEffect s (.create name mem) { s with sb := sb }
  | creates {name : CStr} {mem : FfsName} (sb : SbInfo) {slt : ℕ} {fi : FfsInodeInfo}
      (hlt : slt < 8) (hfree : s.file slt = none) (hslot : fi.slotId = slt)
      (hname : fi.filename = fillName mem name) :
      BucketEffect s (.create name mem)
        ⟨sb, dirtyPage fi 1 s.page, update s.file slt (some (name, fi)), (slt, name) :: s.made⟩
  | writes {slt : ℕ} {iSize : ℤ} {f : CStr × FfsInodeInfo} {fi : FfsInodeInfo}
      (hf : s.file slt = some f) (hslot : fi.slotId = slt) (hname : fi.filename = f.2.filename) :
      BucketEffect s (.dirty slt iSize)
        { s with page := dirtyPage fi 1 s.page, file := update s.file slt (some (f.1, fi)) }
  | removes {slt : ℕ} {ioEnd : FfsIoEnd} (sb : SbInfo) {f : CStr × FfsInodeInfo}
      (hlt : slt < 8) (hf : s.file slt = some f) (hslot : f.2.slotId = slt) :
      BucketEffect s (.unlink slt ioEnd)
        ⟨sb, clearPage f.2 s.page, update s.file slt none, s.made⟩

structure TakesSlot (sb : SbInfo) (t : TableId) (b slt : ℕ) (mem : FfsName) (name : CStr)
    (r : MknodResult) : Prop where
  bits : ∀ q, sb.bit q = true → r.sb.bit q = true
  created : ∀ ino fi, r.created = some (ino, fi) → fi.slotId = slt ∧ fi.valid = 1 ∧
    fi.filename = fillName mem name ∧ r.sb.bit (t, b, slt) = true

section

variable {dfi : FfsInodeInfo} {d b : ℕ} {sb : SbInfo} {mem : FfsName} {name : CStr}
  {r : MknodResult} {ht : HashTable}

theorem takesSlot_of_sb {t : TableId} {slt : ℕ} (hht : sb.table t = some ht)
    (hsb : r.sb = sb.setTable t (some (ht.modify b (·.take slt))))
    (hc : ∀ ino fi, r.created = some (ino, fi) → fi.slotId = slt ∧ fi.valid = 1 ∧
      fi.filename = fillName mem name) : TakesSlot sb t b slt mem name r := by
  have hbit : ∀ q, r.sb.bit q = true ↔ q = (t, b, slt) ∨ sb.bit q = true := by
    rw [hsb]
    exact SbInfo.bit_take hht b slt
  refine ⟨fun q hq => (hbit q).mpr (.inr hq), fun ino fi h => ?_⟩
  obtain ⟨hslot, hvalid, hname⟩ := hc ino fi h
  exact ⟨hslot, hvalid, hname, (hbit _).mpr (.inl rfl)⟩

theorem mknod_takesSlot (hdfi : dfi.dirId = d) (hd : d < 2 ^ 14)
    (hht : sb.table dfi.handle.table = some ht) (hb : dirBucket dfi name = b)
    (hfree : ¬ (ht.buckets b).Full) (hr : ffsMknodFile sb dfi mem name = some r) :
    TakesSlot sb dfi.handle.table b (ht.buckets b).freeSlot mem name r := by
  by_cases hbig : dfi.isBigDir = 0
  · have ht' : dfi.handle.table = .small d := by
      rw [FfsIoEnd.table, FfsInodeInfo.handle, if_pos hbig, hdfi, Int.toNat_natCast]
    rw [dirBucket, if_pos hbig] at hb
    rw [ht'] at hht ⊢
    rw [← hb] at hfree ⊢
    obtain ⟨ino, hmk, hino⟩ := mknodFile_free mem hbig hdfi hht hd hfree
    rw [hr] at hmk
    cases hmk
    apply takesSlot_of_sb hht rfl
    intro ino' fi hc
    cases hc
    exact ⟨(smallIno_decodes (smallBucket_lt name) (Bucket.freeSlot_lt hfree) hino).2, rfl, rfl⟩
  · have ht' : dfi.handle.table = .big dfi.bigDirId.toNat := by
      rw [FfsIoEnd.table, FfsInodeInfo.handle, if_neg hbig]
    rw [dirBucket, if_neg hbig] at hb
    rw [ht'] at hht ⊢
    rw [← hb] at hfree ⊢
    obtain ⟨ino, hmk, hino⟩ := mknodBigFile_free mem rfl hdfi hht hfree
    rw [ffsMknodFile, mknodFileBy, if_neg hbig, hmk] at hr
    cases hr
    apply takesSlot_of_sb hht rfl
    intro ino' fi hc
    dsimp only at hc
    split_ifs at hc
    cases hc
    refine ⟨?_, rfl, rfl⟩
    -- the slot is in the low bits, under the directory and the bucket
    have hs := Bucket.freeSlot_lt hfree
    have hdvd := bigDirField_dvd d
    change inoToSlot ino = _
    rw [inoToSlot_eq, hino]
    apply congrArg Nat.cast
    omega

theorem BucketInv.file_eq_none {t : TableId} {s : BucketPage} (hi : BucketInv t b s) {slt : ℕ}
    (hht : s.sb.table t = some ht) (hclear : ht.bit b slt = false) : s.file slt = none := by
  apply Option.eq_none_iff_forall_ne_some.mpr
  intro f hf
  have hset := (hi slt f hf).bit
  rw [SbInfo.bit, hht] at hset
  exact absurd hset (Bool.eq_false_iff.mp hclear)

theorem bucketStep_effect (hdfi : dfi.dirId = d) (hd : d < 2 ^ 14) {s s' : BucketPage}
    {op : BucketOp} (hi : BucketInv dfi.handle.table b s) (h : bucketStep dfi b s op = some s') :
    BucketEffect s op s' ∧ BucketInv dfi.handle.table b s' := by
  cases op with
  | create name mem =>
    obtain ⟨ht, hht, h⟩ := Option.bind_eq_some_iff.mp h
    obtain ⟨⟨hb, hfree⟩, h⟩ := Option.ite_none_right_eq_some.mp h
    obtain ⟨r, hr, h⟩ := Option.map_eq_some_iff.mp h
    have htakes := mknod_takesSlot hdfi hd hht hb hfree hr
    rw [← h, BucketPage.create]
    cases hc : r.created with
    | none =>
      exact ⟨.fails r.sb, fun slt f hf => (hi slt f hf).congr (htakes.bits _ (hi slt f hf).bit)⟩
    | some p =>
      obtain ⟨ino, fi⟩ := p
      obtain ⟨hslot, hvalid, hname, hbit⟩ := htakes.created ino fi hc
      have hlt := Bucket.freeSlot_lt hfree
      have hnone := hi.file_eq_none hht (Bucket.freeSlot_clear hfree)
      dsimp only
      rw [hslot, Int.toNat_natCast, hvalid]
      refine ⟨.creates r.sb hlt hnone hslot hname, hi.put (fun _ _ => htakes.bits _) ?_ _ _⟩
      intro f hf
      cases hf
      exact ⟨hlt, hslot, hvalid, hbit⟩
  | dirty slt iSize =>
    obtain ⟨f, hf, h⟩ := Option.map_eq_some_iff.mp h
    have hlive := hi slt f hf
    have hpage : dirtyPage { f.2 with iSize := iSize } f.2.valid s.page =
        dirtyPage { f.2 with iSize := iSize } 1 s.page :=
      congrArg (dirtyPage { f.2 with iSize := iSize } · s.page) hlive.valid
    rw [← h, BucketPage.dirty]
    dsimp only
    rw [hpage]
    refine ⟨.writes hf hlive.slotId rfl, hi.put (fun _ _ h => h) ?_ _ _⟩
    intro f' hf'
    cases hf'
    exact ⟨hlive.slot_lt, hlive.slotId, hlive.valid, hlive.bit⟩
  | unlink slt ioEnd =>
    obtain ⟨f, hf, h⟩ := Option.bind_eq_some_iff.mp h
    obtain ⟨hok, h⟩ := Option.ite_none_left_eq_some.mp h
    have hlive := hi slt f hf
    rw [← Option.some.inj h]
    refine ⟨.removes _ hlive.slot_lt hf hlive.slotId, hi.put ?_ (fun f' hf' => by cases hf') _ _⟩
    intro slt' hne hbit
    apply bit_callback hok _ hbit
    -- the record has the slot of the file
    intro he
    have hslot : slt' = f.2.slotId.toNat := congrArg (·.2.2) he
    rw [hlive.slotId, Int.toNat_natCast] at hslot
    exact hne hslot

/-- What the effects of admitted steps preserve holds in every state of a run on the bucket. -/
theorem reach_effects {ok : BucketPage → BucketOp → Prop} {P : BucketPage → Prop} {s : BucketPage}
    (hdfi : dfi.dirId = d) (hd : d < 2 ^ 14) (h : Reach (bucketStep dfi b) ok (.init sb) s)
    (h0 : P (.init sb)) (hstep : ∀ s op s', P s → ok s op → BucketEffect s op s' → P s') : P s := by
  have hinv : BucketInv dfi.handle.table b s ∧ P s := by
    refine h.invariant (fun s => BucketInv dfi.handle.table b s ∧ P s)
      ⟨fun slt f hf => (by cases hf), h0⟩ ?_
    intro s op s' hi hok hs
    obtain ⟨heffect, hb⟩ := bucketStep_effect hdfi hd hi.1 hs
    exact ⟨hb, hstep s op s' hi.2 hok heffect⟩
  exact hinv.2

end

/-- The counter agrees with the bitmap. -/
def HeaderRight (page : FfsInodePage) : Prop :=
  page.validSlotNum = page.slotBitmap.weight 8 ∧ 0 ≤ page.validSlotNum

instance (page : FfsInodePage) : Decidable (HeaderRight page) := inferInstanceAs (Decidable (_ ∧ _))

/-- The bitmap has the slots of the live files. No step counts a file that is made, and every
unlink counts down. -/
structure HeaderInv (s : BucketPage) : Prop where
  bit : ∀ slt, s.page.slotBitmap slt = true ↔ s.file slt ≠ none
  num : s.page.validSlotNum =
    ((s.page.slotBitmap.weight 8 : ℤ) - s.made.length).bmod (2 ^ 32)

theorem headerInv_init (sb : SbInfo) : HeaderInv (.init sb) where
  bit slt := iff_of_false Bool.false_ne_true (fun h => h rfl)
  num := by
    rw [BucketPage.init, zeroPage, Bitmap.weight_zero]
    rfl

section

variable {s : BucketPage} {slt : ℕ} {f : CStr × FfsInodeInfo} {fi : FfsInodeInfo}

theorem HeaderInv.set (hi : HeaderInv s) (hf : s.file slt = some f) :
    s.page.slotBitmap slt = true := by
  rw [hi.bit, hf]
  exact Option.some_ne_none f

theorem HeaderInv.creates (hi : HeaderInv s) (hlt : slt < 8) (hfree : s.file slt = none)
    (hslot : fi.slotId = slt) (sb : SbInfo) (name : CStr) :
    HeaderInv ⟨sb, dirtyPage fi 1 s.page, update s.file slt (some (name, fi)),
      (slt, name) :: s.made⟩ := by
  obtain ⟨hmap, hnum⟩ := dirtyPage_header fi one_ne_zero s.page
  rw [hslot, Int.toNat_natCast] at hmap
  have hclear : s.page.slotBitmap slt = false :=
    Bool.eq_false_iff.mpr fun hset => (hi.bit slt).mp hset hfree
  constructor
  case bit =>
    intro slt'
    dsimp only
    rw [hmap, Bitmap.set_iff, hi.bit, update_apply]
    split_ifs with he
    · exact iff_of_true (.inl he) (Option.some_ne_none _)
    · exact or_iff_right he
  case num =>
    dsimp only
    rw [hmap, hnum, hi.num, Bitmap.weight_set _ hlt hclear, List.length_cons]
    push_cast
    rw [add_sub_add_right_eq_sub]

theorem HeaderInv.writes (hi : HeaderInv s) (hf : s.file slt = some f) (hslot : fi.slotId = slt) :
    HeaderInv
      { s with page := dirtyPage fi 1 s.page, file := update s.file slt (some (f.1, fi)) } := by
  obtain ⟨hmap, hnum⟩ := dirtyPage_header fi one_ne_zero s.page
  rw [hslot, Int.toNat_natCast, Bitmap.set_eq_self (hi.set hf)] at hmap
  constructor
  case bit =>
    intro slt'
    dsimp only
    rw [hmap, hi.bit, update_apply]
    split_ifs with he
    · rw [he, hf]
      exact iff_of_true (Option.some_ne_none _) (Option.some_ne_none _)
    · rfl
  case num =>
    dsimp only
    rw [hmap, hnum, hi.num]

theorem HeaderInv.removes (hi : HeaderInv s) (hlt : slt < 8) (hf : s.file slt = some f)
    (hslot : f.2.slotId = slt) (sb : SbInfo) :
    HeaderInv ⟨sb, clearPage f.2 s.page, update s.file slt none, s.made⟩ := by
  have hmap : (clearPage f.2 s.page).slotBitmap = s.page.slotBitmap.clear slt := by
    rw [clearPage, hslot, Int.toNat_natCast]
  have hweight := Bitmap.weight_clear s.page.slotBitmap hlt (hi.set hf)
  constructor
  case bit =>
    intro slt'
    dsimp only
    rw [hmap, Bitmap.clear_iff, hi.bit, update_apply]
    split_ifs with he
    · exact iff_of_false (fun h => h.1 he) (fun h => h rfl)
    · exact and_iff_right he
  case num =>
    dsimp only
    rw [hmap]
    change (s.page.validSlotNum - 1).bmod (2 ^ 32) = _
    rw [hi.num, Int.bmod_sub_bmod, ← hweight]
    apply congrArg (Int.bmod · (2 ^ 32))
    push_cast
    omega

theorem HeaderInv.effect {s' : BucketPage} {op : BucketOp} (hi : HeaderInv s)
    (h : BucketEffect s op s') : HeaderInv s' := by
  cases h with
  | fails sb => exact ⟨hi.bit, hi.num⟩
  | creates sb hlt hfree hslot hname => exact hi.creates hlt hfree hslot sb _
  | writes hf hslot hname => exact hi.writes hf hslot
  | removes sb hlt hf hslot => exact hi.removes hlt hf hslot sb

/-- The weight of eight bits is small, so that the counter is right when nothing is missing. -/
theorem HeaderInv.right_iff (hi : HeaderInv s) :
    HeaderRight s.page ↔ 2 ^ 32 ∣ s.made.length := by
  have hle := Bitmap.weight_le s.page.slotBitmap 8
  rw [HeaderRight, hi.num, Int.bmod_def]
  split_ifs <;> omega

end

/-- In every state of every run the counter is right exactly when the number of files that were
created in the bucket is a multiple of `2 ^ 32`, as 0 is: `ffs_dirty_inode` sets the bit of a new
file and does not count it, while `ffs_unlink` counts down. -/
theorem headerRight_iff {dfi : FfsInodeInfo} {d b : ℕ} {sb : SbInfo} {s : BucketPage}
    (hdfi : dfi.dirId = d) (hd : d < 2 ^ 14)
    (h : Reach (bucketStep dfi b) anyStep (.init sb) s) :
    HeaderRight s.page ↔ 2 ^ 32 ∣ s.made.length := by
  have hinv : HeaderInv s :=
    reach_effects hdfi hd h (headerInv_init sb) fun _ _ _ hi _ heffect => hi.effect heffect
  exact hinv.right_iff

def rootDir : FfsInodeInfo := rootInfo ⟨0, fun _ => 0⟩

theorem headerRight_one_file : ∃ s, run (bucketStep rootDir 1123) anyStep (.init freshSb)
      [.create [102, 49] ⟨0, fun _ => 0⟩] = some s ∧
    s.made = [(0, [102, 49])] ∧ ¬ HeaderRight s.page := by
  obtain ⟨s, hrun, hmade⟩ := exists_of_check
    (r := run (bucketStep rootDir 1123) anyStep (.init freshSb)
      [.create [102, 49] ⟨0, fun _ => 0⟩])
    (p := fun s => s.made = [(0, [102, 49])]) (by decide +kernel)
  refine ⟨s, hrun, hmade, fun hright => ?_⟩
  have hdvd := (headerRight_iff rfl (by norm_num : 2 < 2 ^ 14) (.of_run hrun)).mp hright
  rw [hmade] at hdvd
  revert hdvd
  decide

/-- One file is made and unlinked, and the counter is -1. -/
theorem counter_negative : ∃ s, run (bucketStep rootDir 1123) anyStep (.init freshSb)
      [.create [102, 49] ⟨0, fun _ => 0⟩, .unlink 0 ⟨0, 0, 0, 0, 0⟩] = some s ∧
    s.page.validSlotNum = -1 ∧ s.page.slotBitmap.weight 8 = 0 ∧ ¬ HeaderRight s.page :=
  exists_of_check (by decide +kernel)

end FlatFS
