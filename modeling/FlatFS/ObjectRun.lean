import FlatFS.DiscardHandler

namespace FlatFS
open Lib

namespace World

variable {w : World}

theorem object_of_dir {c : Cell} {x : Object} (h : c.dir = some x) :
    c = .live x ∧ x.isDir = true := by
  obtain ⟨ho, hd⟩ := Option.filter_eq_some_iff.mp h
  cases c with
  | live y =>
    cases ho
    exact ⟨rfl, hd⟩
  | gone => cases ho
  | discard e => cases ho

theorem dir_withInfo {c : Cell} {x : Object} (h : c.dir = some x) (fi : FfsInodeInfo) :
    Cell.dir (.live { x with fi := fi }) = some { x with fi := fi } :=
  dir_of_object rfl (object_of_dir h).2

theorem step_create {w' : World} {p : ℕ} {name : CStr} {mem : FfsName}
    (hs : w.step (.create p name mem) = some w') :
    ∃ dir r, (w.cell p).dir = some dir ∧ ffsMknodFile w.sb dir.fi mem name = some r ∧
      w' = ({ w with sb := r.sb }.setCell p (.live { dir with fi := r.dfi })).addFile p
        r.created := by
  obtain ⟨dir, hdir, hs⟩ := Option.bind_eq_some_iff.mp hs
  obtain ⟨r, hr, rfl⟩ := Option.map_eq_some_iff.mp hs
  exact ⟨dir, r, hdir, hr, rfl⟩

/-- A completion takes a discard that is in flight, whose callback does not fault. -/
theorem step_complete {w' : World} {f : ℕ} (hs : w.step (.complete f) = some w') :
    ∃ e, w.cell f = .discard e ∧ ¬ callbackFaults w.sb e ∧
      w' = { w with sb := callbackForDiscard w.sb e }.setCell f .gone := by
  cases hcell : w.cell f with
  | gone => simp [step, hcell] at hs
  | live x => simp [step, hcell] at hs
  | discard e =>
    simp only [step, hcell] at hs
    split_ifs at hs with hfault
    exact ⟨e, rfl, hfault, (Option.some.inj hs).symm⟩

theorem step_rmdir_eq {w' : World} {child : ℕ} (hs : w.step (.rmdir child) = some w') :
    ∃ x p dir, (w.cell child).dir = some x ∧ x.parent = some p ∧ (w.cell p).dir = some dir ∧
      w' = if x.fi.iSize = 0 then
        { w with sb := removeDir w.sb dir.ino x.ino x.fi.bigDirId }.setCell child .gone
      else w := by
  obtain ⟨x, hx, hs⟩ := Option.bind_eq_some_iff.mp hs
  obtain ⟨p, hp, hs⟩ := Option.bind_eq_some_iff.mp hs
  obtain ⟨dir, hdir, rfl⟩ := Option.map_eq_some_iff.mp hs
  exact ⟨x, p, dir, hx, hp, hdir, rfl⟩

theorem step_rmdir {w' : World} {child : ℕ} (hs : w.step (.rmdir child) = some w') :
    ∃ x p dir, (w.cell child).dir = some x ∧ x.parent = some p ∧ (w.cell p).dir = some dir ∧
      (w' = { w with sb := removeDir w.sb dir.ino x.ino x.fi.bigDirId }.setCell child .gone ∨
        w' = w) := by
  obtain ⟨x, p, dir, hx, hp, hdir, rfl⟩ := step_rmdir_eq hs
  exact ⟨x, p, dir, hx, hp, hdir, ite_eq_or_eq ..⟩

theorem dir_live {x y : Object} (h : Cell.dir (.live x) = some y) : y = x := by
  cases (object_of_dir h).1
  rfl

theorem handle_live_dir {x : Object} (h : x.isDir = true) : Cell.handle (.live x) = none :=
  if_pos h

theorem Clear.object {p : Place} (h : w.Clear p) (hi : Inv w) (j : ℕ) (y : Object)
    (hy : (w.cell j).object = some y) : ¬ p.Clash y.place := by
  rcases lt_or_ge j w.count with hj | hj
  · exact h j hj y hy
  · rw [hi.fresh j hj] at hy
    cases hy

theorem Inv.add (hi : Inv w) {x : Object} (hx : Fits w w.count (.live x)) : Inv (w.add x) := by
  have hcount : Inv { w with count := w.count + 1 } := by
    refine ⟨fun i h => hi.fresh i (Nat.le_of_succ_le h), hi.ids, hi.dir, hi.dir_inj, hi.pos_inj,
      hi.held, hi.owner, hi.slot_inj, hi.number, hi.apart⟩
  exact hcount.setCell (Nat.lt_succ_self w.count) ⟨hx.dir, hx.dir_ne, hx.pos_ne, hx.held,
    hx.owner, hx.slot_ne, hx.number, hx.apart, hx.orphans⟩

theorem Inv.addDir (hi : Inv w) {x : Object} (hd : x.isDir = true) (hsmall : x.fi.isBigDir = 0)
    (hok : DirOk w.sb x)
    (hne : ∀ j y, (w.cell j).dir = some y → x.fi.dirId ≠ y.fi.dirId)
    (hnum : x.ino.toNat = x.place.number) (hclear : w.Clear x.place) : Inv (w.add x) := by
  have hhandle : ∀ e, Cell.handle (.live x) ≠ some e := by simp [handle_live_dir hd]
  have hgone := hi.fresh w.count le_rfl
  apply hi.add
  constructor
  case dir =>
    intro y hy
    exact dir_live hy ▸ hok
  case dir_ne =>
    intro y hy j _ z hz
    exact dir_live hy ▸ hne j z hz
  case pos_ne =>
    intro y hy hbig
    exact absurd (dir_live hy ▸ hsmall) hbig
  case held => exact fun e he => absurd he (hhandle e)
  case owner => exact fun e he => absurd he (hhandle e)
  case slot_ne => exact fun e he => absurd he (hhandle e)
  case number =>
    rintro y ⟨⟩
    exact hnum
  case apart =>
    rintro y ⟨⟩ j _ z hz
    exact hclear.object hi j z hz
  case orphans =>
    intro y hy
    rw [hgone] at hy
    cases hy

theorem Inv.addFile (hi : Inv w) {x : Object} (hf : x.isDir = false)
    (hheld : Held w.sb x.fi.handle)
    (howner : x.fi.isBigDir ≠ 0 → ∃ j y, (w.cell j).dir = some y ∧ Owns y x.fi.handle)
    (hslot : ∀ j e, (w.cell j).handle = some e → x.fi.handle.slot ≠ e.slot)
    (hnum : x.ino.toNat = x.place.number) (hclear : w.Clear x.place) : Inv (w.add x) := by
  have hdir : ∀ y, Cell.dir (.live x) ≠ some y := by simp [Cell.dir, Cell.object, hf]
  have hself : Cell.handle (.live x) = some x.fi.handle := by simp [Cell.handle, hf]
  have hgone := hi.fresh w.count le_rfl
  apply hi.add
  constructor
  case dir => exact fun y hy => absurd hy (hdir y)
  case dir_ne => exact fun y hy => absurd hy (hdir y)
  case pos_ne => exact fun y hy => absurd hy (hdir y)
  case held =>
    intro e he
    cases hself.symm.trans he
    exact hheld
  case owner =>
    intro e he hbig
    cases hself.symm.trans he
    obtain ⟨j, y, hy, hown⟩ := howner hbig
    refine ⟨j, ?_, y, hy, hown⟩
    rintro rfl
    rw [hgone] at hy
    cases hy
  case slot_ne =>
    intro e he j _ e' he'
    cases hself.symm.trans he
    exact hslot j e' he'
  case number =>
    rintro y ⟨⟩
    exact hnum
  case apart =>
    rintro y ⟨⟩ j _ z hz
    exact hclear.object hi j z hz
  case orphans =>
    intro y hy
    rw [hgone] at hy
    cases hy

theorem Inv.takeSlot (hi : Inv w) {t : TableId} {ht : HashTable} (htab : w.sb.table t = some ht)
    (b slt : ℕ) : Inv { w with sb := w.sb.setTable t (some (ht.modify b (·.take slt))) } := by
  refine hi.withSb _ ?_ ?_ ?_
  · simpa using hi.ids
  · intro i y hy
    have hok := hi.dir i y hy
    exact hok.congr (by simpa using hok.used) fun hbig => by simpa using (hok.big hbig).2
  · intro i e he
    have hheld := hi.held i e he
    exact hheld.congr (by simpa using hheld.used)
      ((SbInfo.bit_take htab b slt _).mpr (.inr hheld.bit))

theorem Inv.fillSlot (hi : Inv w) {t : TableId} {ht : HashTable} {b slt : ℕ}
    (htab : w.sb.table t = some ht) (hfree : ht.bit b slt = false) {x : Object}
    (hf : x.isDir = false) (hslot : x.fi.handle.slot = (t, b, slt)) (hd : 0 ≤ x.fi.dirId)
    (hvalid : x.place.Valid) (hused : w.sb.dtree.dirIdBitmap x.fi.dirId.toNat = true)
    (howner : x.fi.isBigDir ≠ 0 → ∃ j y, (w.cell j).dir = some y ∧ Owns y x.fi.handle)
    (hnum : x.ino.toNat = x.place.number) (hclear : w.Clear x.place) :
    Inv ({ w with sb := w.sb.setTable t (some (ht.modify b (·.take slt))) }.add x) := by
  have hplace : x.place = x.fi.handle.place := by simp [Object.place, hf]
  refine (hi.takeSlot htab b slt).addFile hf ⟨hd, hplace ▸ hvalid, ?_, ?_⟩ howner ?_ hnum hclear
  · rw [SbInfo.setTable_dtree]
    exact hused
  · exact (SbInfo.bit_take htab b slt _).mpr (.inl hslot)
  · intro j e he hsame
    -- the slot of another file or discard is set, this one was clear
    have hset := (hi.held j e he).bit
    rw [← hsame, hslot, SbInfo.bit, htab] at hset
    simp [hfree] at hset

theorem dirIdToInode_toNat {d : ℕ} (h : d < 2 ^ 14) :
    (dirIdToInode (BitVec.ofNat 64 d)).toNat = d * 2 ^ 15 + 1 := by
  have h15 : minFileBucketBits + fileSlotBits = 15 := rfl
  rw [dirIdToInode, ofNat_shl, h15, BitVec.toNat_add, BitVec.toNat_ofNat, BitVec.toNat_ofNat]
  omega

theorem Inv.mkdir (hi : Inv w) (dfi : FfsInodeInfo) (mem : FfsName) (name : CStr) (dle : ℕ)
    (parent : ℕ) (h0 : (getUnusedDirId w.sb.dtree.dirIdBitmap).1 ≠ 0)
    (hclear : w.Clear (.dir (getUnusedDirId w.sb.dtree.dirIdBitmap).1)) :
    let r := ffsMknodDir w.sb dfi mem name dle
    Inv ({ w with sb := r.1 }.add ⟨r.2.1, r.2.2, true, some parent⟩) := by
  intro r
  obtain ⟨hlt, hbit, -⟩ := DirTree.getUnusedDirId_spec h0
  generalize hd : (getUnusedDirId w.sb.dtree.dirIdBitmap).1 = d at h0 hclear hlt hbit
  obtain ⟨hbm, hids, hr⟩ := ffsMknodDir_frame dfi mem name dle hd h0
  -- no live object and no discard in flight uses the id
  have hne : ∀ i, w.sb.dtree.dirIdBitmap i = true → i ≠ d := by
    rintro i hset rfl
    rw [hbit] at hset
    cases hset
  have hset : ∀ i, w.sb.dtree.dirIdBitmap i = true → r.1.dtree.dirIdBitmap i = true := by
    intro i h
    rw [hbm, Bitmap.set_iff]
    exact .inr h
  have htab : ∀ t, t ≠ .small d → r.1.table t = w.sb.table t := by
    intro t ht
    cases t with
    | small i =>
      have hid := (DirTree.fillOneDirEntry_fst w.sb.dtree name).trans hd
      have hi' : i ≠ d := fun he => ht (he ▸ rfl)
      exact Function.update_of_ne (hid.symm ▸ hi') ..
    | big pos => rfl
  have hsb : Inv { w with sb := r.1 } := by
    refine hi.withSb _ (fun i => (hids i).trans (hi.ids i)) ?_ ?_
    · intro i y hy
      have hok := hi.dir i y hy
      exact hok.congr (hset _ hok.used) fun hbig => (hok.big hbig).2
    · intro i e he
      have hheld := hi.held i e he
      have htable : e.table ≠ .small d := by
        unfold FfsIoEnd.table
        split_ifs
        · simpa using hne _ hheld.used
        · simp
      exact hheld.congr (hset _ hheld.used) ((SbInfo.bit_congr (htab _ htable)).trans hheld.bit)
  rw [hr]
  refine hsb.addDir rfl rfl ⟨?_, ?_, ?_, fun _ => rfl, fun h => absurd rfl h⟩ ?_ ?_ hclear
  · exact Int.natCast_nonneg d
  · exact hlt
  · change r.1.dtree.dirIdBitmap d = true
    rw [hbm, Bitmap.set_self]
  · intro j y hy he
    have hok := hi.dir j y hy
    refine hne _ hok.used ?_
    rw [← he]
    rfl
  · exact dirIdToInode_toNat hlt

theorem Inv.createSmall (hi : Inv w) {p : ℕ} {dir : Object} (hdir : (w.cell p).dir = some dir)
    (hsmall : dir.fi.isBigDir = 0) {ht : HashTable}
    (hht : w.sb.hashtbl dir.fi.dirId.toNat = some ht) {name : CStr}
    (hf : ¬ (ht.buckets (smallBucket name)).Full)
    (hclear : w.Clear (.small dir.fi.dirId.toNat (smallBucket name)
      (ht.buckets (smallBucket name)).freeSlot)) (mem : FfsName) :
    ∃ sb created, ffsMknodFile w.sb dir.fi mem name = some ⟨sb, dir.fi, created⟩ ∧
      Inv ({ w with sb := sb }.addFile p created) := by
  have hok := hi.dir p dir hdir
  obtain ⟨d, hd⟩ := Int.eq_ofNat_of_zero_le hok.dirId
  have hdn : dir.fi.dirId.toNat = d := by rw [hd, Int.toNat_natCast]
  have hlt := hok.lt
  have hused := hok.used
  rw [hdn] at hht hclear hlt hused
  obtain ⟨ino, hmk, hino⟩ := mknodFile_free mem hsmall hd hht hlt hf
  have hb := smallBucket_lt name
  have hs := Bucket.freeSlot_lt hf
  refine ⟨_, _, hmk, ?_⟩
  obtain ⟨hdecB, hdecS⟩ := smallIno_decodes hb hs hino
  have hbkt : (smallFileInfo d ino mem name).handle.bucket = smallBucket name := by
    change (inoToBucket ino).toNat % 2 ^ 18 = _
    rw [hdecB, Int.toNat_natCast]
    omega
  have hslt : (smallFileInfo d ino mem name).handle.slotId.toNat =
      (ht.buckets (smallBucket name)).freeSlot := by
    change (inoToSlot ino).toNat = _
    rw [hdecS, Int.toNat_natCast]
  have hplace : Object.place ⟨ino, smallFileInfo d ino mem name, false, some p⟩ =
      .small d (smallBucket name) (ht.buckets (smallBucket name)).freeSlot := by
    change (smallFileInfo d ino mem name).handle.place = _
    rw [FfsIoEnd.place, hbkt, hslt]
    rfl
  refine hi.fillSlot (t := .small d) hht (Bucket.freeSlot_clear hf) rfl ?_ ?_ ?_ ?_
    (fun h => absurd rfl h) ?_ ?_
  · rw [FfsIoEnd.slot, hbkt, hslt]
    rfl
  · exact Int.natCast_nonneg d
  · exact hplace ▸ ⟨hlt, hb, hs⟩
  · exact hused
  · exact hino.trans (congrArg Place.number hplace).symm
  · exact hplace ▸ hclear

/-- A create in a big directory. The bucket number that it stores is too wide, its low bits are
the bucket. -/
theorem Inv.createBig (hi : Inv w) {p : ℕ} {dir : Object} (hdir : (w.cell p).dir = some dir)
    (hbig : dir.fi.isBigDir ≠ 0) {ht : HashTable}
    (hht : w.sb.bigDirHashtbl dir.fi.bigDirId.toNat = some ht) {name : CStr}
    (hf : ¬ (ht.buckets (bigBucket name)).Full)
    (hclear : w.Clear (.big dir.fi.dirId.toNat (bigBucket name)
      (ht.buckets (bigBucket name)).freeSlot)) (mem : FfsName) :
    ∃ sb created, mknodBigFile w.sb dir.fi mem name = some ⟨sb, dir.fi, created⟩ ∧
      Inv ({ w with sb := sb }.addFile p created) := by
  have hok := hi.dir p dir hdir
  obtain ⟨d, hd⟩ := Int.eq_ofNat_of_zero_le hok.dirId
  have hdn : dir.fi.dirId.toNat = d := by rw [hd, Int.toNat_natCast]
  have hlt := hok.lt
  have hused := hok.used
  rw [hdn] at hclear hlt hused
  obtain ⟨ino, hmk, hino⟩ := mknodBigFile_free mem rfl hd hht hf
  have hb := bigBucket_lt name
  have hs := Bucket.freeSlot_lt hf
  refine ⟨_, _, hmk, ?_⟩
  by_cases hminus : ino = minusOne
  · -- the create fails and leaves its slot set
    rw [if_pos hminus]
    exact hi.takeSlot (t := .big dir.fi.bigDirId.toNat) hht _ _
  rw [if_neg hminus]
  obtain ⟨hdecB, hdecS⟩ := bigIno_decodes (by omega) (hino.trans (Nat.add_assoc _ _ _))
  have hbkt : (bigFileInfo d dir.fi.bigDirId ino mem name).handle.bucket = bigBucket name := by
    change (bigInoToBucket ino).toNat % 2 ^ 18 = _
    rw [hdecB, Int.toNat_natCast]
    omega
  have hslt : (bigFileInfo d dir.fi.bigDirId ino mem name).handle.slotId.toNat =
      (ht.buckets (bigBucket name)).freeSlot := by
    change (inoToSlot ino).toNat = _
    rw [hdecS, Int.toNat_natCast]
    omega
  have hplace : Object.place ⟨ino, bigFileInfo d dir.fi.bigDirId ino mem name, false, some p⟩ =
      .big d (bigBucket name) (ht.buckets (bigBucket name)).freeSlot := by
    change (bigFileInfo d dir.fi.bigDirId ino mem name).handle.place = _
    rw [FfsIoEnd.place, hbkt, hslt]
    rfl
  refine hi.fillSlot (t := .big dir.fi.bigDirId.toNat) hht (Bucket.freeSlot_clear hf) rfl ?_ ?_ ?_
    ?_ (fun _ => ⟨p, dir, hdir, hbig, hd, rfl⟩) ?_ ?_
  · rw [FfsIoEnd.slot, hbkt, hslt]
    rfl
  · exact Int.natCast_nonneg d
  · exact hplace ▸ ⟨hlt, hb, hs⟩
  · exact hused
  · exact hino.trans (congrArg Place.number hplace).symm
  · exact hplace ▸ hclear

def promoted (x : Object) (pos : ℕ) : Object :=
  { x with fi := { x.fi with isBigDir := 1, bigDirId := pos } }

theorem promoted_place {x : Object} (h : x.isDir = true) (pos : ℕ) :
    (promoted x pos).place = x.place := by
  simp [Object.place, promoted, h]

theorem Inv.promote (hi : Inv w) {p : ℕ} {dir : Object} (hdir : (w.cell p).dir = some dir)
    (hsmall : dir.fi.isBigDir = 0) {pos : ℕ} (hpos : w.sb.bigDirBitmap pos = false) :
    Inv ({ w with sb := promotedSb w.sb pos initBigFileHt }.setCell p
      (.live (promoted dir pos))) := by
  obtain ⟨hcell, hisDir⟩ := object_of_dir hdir
  have hok := hi.dir p dir hdir
  have hne : ∀ i, w.sb.bigDirBitmap i = true → i ≠ pos := by
    rintro i hset rfl
    rw [hpos] at hset
    cases hset
  have hset : ∀ i, w.sb.bigDirBitmap i = true →
      (promotedSb w.sb pos initBigFileHt).bigDirBitmap i = true := by
    intro i h
    exact (Bitmap.set_iff ..).mpr (.inr h)
  have hsb : Inv { w with sb := promotedSb w.sb pos initBigFileHt } := by
    refine hi.withSb _ hi.ids ?_ ?_
    · intro i y hy
      have hoky := hi.dir i y hy
      exact hoky.congr hoky.used fun hbig => hset _ (hoky.big hbig).2
    · intro i e he
      have hheld := hi.held i e he
      have htab : (promotedSb w.sb pos initBigFileHt).table e.table = w.sb.table e.table := by
        by_cases hb : e.isBigDir = 0
        · rw [FfsIoEnd.table, if_pos hb]
          rfl
        · -- the owner of the table has its position in use
          obtain ⟨j, y, hy, hbig, -, hp⟩ := hi.owner i e he hb
          have := hne _ ((hi.dir j y hy).big hbig).2
          rw [FfsIoEnd.table, if_neg hb, ← hp]
          exact Function.update_of_ne this ..
      exact hheld.congr hheld.used ((SbInfo.bit_congr htab).trans hheld.bit)
  have hlt : p < w.count := by
    by_contra hge
    rw [hi.fresh p (not_lt.mp hge)] at hcell
    cases hcell
  have hhandle : ∀ e, Cell.handle (.live (promoted dir pos)) ≠ some e := by
    simp [handle_live_dir (x := promoted dir pos) hisDir]
  apply hsb.setCell hlt
  constructor
  case dir =>
    intro y hy
    rw [dir_live hy]
    refine ⟨hok.dirId, hok.lt, hok.used, fun h => absurd h (by simp [promoted]), fun _ => ⟨?_, ?_⟩⟩
    · exact Int.natCast_nonneg pos
    · exact (Bitmap.set_iff ..).mpr (.inl rfl)
  case dir_ne =>
    intro y hy j hj z hz he
    rw [dir_live hy] at he
    exact hj (hi.dir_inj p j dir z hdir hz he).symm
  case pos_ne =>
    intro y hy _ j _ z hz hbz he
    rw [dir_live hy] at he
    refine hne _ ((hi.dir j z hz).big hbz).2 ?_
    rw [← he]
    rfl
  case held => exact fun e he => absurd he (hhandle e)
  case owner => exact fun e he => absurd he (hhandle e)
  case slot_ne => exact fun e he => absurd he (hhandle e)
  case number =>
    rintro y ⟨⟩
    rw [promoted_place hisDir]
    exact hi.number p dir (hcell ▸ rfl)
  case apart =>
    rintro y ⟨⟩ j _ z hz
    rw [promoted_place hisDir]
    exact hi.apart p j dir z (hcell ▸ rfl) hz
  case orphans =>
    intro y hy j _ e _ hown
    cases hdir.symm.trans hy
    exact hown.1 hsmall

theorem Clear.promote {q : Place} (h : w.Clear q) {p pos : ℕ} {dir : Object} {sb : SbInfo}
    (hcell : w.cell p = .live dir) (hd : dir.isDir = true) :
    ({ w with sb := sb }.setCell p (.live (promoted dir pos))).Clear q := by
  intro i hi y hy
  by_cases hip : i = p
  · subst hip
    rw [setCell_self] at hy
    cases hy
    rw [promoted_place hd]
    exact h i hi dir (hcell ▸ rfl)
  · rw [setCell_of_ne _ hip] at hy
    exact h i hi y hy

theorem setCell_live (w : World) {p : ℕ} {x : Object} (h : w.cell p = .live x) (sb : SbInfo) :
    { w with sb := sb }.setCell p (.live x) = { w with sb := sb } := by
  rw [World.setCell, ← h, Function.update_eq_self]

/-- A create in any directory. -/
theorem Inv.create (hi : Inv w) {p : ℕ} {dir : Object} (hdir : (w.cell p).dir = some dir)
    {name : CStr} {mem : FfsName} {r : MknodResult} (hok : w.NoClash (.create p name mem))
    (hr : ffsMknodFile w.sb dir.fi mem name = some r) :
    Inv (({ w with sb := r.sb }.setCell p (.live { dir with fi := r.dfi })).addFile p
      r.created) := by
  obtain ⟨hfree, -, hplace⟩ := hok dir hdir
  obtain ⟨hcell, hisDir⟩ := object_of_dir hdir
  obtain ⟨d, hd⟩ := Int.eq_ofNat_of_zero_le (hi.dir p dir hdir).dirId
  have hdn : dir.fi.dirId.toNat = d := by rw [hd, Int.toNat_natCast]
  by_cases hsmall : dir.fi.isBigDir = 0
  · have hr' := hr
    rw [ffsMknodFile, mknodFileBy, if_pos hsmall] at hr'
    obtain ⟨ht, hht, -⟩ := Option.bind_eq_some_iff.mp hr'
    simp only [createPlace, if_pos hsmall, hht, Option.bind_some] at hplace
    by_cases hf : (ht.buckets (smallBucket name)).Full
    · rw [hdn] at hht
      rw [mknodFile_full mem hsmall hd hht hf] at hr
      by_cases hcan : FindsPosition w.sb
      · simp only [hf, not_true_eq_false, if_false, hcan, if_true, Option.mem_some_iff,
          forall_eq'] at hplace
        obtain ⟨pos, hclear, hres⟩ := resizeDir_can hcan
        -- the promoted directory creates the file as any big one does
        have hprom := hi.promote hdir hsmall hclear
        have hself : Cell.dir (({ w with sb := promotedSb w.sb pos initBigFileHt }.setCell p
            (.live (promoted dir pos))).cell p) = some (promoted dir pos) := by
          rw [setCell_self]
          exact dir_of_object rfl hisDir
        obtain ⟨hfree', hslot⟩ := initBigFileHt_free (bigBucket name)
        rw [← hslot] at hplace
        obtain ⟨sb, created, hmk, hinv⟩ := hprom.createBig hself (by simp [promoted])
          (promotedSb_table w.sb pos) hfree' (hplace.promote hcell hisDir) mem
        rw [hres, Option.bind_some] at hr
        simp only at hr
        rw [if_neg (by omega)] at hr
        cases hmk.symm.trans hr
        exact hinv
      · -- nothing is created
        rcases resizeDir_cannot hcan with hres | hres
        · simp [hres] at hr
        · simp only [hres, Option.bind_some, if_true, Option.some.injEq] at hr
          subst hr
          change Inv ({ w with sb := w.sb }.setCell p (.live dir))
          rw [setCell_live w hcell]
          exact hi
    · simp only [hf, not_false_eq_true, if_true, Option.mem_some_iff, forall_eq'] at hplace
      obtain ⟨sb, created, hmk, hinv⟩ := hi.createSmall hdir hsmall hht hf hplace mem
      cases hmk.symm.trans hr
      rw [setCell_live w hcell]
      exact hinv
  · rw [ffsMknodFile, mknodFileBy, if_neg hsmall] at hr
    have hr' := hr
    rw [mknodBigFile] at hr'
    obtain ⟨ht, hht, -⟩ := Option.map_eq_some_iff.mp hr'
    simp only [createPlace, if_neg hsmall, hht, Option.map_some, Option.mem_some_iff,
      forall_eq'] at hplace
    obtain ⟨sb, created, hmk, hinv⟩ := hi.createBig hdir hsmall hht (hfree hsmall ht hht) hplace mem
    cases hmk.symm.trans hr
    rw [setCell_live w hcell]
    exact hinv

theorem Inv.lt_count (hi : Inv w) {i : ℕ} (h : w.cell i ≠ .gone) : i < w.count := by
  by_contra hge
  exact h (hi.fresh i (not_lt.mp hge))

theorem Inv.drop (hi : Inv w) {i : ℕ} (hlt : i < w.count)
    (horphans : ∀ x, (w.cell i).dir = some x → ∀ j ≠ i, ∀ e, (w.cell j).handle = some e →
      ¬ Owns x e) : Inv (w.setCell i .gone) := by
  refine hi.setCell hlt ⟨?_, ?_, ?_, ?_, ?_, ?_, ?_, ?_, horphans⟩ <;> rintro _ ⟨⟩

theorem object_of_file {c : Cell} {x : Object} (h : c.file = some x) :
    c = .live x ∧ x.isDir = false := by
  obtain ⟨ho, hd⟩ := Option.filter_eq_some_iff.mp h
  cases c with
  | live y =>
    cases ho
    exact ⟨rfl, by simpa using hd⟩
  | gone => cases ho
  | discard e => cases ho

theorem dir_ne_of_file {c : Cell} {x : Object} (h : c.file = some x) (y : Object) :
    c.dir ≠ some y := by
  intro hy
  obtain ⟨hcell, hf⟩ := object_of_file h
  obtain ⟨hcell', hd⟩ := object_of_dir hy
  cases hcell.symm.trans hcell'
  cases hf.symm.trans hd

theorem initHandler_slot {ioEnd : FfsIoEnd} {fi : FfsInodeInfo}
    (h : ioEnd.isBigDir = 0 ↔ fi.isBigDir = 0) :
    (initHandlerForDiscard ioEnd fi).slot = fi.handle.slot ∧
      (initHandlerForDiscard ioEnd fi).place = fi.handle.place := by
  by_cases hb : fi.isBigDir = 0
  · simp [FfsIoEnd.slot, FfsIoEnd.place, FfsIoEnd.table, FfsIoEnd.bucket, initHandlerForDiscard,
      FfsInodeInfo.handle, hb, h.mpr hb]
  · simp [FfsIoEnd.slot, FfsIoEnd.place, FfsIoEnd.table, FfsIoEnd.bucket, initHandlerForDiscard,
      FfsInodeInfo.handle, hb, h.not.mpr hb]

theorem Inv.unlink (hi : Inv w) {f : ℕ} {x : Object} (hx : (w.cell f).file = some x)
    {ioEnd : FfsIoEnd} (h : ioEnd.isBigDir = 0 ↔ x.fi.isBigDir = 0) :
    Inv (w.setCell f (.discard (initHandlerForDiscard ioEnd x.fi))) := by
  obtain ⟨hcell, hf⟩ := object_of_file hx
  obtain ⟨hslot, hplace⟩ := initHandler_slot h
  have hhandle : (w.cell f).handle = some x.fi.handle := handle_of_object (hcell ▸ rfl) hf
  have hheld := hi.held f _ hhandle
  apply hi.setCell (hi.lt_count (by simp [hcell]))
  constructor
  case dir => rintro _ ⟨⟩
  case dir_ne => rintro _ ⟨⟩
  case pos_ne => rintro _ ⟨⟩
  case held =>
    rintro e ⟨⟩
    exact ⟨hheld.dirId, hplace ▸ hheld.valid, hheld.used, hslot ▸ hheld.bit⟩
  case owner =>
    rintro e ⟨⟩ hbig
    obtain ⟨j, y, hy, hown⟩ := hi.owner f _ hhandle (h.not.mp hbig)
    refine ⟨j, ?_, y, hy, hown⟩
    rintro rfl
    exact dir_ne_of_file hx y hy
  case slot_ne =>
    rintro e ⟨⟩ j hj e' he' hs
    exact hj (hi.slot_inj f j _ e' hhandle he' (hslot ▸ hs)).symm
  case number => rintro _ ⟨⟩
  case apart => rintro _ ⟨⟩
  case orphans => exact fun y hy => absurd hy (dir_ne_of_file hx y)

theorem of_setCell_gone {β : Type} {f : Cell → Option β} (hf : f .gone = none) {i c : ℕ} {y : β}
    (h : f ((w.setCell c .gone).cell i) = some y) : i ≠ c ∧ f (w.cell i) = some y := by
  by_cases hic : i = c
  · subst hic
    rw [setCell_self, hf] at h
    cases h
  · rw [setCell_of_ne _ hic] at h
    exact ⟨hic, h⟩

theorem Inv.complete (hi : Inv w) {f : ℕ} {e : FfsIoEnd} (hcell : w.cell f = .discard e)
    (hf : ¬ callbackFaults w.sb e) :
    Inv ({ w with sb := callbackForDiscard w.sb e }.setCell f .gone) := by
  -- the record goes first, then its slot may be cleared
  have hdrop : Inv (w.setCell f .gone) := by
    refine hi.drop (hi.lt_count (by simp [hcell])) ?_
    intro x hx
    rw [hcell] at hx
    cases hx
  have hkeep : (callbackForDiscard w.sb e).dtree = w.sb.dtree ∧
      (callbackForDiscard w.sb e).bigDirBitmap = w.sb.bigDirBitmap := by
    unfold callbackForDiscard
    split_ifs <;> exact ⟨rfl, rfl⟩
  refine hdrop.withSb (callbackForDiscard w.sb e) ?_ ?_ ?_
  · rw [hkeep.1]
    exact hi.ids
  · intro i x hx
    have hok := hdrop.dir i x hx
    exact hok.congr (hkeep.1 ▸ hok.used) fun hbig => hkeep.2 ▸ (hok.big hbig).2
  · intro i e' he'
    have hheld := hdrop.held i e' he'
    refine hheld.congr (hkeep.1 ▸ hheld.used) (bit_callback hf ?_ hheld.bit)
    intro hs
    obtain ⟨hif, he'⟩ := of_setCell_gone rfl he'
    exact hif (hi.slot_inj i f e' e he' (hcell ▸ rfl) hs)

theorem Inv.rmdir (hi : Inv w) {c : ℕ} {x : Object} (hx : (w.cell c).dir = some x)
    (hempty : ∀ i < w.count, ∀ e ∈ (w.cell i).handle, e.dirId ≠ x.fi.dirId)
    (parentIno : BitVec 64) :
    Inv ({ w with sb := removeDir w.sb parentIno x.ino x.fi.bigDirId }.setCell c .gone) := by
  obtain ⟨hcell, hisDir⟩ := object_of_dir hx
  have hok := hi.dir c x hx
  have hne : ∀ i e, (w.cell i).handle = some e → e.dirId ≠ x.fi.dirId := by
    intro i e he
    refine hempty i (hi.lt_count ?_) e he
    rintro hgone
    rw [hgone] at he
    cases he
  have hdrop : Inv (w.setCell c .gone) := by
    refine hi.drop (hi.lt_count (by simp [hcell])) ?_
    intro y hy j _ e he hown
    cases hx.symm.trans hy
    exact hne j e he hown.2.1.symm
  have hid : (inodeToDirId x.ino).toNat = x.fi.dirId.toNat := by
    have hnum := hi.number c x (hcell ▸ rfl)
    rw [Object.place, if_pos hisDir, Place.number, ← dirIdToInode_toNat hok.lt] at hnum
    rw [BitVec.eq_of_toNat_eq hnum]
    exact inodeToDirId_dirIdToInode (hok.lt.trans (by norm_num))
  -- no other directory owns the big table that is freed
  have hpos : ∀ i y, i ≠ c → (w.cell i).dir = some y → y.fi.isBigDir ≠ 0 →
      ((y.fi.bigDirId.toNat : ℕ) : ℤ) ≠ x.fi.bigDirId := by
    intro i y hic hy hb
    have hy0 := ((hi.dir i y hy).big hb).1
    rw [Int.toNat_of_nonneg hy0]
    by_cases hbx : x.fi.isBigDir = 0
    · rw [hok.small hbx]
      omega
    · exact fun he => hic (hi.pos_inj i c y x hy hx hb hbx he)
  obtain ⟨hids, hdirs, hbig⟩ := removeDir_frame hi.ids parentIno hid x.fi.bigDirId
  refine hdrop.withSb (removeDir w.sb parentIno x.ino x.fi.bigDirId) hids ?_ ?_
  · intro i y hy
    obtain ⟨hic, hy'⟩ := of_setCell_gone rfl hy
    have hoky := hi.dir i y hy'
    have hd : y.fi.dirId.toNat ≠ x.fi.dirId.toNat := by
      have hdy : y.fi.dirId ≠ x.fi.dirId := fun he => hic (hi.dir_inj i c y x hy' hx he)
      have hy0 := hoky.dirId
      have hx0 := hok.dirId
      omega
    refine hoky.congr ((hdirs _ hd).1.trans hoky.used) fun hb => ?_
    exact (hbig _ (hpos i y hic hy' hb)).1.trans (hoky.big hb).2
  · intro i e he
    have hheld := hdrop.held i e he
    have hd : e.dirId.toNat ≠ x.fi.dirId.toNat := by
      have hde := hne i e (of_setCell_gone rfl he).2
      have he0 := hheld.dirId
      have hx0 := hok.dirId
      omega
    have htab : (removeDir w.sb parentIno x.ino x.fi.bigDirId).table e.table =
        w.sb.table e.table := by
      by_cases hb : e.isBigDir = 0
      · rw [FfsIoEnd.table, if_pos hb]
        exact (hdirs _ hd).2
      · obtain ⟨j, y, hy, hby, -, hp⟩ := hdrop.owner i e he hb
        obtain ⟨hjc, hy'⟩ := of_setCell_gone rfl hy
        rw [FfsIoEnd.table, if_neg hb, ← hp]
        exact (hbig _ (hpos j y hjc hy' hby)).2
    exact hheld.congr ((hdirs _ hd).1.trans hheld.used) ((SbInfo.bit_congr htab).trans hheld.bit)

theorem Inv.step {w' : World} (hi : Inv w) {op : FsOp} (hok : w.NoClash op)
    (hstep : w.step op = some w') : Inv w' := by
  cases op with
  | mkdir parent name mem dle =>
    obtain ⟨dir, hdir, he⟩ := Option.map_eq_some_iff.mp hstep
    subst he
    exact hi.mkdir dir.fi mem name dle parent hok.1 hok.2
  | create parent name mem =>
    obtain ⟨dir, r, hdir, hmk, rfl⟩ := step_create hstep
    exact hi.create hdir hok hmk
  | unlink f ioEnd submitted =>
    obtain ⟨x, hx, he⟩ := Option.map_eq_some_iff.mp hstep
    subst he
    cases submitted with
    | true => exact hi.unlink hx (hok rfl x hx)
    | false =>
      refine hi.drop (hi.lt_count ?_) fun y hy => absurd hy (dir_ne_of_file hx y)
      rw [(object_of_file hx).1]
      simp
  | complete f =>
    obtain ⟨e, hcell, hf, rfl⟩ := step_complete hstep
    exact hi.complete hcell hf
  | rmdir child =>
    obtain ⟨x, p, dir, hx, -, -, rfl | rfl⟩ := step_rmdir hstep
    · exact hi.rmdir hx (hok x hx) dir.ino
    · exact hi

theorem inv_mounted (mem : ℕ → ℕ → UInt8) (heap : ℕ → DirListEntry) (rootMem : FfsName) :
    Inv (mounted mem heap rootMem) := by
  have hempty : Inv ⟨fillSuper mem heap, 0, fun _ => .gone⟩ := by
    constructor
    case ids =>
      intro d
      change ((initRootEntry (initDirTree mem heap) 0).de d).dirId = d
      rw [initRootEntry, DirTree.modifyDe_de]
      split_ifs with hd
      · exact hd.symm
      · rfl
    case fresh => exact fun _ _ => rfl
    case dir => rintro _ _ ⟨⟩
    case dir_inj => rintro _ _ _ _ ⟨⟩
    case pos_inj => rintro _ _ _ _ ⟨⟩
    case held => rintro _ _ ⟨⟩
    case owner => rintro _ _ ⟨⟩
    case slot_inj => rintro _ _ _ _ ⟨⟩
    case number => rintro _ _ ⟨⟩
    case apart => rintro _ _ _ _ ⟨⟩
  refine hempty.addDir rfl rfl ⟨?_, ?_, rfl, fun _ => rfl, fun h => absurd rfl h⟩ ?_ ?_ ?_
  · exact Int.natCast_nonneg _
  · change 2 < 2 ^ 14
    norm_num
  · rintro _ _ ⟨⟩
  · exact dirIdToInode_toNat (by norm_num)
  · intro i hi
    exact absurd hi (Nat.not_lt_zero i)

end World

/-- In every state of every run whose operations keep to `NoClash`, any two live objects have
different inode numbers. -/
theorem distinctInos_run {mem : ℕ → ℕ → UInt8} {heap : ℕ → DirListEntry} {rootMem : FfsName}
    {w : World} (h : Reach World.step World.NoClash (World.mounted mem heap rootMem) w) :
    w.DistinctInos :=
  (h.invariant World.Inv (World.inv_mounted mem heap rootMem)
    fun _ _ _ hi hok hstep => hi.step hok hstep).distinctInos

def zeroMounted : World := World.mounted (fun _ _ => 0) (fun _ => ⟨0, 0, 0⟩) ⟨0, fun _ => 0⟩

def mkdirOp (dle : ℕ) : FsOp := .mkdir 0 [100] ⟨0, fun _ => 0⟩ dle

def createOp (parent : ℕ) (name : CStr) : FsOp := .create parent name ⟨0, fun _ => 0⟩

/-- A directory is made, a file `f1` in it is created, unlinked and created again, and a second
directory is made and removed. -/
theorem distinctInos_run_two_dirs : ∃ w,
    run World.step World.NoClash zeroMounted [mkdirOp 1, createOp 1 [102, 49],
      .unlink 2 ⟨0, 0, 0, 0, 0⟩ true, .complete 2, createOp 1 [102, 49], mkdirOp 2, .rmdir 4] =
        some w ∧ w.DistinctInos := by
  obtain ⟨w, hw, -⟩ := exists_of_check (p := fun w : World => w.count = 5)
    (r := run World.step World.NoClash zeroMounted [mkdirOp 1, createOp 1 [102, 49],
      .unlink 2 ⟨0, 0, 0, 0, 0⟩ true, .complete 2, createOp 1 [102, 49], mkdirOp 2, .rmdir 4])
    (by decide +kernel)
  exact ⟨w, hw, distinctInos_run (Reach.of_run hw)⟩

/-- The second file of bucket 0 in a directory gets the number of the directory. -/
theorem file_has_ino_of_dir : ∃ w,
    Reach World.step anyStep zeroMounted w ∧ ¬ w.DistinctInos := by
  obtain ⟨w, hw, hsame⟩ := exists_of_check
    (p := fun w : World => (w.cell 1).object.bind (fun x => (w.cell 3).object.map fun y =>
      decide (x.ino = y.ino)) = some true)
    (r := run World.step anyStep zeroMounted [mkdirOp 1, createOp 1 [107, 115, 100],
      createOp 1 [108, 109, 109]]) (by decide +kernel)
  refine ⟨w, Reach.of_run hw, fun hd => ?_⟩
  obtain ⟨x, hx, hy⟩ := Option.bind_eq_some_iff.mp hsame
  obtain ⟨y, hy, he⟩ := Option.map_eq_some_iff.mp hy
  exact absurd (hd 1 3 x y hx hy (of_decide_eq_true he)) (by norm_num)

end FlatFS
