import FlatFS.DirResources

namespace FlatFS
open Lib Function

def FfsIoEnd.smallSlot (e : FfsIoEnd) : ℕ × ℕ × ℕ :=
  (e.dirId.toNat, e.bucketId.toNat, e.slotId.toNat)

structure FfsIoEnd.InTable (e : FfsIoEnd) : Prop where
  dirId : 0 ≤ e.dirId
  bucketId : 0 ≤ e.bucketId ∧ e.bucketId < 2 ^ 12
  slotId : 0 ≤ e.slotId ∧ e.slotId < 8

/-- What a live file in a small table keeps, and after its unlink the discard in flight. -/
def Cell.smallHandle (c : Cell) : Option FfsIoEnd := c.handle.filter fun e => e.isBigDir = 0

def SlotSet (sb : SbInfo) (q : ℕ × ℕ × ℕ) : Prop := sb.bit (.small q.1, q.2) = true

theorem slotSet_congr {sb sb' : SbInfo} (h : sb'.hashtbl = sb.hashtbl) (q : ℕ × ℕ × ℕ) :
    SlotSet sb' q ↔ SlotSet sb q := by
  rw [SlotSet, SlotSet, SbInfo.bit_congr]
  exact congrFun h q.1

namespace World

def smallHandles (w : World) : ℕ → Option FfsIoEnd := Cell.smallHandle ∘ w.cell

def smallSlots (w : World) : ℕ → Option (ℕ × ℕ × ℕ) :=
  Option.map FfsIoEnd.smallSlot ∘ w.smallHandles

/-- Beside what keeps the directories right: every unlink issues its discard, with a record of the
right kind, and a removed directory has no file left in it and no discard of one in flight. -/
def KeepsSlots (w : World) : FsOp → Prop
  | .unlink f ioEnd submitted =>
    submitted = true ∧ ∀ x ∈ (w.cell f).file, (ioEnd.isBigDir = 0 ↔ x.fi.isBigDir = 0)
  | .rmdir child => w.TidyDirs (.rmdir child) ∧ ∀ x ∈ (w.cell child).dir, ∀ i < w.count,
    ∀ e ∈ (w.cell i).handle, e.dirId ≠ x.fi.dirId
  | op => w.TidyDirs op

instance (w : World) : ∀ op, Decidable (w.KeepsSlots op)
  | .unlink _ _ _ => inferInstanceAs (Decidable (_ ∧ ∀ _ ∈ _, _))
  | .rmdir child => inferInstanceAs (Decidable (w.TidyDirs (.rmdir child) ∧ ∀ _ ∈ _, _))
  | .mkdir p name mem dle => inferInstanceAs (Decidable (w.TidyDirs (.mkdir p name mem dle)))
  | .create p name mem => inferInstanceAs (Decidable (w.TidyDirs (.create p name mem)))
  | .complete f => inferInstanceAs (Decidable (w.TidyDirs (.complete f)))

theorem KeepsSlots.tidy {w : World} {op : FsOp} (h : w.KeepsSlots op) : w.TidyDirs op := by
  cases op with
  | unlink f ioEnd submitted => trivial
  | rmdir child => exact h.1
  | mkdir p name mem dle => exact h
  | create p name mem => exact h
  | complete f => exact h

/-- The set bits of the small tables are the slots of the live files and of the discards in
flight, one for each. -/
structure SlotsInv (w : World) : Prop where
  fresh : ∀ i, w.count ≤ i → w.smallHandles i = none
  inTable : ∀ i e, w.smallHandles i = some e → e.InTable
  slots : Owned w.smallSlots (SlotSet w.sb)

variable {w w' : World} {i : ℕ} {e e' : FfsIoEnd}

theorem smallSlots_of_handles {o : Option FfsIoEnd}
    (h : w'.smallHandles = update w.smallHandles i o) :
    w'.smallSlots = update w.smallSlots i (o.map FfsIoEnd.smallSlot) := by
  rw [smallSlots, h]
  exact comp_update ..

theorem smallSlots_eq (h : w.smallHandles i = some e) : w.smallSlots i = some e.smallSlot :=
  congrArg (Option.map _) h

theorem SlotsInv.keep (hi : SlotsInv w) (hh : w'.smallHandles = w.smallHandles)
    (hb : ∀ q, SlotSet w'.sb q ↔ SlotSet w.sb q) (hc : w.count ≤ w'.count) : SlotsInv w' := by
  refine ⟨fun i hle => ?_, ?_, ?_⟩
  · rw [hh]
    exact hi.fresh i (hc.trans hle)
  · rw [hh]
    exact hi.inTable
  · rw [smallSlots, hh, funext fun q => propext (hb q)]
    exact hi.slots

theorem SlotsInv.lt_count (hi : SlotsInv w) (h : w.smallHandles i = some e) : i < w.count := by
  by_contra hge
  rw [hi.fresh i (not_lt.mp hge)] at h
  cases h

theorem SlotsInv.setHandle (hi : SlotsInv w) {o : Option FfsIoEnd}
    (hh : w'.smallHandles = update w.smallHandles i o) (ho : ∀ e ∈ o, e.InTable)
    (hlt : i < w'.count) (hc : w.count ≤ w'.count)
    (hs : Owned (update w.smallSlots i (o.map FfsIoEnd.smallSlot)) (SlotSet w'.sb)) :
    SlotsInv w' := by
  refine ⟨fun j hle => ?_, fun j e hj => ?_, smallSlots_of_handles hh ▸ hs⟩
  · rw [hh, update_of_ne (by omega)]
    exact hi.fresh j (hc.trans hle)
  · rw [hh, update_apply] at hj
    split_ifs at hj
    · exact ho e hj
    · exact hi.inTable j e hj

theorem SlotsInv.take (hi : SlotsInv w) (hh : w'.smallHandles = update w.smallHandles w.count e)
    (hc : w'.count = w.count + 1) (he : e.InTable) (hfree : ¬ SlotSet w.sb e.smallSlot)
    (hb : ∀ q, SlotSet w'.sb q ↔ q = e.smallSlot ∨ SlotSet w.sb q) : SlotsInv w' := by
  have hnone := hi.fresh w.count le_rfl
  apply hi.setHandle hh _ (by omega) (by omega)
  · exact hi.slots.acquire (congrArg (Option.map _) hnone) hfree hb
  · intro a ha
    cases ha
    exact he

/-- The slot passes from the file to the discard of its unlink. -/
theorem SlotsInv.pass (hi : SlotsInv w) (hold : w.smallHandles i = some e)
    (hh : w'.smallHandles = update w.smallHandles i e') (hs : e'.smallSlot = e.smallSlot)
    (he' : e'.InTable) (hb : w'.sb = w.sb) (hc : w'.count = w.count) : SlotsInv w' := by
  apply hi.setHandle hh _ (hc ▸ hi.lt_count hold) hc.ge
  · rw [Option.map_some, hs, ← smallSlots_eq hold, update_eq_self, hb]
    exact hi.slots
  · intro a ha
    cases ha
    exact he'

theorem SlotsInv.release (hi : SlotsInv w) (hold : w.smallHandles i = some e)
    (hh : w'.smallHandles = update w.smallHandles i none)
    (hb : ∀ q, SlotSet w'.sb q ↔ q ≠ e.smallSlot ∧ SlotSet w.sb q) (hc : w'.count = w.count) :
    SlotsInv w' := by
  apply hi.setHandle hh _ (hc ▸ hi.lt_count hold) hc.ge
  · exact hi.slots.release (smallSlots_eq hold) hb
  · intro a ha
    cases ha

end World

theorem slotSet_iff (sb : SbInfo) (d b slt : ℕ) :
    SlotSet sb (d, b, slt) ↔ ∃ ht ∈ sb.hashtbl d, ht.bit b slt = true := by
  change (sb.hashtbl d).any (fun ht => ht.bit b slt) = true ↔ _
  cases sb.hashtbl d <;> simp

theorem slotSet_update {sb sb' : SbInfo} {d : ℕ} {o : Option HashTable}
    (h : sb'.hashtbl = update sb.hashtbl d o) (ho : ∀ ht ∈ o, ∀ b slt, ht.bit b slt = false)
    (hold : ∀ b slt, ¬ SlotSet sb (d, b, slt)) (q : ℕ × ℕ × ℕ) :
    SlotSet sb' q ↔ SlotSet sb q := by
  obtain ⟨c, b, slt⟩ := q
  by_cases hc : c = d
  · rw [hc]
    refine iff_of_false ?_ (hold b slt)
    rw [slotSet_iff, h, update_self]
    intro ⟨ht, hht, hbit⟩
    rw [ho ht hht] at hbit
    cases hbit
  · rw [slotSet_iff, slotSet_iff, h, update_of_ne hc]

/-- `remove_dir` frees the table of the directory, unless its parent does not list it. -/
theorem removeDir_hashtbl {sb : SbInfo} (hids : ∀ i, (sb.dtree.de i).dirId = i)
    (parentIno : BitVec 64) {dirIno : BitVec 64} {d : ℕ} (hd : (inodeToDirId dirIno).toNat = d)
    (bigDirId : ℤ) :
    (removeDir sb parentIno dirIno bigDirId).hashtbl = sb.hashtbl ∨
      (removeDir sb parentIno dirIno bigDirId).hashtbl = update sb.hashtbl d none := by
  cases hfind : findEntry sb.dtree (sb.dtree.de (inodeToDirId dirIno).toNat).dirId
      (sb.dtree.de (inodeToDirId parentIno).toNat).head 0
      (sb.dtree.de (inodeToDirId parentIno).toNat).dirSize with
  | none =>
    left
    simp only [removeDir, hfind]
  | some r => exact .inr (removeDir_found_tables bigDirId hids hd hfind).1

namespace World

variable {w w' : World} {p : ℕ} {dir : Object}

theorem handles_setCell (w : World) (i : ℕ) (c : Cell) (sb : SbInfo) :
    ({ w with sb := sb }.setCell i c).smallHandles = update w.smallHandles i c.smallHandle :=
  comp_update ..

theorem smallHandle_dir {c : Cell} {x : Object} (h : c.dir = some x) : c.smallHandle = none := by
  obtain ⟨rfl, hd⟩ := object_of_dir h
  rw [Cell.smallHandle, handle_live_dir hd]
  rfl

theorem smallHandle_small {c : Cell} {e : FfsIoEnd} (h : c.handle = some e) (he : e.isBigDir = 0) :
    c.smallHandle = some e := by
  rw [Cell.smallHandle, h, Option.filter_some_pos]
  exact decide_eq_true he

theorem smallHandle_big {c : Cell} {e : FfsIoEnd} (h : c.handle = some e) (he : e.isBigDir ≠ 0) :
    c.smallHandle = none := by
  rw [Cell.smallHandle, h, Option.filter_some_neg]
  exact decide_eq_false he

theorem handles_keep {i : ℕ} {c : Cell} (hold : (w.cell i).smallHandle = none)
    (hc : c.smallHandle = none) (sb : SbInfo) :
    ({ w with sb := sb }.setCell i c).smallHandles = w.smallHandles := by
  rw [handles_setCell, hc, ← hold]
  exact update_eq_self ..

theorem SlotsInv.mkdir (hi : SlotsInv w) (hd : DirsInv w) (dir : Object)
    {name : CStr} {mem : FfsName} {dle : ℕ} (hok : w.TidyDirs (.mkdir p name mem dle)) :
    let r := ffsMknodDir w.sb dir.fi mem name dle
    SlotsInv ({ w with sb := r.1 }.add ⟨r.2.1, r.2.2, true, some p⟩) := by
  intro r
  have hclear := (DirTree.getUnusedDirId_spec hok.1).2.1
  rw [← DirTree.fillOneDirEntry_fst w.sb.dtree name] at hclear
  apply hi.keep _ _ (Nat.le_succ _)
  · exact handles_keep (hi.fresh _ le_rfl) (smallHandle_dir (dir_of_object rfl rfl)) _
  · refine slotSet_update (rfl : r.1.hashtbl = update w.sb.hashtbl _ _) ?_ ?_
    · intro ht hht b slt
      cases hht
      rfl
    · -- the new id had no table
      intro b slt hset
      obtain ⟨ht, hht, -⟩ := (slotSet_iff ..).mp hset
      have hlive := (hd.tables _).mp (Option.isSome_of_eq_some hht)
      rw [hlive.2.2] at hclear
      cases hclear

theorem SlotsInv.unlink (hi : SlotsInv w) {f : ℕ} {x : Object} (hx : (w.cell f).file = some x)
    {ioEnd : FfsIoEnd} (h : ioEnd.isBigDir = 0 ↔ x.fi.isBigDir = 0) :
    SlotsInv (w.setCell f (.discard (initHandlerForDiscard ioEnd x.fi))) := by
  obtain ⟨hcell, hf⟩ := object_of_file hx
  have hhandle : (w.cell f).handle = some x.fi.handle := handle_of_object (hcell ▸ rfl) hf
  by_cases hsmall : x.fi.isBigDir = 0
  · have hold : w.smallHandles f = some x.fi.handle := smallHandle_small hhandle hsmall
    have hnew := handles_setCell w f (.discard (initHandlerForDiscard ioEnd x.fi)) w.sb
    rw [smallHandle_small (e := initHandlerForDiscard ioEnd x.fi) rfl (h.mpr hsmall)] at hnew
    have htable := hi.inTable f _ hold
    exact hi.pass hold hnew rfl ⟨htable.dirId, htable.bucketId, htable.slotId⟩ rfl rfl
  · have hold := smallHandle_big hhandle hsmall
    have hnew : Cell.smallHandle (.discard (initHandlerForDiscard ioEnd x.fi)) = none :=
      smallHandle_big rfl (h.not.mpr hsmall)
    exact hi.keep (handles_keep hold hnew w.sb) (fun q => Iff.rfl) le_rfl

theorem SlotsInv.complete (hi : SlotsInv w) {f : ℕ} {e : FfsIoEnd}
    (hcell : w.cell f = .discard e) :
    SlotsInv ({ w with sb := callbackForDiscard w.sb e }.setCell f .gone) := by
  have hhandle : (w.cell f).handle = some e := by rw [hcell]; rfl
  by_cases hsmall : e.isBigDir = 0
  · have hold : w.smallHandles f = some e := smallHandle_small hhandle hsmall
    obtain ⟨-, hb, hs⟩ := hi.inTable f e hold
    have hset := (hi.slots.used_iff _).mpr ⟨f, smallSlots_eq hold⟩
    obtain ⟨ht, hht, hbit⟩ := (slotSet_iff ..).mp hset
    -- the record is in range, so that the bit is found set and cleared
    have hdel : deleteFile ht e.bucketId e.slotId =
        (1, ht.modify e.bucketId.toNat (·.release e.slotId.toNat)) := by
      have hb12 : e.bucketId.toNat < 2 ^ 12 := by omega
      have heq := @deleteSlot_eq minFileBucketBits ht _ _ hb12 (show e.slotId.toNat < 8 by omega)
      rw [Int.toNat_of_nonneg hb.1, Int.toNat_of_nonneg hs.1, if_pos hbit] at heq
      exact heq
    have hcall : callbackForDiscard w.sb e = w.sb.setTable (.small e.dirId.toNat)
        (some (ht.modify e.bucketId.toNat (·.release e.slotId.toNat))) := by
      rw [callbackForDiscard, if_pos hsmall, hht, Option.map_some, hdel]
      rfl
    refine hi.release hold (handles_setCell w f .gone _) (fun q => ?_) rfl
    change SlotSet (callbackForDiscard w.sb e) q ↔ _
    rw [hcall, SlotSet, SbInfo.bit_release (t := .small e.dirId.toNat) hht]
    simp [SlotSet, FfsIoEnd.smallSlot, Prod.ext_iff]
  · have hsame : (callbackForDiscard w.sb e).hashtbl = w.sb.hashtbl := by
      rw [callbackForDiscard, if_neg hsmall]
    refine hi.keep (handles_keep ?_ rfl _) (slotSet_congr hsame) le_rfl
    exact smallHandle_big hhandle hsmall

theorem SlotsInv.rmdir (hi : SlotsInv w) (hd : DirsInv w) {c : ℕ} {x : Object}
    (hids : ∀ i, (w.sb.dtree.de i).dirId = i) (hx : (w.cell c).dir = some x)
    (parentIno : BitVec 64)
    (hempty : ∀ i < w.count, ∀ e ∈ (w.cell i).handle, e.dirId ≠ x.fi.dirId) :
    SlotsInv ({ w with sb := removeDir w.sb parentIno x.ino x.fi.bigDirId }.setCell c .gone) := by
  have hx0 := (hd.named c x hx).1
  have hold : ∀ b slt, ¬ SlotSet w.sb (x.fi.dirId.toNat, b, slt) := by
    intro b slt hset
    obtain ⟨i, hslot⟩ := (hi.slots.used_iff _).mp hset
    obtain ⟨e, he, hes⟩ := Option.map_eq_some_iff.mp hslot
    have he0 := (hi.inTable i e he).dirId
    have hed : e.dirId.toNat = x.fi.dirId.toNat := congrArg Prod.fst hes
    exact hempty i (hi.lt_count he) e (Option.filter_eq_some_iff.mp he).1 (by omega)
  have hid := hd.dirId_ino hx
  refine hi.keep (handles_keep (smallHandle_dir hx) rfl _) (fun q => ?_) le_rfl
  rcases removeDir_hashtbl hids parentIno hid x.fi.bigDirId with hsame | hgone
  · exact slotSet_congr hsame q
  · exact slotSet_update hgone (fun ht hht => by cases hht) hold q

end World

/-- A create takes a slot of the small table, or leaves all small tables alone. -/
theorem mknodFile_slots {sb : SbInfo} {dfi : FfsInodeInfo} {mem : FfsName} {name : CStr}
    {r : MknodResult} {d : ℕ} (hdfi : dfi.dirId = d) (hd : d < 2 ^ 14)
    (h : ffsMknodFile sb dfi mem name = some r) :
    (∃ (ht : HashTable) (ino : BitVec 64), sb.hashtbl d = some ht ∧
        ¬ (ht.buckets (smallBucket name)).Full ∧
        r.sb = sb.setTable (.small d) (some (ht.modify (smallBucket name)
          (·.take (ht.buckets (smallBucket name)).freeSlot))) ∧
        r.created = some (ino, smallFileInfo d ino mem name) ∧
        ino.toNat = d * 2 ^ 15 + smallBucket name * 8 + (ht.buckets (smallBucket name)).freeSlot) ∨
      r.sb.hashtbl = sb.hashtbl ∧ ∀ ino fi, r.created = some (ino, fi) → fi.isBigDir ≠ 0 := by
  have hbigFile : ∀ {sb' : SbInfo} {dfi' : FfsInodeInfo},
      mknodBigFile sb' dfi' mem name = some r →
        r.sb.hashtbl = sb'.hashtbl ∧ ∀ ino fi, r.created = some (ino, fi) → fi.isBigDir ≠ 0 := by
    intro sb' dfi' hr
    have hcreated := (mknodBigFile_result hr).2
    obtain ⟨ht, -, rfl⟩ := Option.map_eq_some_iff.mp hr
    refine ⟨rfl, fun ino fi hc => ?_⟩
    rw [hcreated ino fi hc]
    change (1 : UInt8) ≠ 0
    decide
  by_cases hsmall : dfi.isBigDir = 0
  · have h' := h
    rw [ffsMknodFile, mknodFileBy, if_pos hsmall, hdfi, Int.toNat_natCast] at h'
    obtain ⟨ht, hht, -⟩ := Option.bind_eq_some_iff.mp h'
    by_cases hf : (ht.buckets (smallBucket name)).Full
    · right
      rw [mknodFile_full mem hsmall hdfi hht hf] at h
      obtain ⟨⟨pos, sb'⟩, hres, h⟩ := Option.bind_eq_some_iff.mp h
      have hsame : sb'.hashtbl = sb.hashtbl := by
        rw [resizeDir_eq] at hres
        split_ifs at hres <;> cases hres <;> rfl
      dsimp only at h
      split_ifs at h
      · cases h
        exact ⟨hsame, fun ino fi hc => by cases hc⟩
      · rw [← hsame]
        exact hbigFile h
    · left
      obtain ⟨ino, hmk, hino⟩ := mknodFile_free mem hsmall hdfi hht hd hf
      cases h.symm.trans hmk
      exact ⟨ht, ino, hht, hf, rfl, rfl, hino⟩
  · right
    rw [ffsMknodFile, mknodFileBy, if_neg hsmall] at h
    exact hbigFile h

namespace World

variable {w : World} {p : ℕ} {dir : Object}

theorem SlotsInv.create (hi : SlotsInv w) (hd : DirsInv w) (hdir : (w.cell p).dir = some dir)
    {mem : FfsName} {name : CStr} {r : MknodResult}
    (hr : ffsMknodFile w.sb dir.fi mem name = some r) :
    SlotsInv (({ w with sb := r.sb }.setCell p (.live { dir with fi := r.dfi })).addFile p
      r.created) := by
  have hdfi := hd.dirId_nat hdir
  have hset := handles_keep (c := .live { dir with fi := r.dfi }) (smallHandle_dir hdir)
    (smallHandle_dir (dir_withInfo hdir _)) r.sb
  rcases mknodFile_slots hdfi (hd.live hdir).2.1 hr with
    ⟨ht, ino, hht, hf, hsb, hcreated, hino⟩ | ⟨hsame, hcreated⟩
  · have hb := smallBucket_lt name
    have hs := Bucket.freeSlot_lt hf
    obtain ⟨hdecB, hdecS⟩ := smallIno_decodes hb hs hino
    rw [hcreated]
    generalize dir.fi.dirId.toNat = d at *
    have hslot : (smallFileInfo d ino mem name).handle.smallSlot =
        (d, smallBucket name, (ht.buckets (smallBucket name)).freeSlot) := by
      change (_, (inoToBucket ino).toNat, (inoToSlot ino).toNat) = _
      rw [hdecB, hdecS]
      rfl
    apply hi.take (e := (smallFileInfo d ino mem name).handle)
    · have hadd := handles_setCell
        ({ w with sb := r.sb }.setCell p (.live { dir with fi := r.dfi })) w.count
        (.live ⟨ino, smallFileInfo d ino mem name, false, some p⟩) r.sb
      rw [hset] at hadd
      exact hadd
    · rfl
    · refine ⟨Int.natCast_nonneg d, ?_, ?_⟩
      · change 0 ≤ inoToBucket ino ∧ inoToBucket ino < 2 ^ 12
        rw [hdecB]
        exact ⟨Int.natCast_nonneg _, by exact_mod_cast hb⟩
      · change 0 ≤ inoToSlot ino ∧ inoToSlot ino < 8
        rw [hdecS]
        exact ⟨Int.natCast_nonneg _, by exact_mod_cast hs⟩
    · rw [hslot, slotSet_iff]
      intro ⟨ht', hht', hbit⟩
      cases hht.symm.trans hht'
      exact Bool.false_ne_true ((Bucket.freeSlot_clear hf).symm.trans hbit)
    · intro q
      change SlotSet r.sb q ↔ _
      rw [hsb, SlotSet, SbInfo.bit_take (t := .small d) hht, hslot]
      simp [SlotSet, Prod.ext_iff]
  · have hw := hi.keep hset (slotSet_congr hsame) le_rfl
    cases hc : r.created with
    | none => exact hw
    | some f =>
      refine hw.keep ?_ (fun q => Iff.rfl) (Nat.le_succ _)
      refine handles_keep (hw.fresh _ le_rfl) ?_ r.sb
      exact smallHandle_big rfl (hcreated f.1 f.2 hc)

end World

namespace World

variable {w w' : World}

theorem slotsInv_mounted (mem : ℕ → ℕ → UInt8) (heap : ℕ → DirListEntry) (rootMem : FfsName) :
    SlotsInv (mounted mem heap rootMem) := by
  have hclear : ∀ q, ¬ SlotSet (fillSuper mem heap) q := by
    intro ⟨d, b, slt⟩
    rw [slotSet_iff]
    intro ⟨ht, hht, hbit⟩
    change update (fun _ => none) flatfsRootIno (some initFileHt) d = some ht at hht
    rw [update_apply] at hht
    split_ifs at hht
    cases hht
    cases hbit
  have hnone : (mounted mem heap rootMem).smallHandles = fun _ => none := by
    refine handles_keep (w := ⟨fillSuper mem heap, 0, fun _ => .gone⟩) rfl ?_ _
    refine smallHandle_dir (dir_of_object rfl ?_)
    rfl
  constructor
  case fresh =>
    intro i _
    rw [hnone]
  case inTable =>
    intro i e he
    rw [hnone] at he
    cases he
  case slots =>
    rw [smallSlots, hnone]
    refine ⟨fun q => iff_of_false (hclear q) fun ⟨i, hi⟩ => ?_, fun i j q hi => ?_⟩ <;> cases hi

theorem SlotsInv.step (hi : SlotsInv w) (hd : DirsInv w) (hids : ∀ i, (w.sb.dtree.de i).dirId = i)
    {op : FsOp} (hok : w.KeepsSlots op) (hs : w.step op = some w') : SlotsInv w' := by
  cases op with
  | mkdir parent name mem dle =>
    obtain ⟨dir, -, rfl⟩ := Option.map_eq_some_iff.mp hs
    exact hi.mkdir hd dir hok
  | create parent name mem =>
    obtain ⟨dir, r, hdir, hr, rfl⟩ := step_create hs
    exact hi.create hd hdir hr
  | unlink f ioEnd submitted =>
    obtain ⟨x, hx, rfl⟩ := Option.map_eq_some_iff.mp hs
    rw [if_pos hok.1]
    exact hi.unlink hx (hok.2 x hx)
  | complete f =>
    obtain ⟨e, hcell, -, rfl⟩ := step_complete hs
    exact hi.complete hcell
  | rmdir child =>
    obtain ⟨x, p, dir, hx, -, -, rfl | rfl⟩ := step_rmdir hs
    · exact hi.rmdir hd hids hx dir.ino (hok.2 x hx)
    · exact hi

/-- The slots of one bucket that are set are those of its files and discards in flight. -/
theorem SlotsInv.ncard_holders (hi : SlotsInv w) {d : ℕ} {ht : HashTable}
    (hht : w.sb.hashtbl d = some ht) (b : ℕ) :
    {i | ∃ slt, w.smallSlots i = some (d, b, slt)}.ncard =
      {slt | (ht.buckets b).slotBitmap slt = true}.ncard := by
  have hset : ∀ slt, SlotSet w.sb (d, b, slt) ↔ (ht.buckets b).slotBitmap slt = true := by
    intro slt
    rw [slotSet_iff, hht]
    simp [HashTable.bit]
  have hown : {i | ∃ slt, w.smallSlots i = some (d, b, slt)} =
      {i | ∃ q, w.smallSlots i = some q ∧ q.1 = d ∧ q.2.1 = b} := by
    ext i
    simp
  have hbits : {q | SlotSet w.sb q ∧ q.1 = d ∧ q.2.1 = b} =
      (fun slt => (d, b, slt)) '' {slt | (ht.buckets b).slotBitmap slt = true} := by
    ext q
    obtain ⟨d', b', slt⟩ := q
    constructor
    · intro h
      obtain ⟨hq, rfl, rfl⟩ := h
      exact ⟨slt, (hset slt).mp hq, rfl⟩
    · intro h
      obtain ⟨slt', hslt, he⟩ := h
      cases he
      exact ⟨(hset slt).mpr hslt, rfl, rfl⟩
  rw [hown, hi.slots.ncard_eq, hbits]
  apply Set.ncard_image_of_injective
  intro a c hac
  exact (Prod.mk.inj (Prod.mk.inj hac).2).2

theorem SlotsInv.slot_lt (hi : SlotsInv w) {d : ℕ} {ht : HashTable}
    (hht : w.sb.hashtbl d = some ht) (b : ℕ) :
    {slt | (ht.buckets b).slotBitmap slt = true} ⊆ Set.Iio 8 := by
  intro slt hslt
  obtain ⟨i, he⟩ := (hi.slots.used_iff (d, b, slt)).mp ((slotSet_iff ..).mpr ⟨ht, hht, hslt⟩)
  obtain ⟨e, he, hes⟩ := Option.map_eq_some_iff.mp he
  have hlt := (hi.inTable i e he).slotId
  have hse : e.slotId.toNat = slt := congrArg (fun q : ℕ × ℕ × ℕ => q.2.2) hes
  rw [Set.mem_Iio]
  omega

end World

section

variable {mem : ℕ → ℕ → UInt8} {heap : ℕ → DirListEntry} {rootMem : FfsName} {w : World}

theorem tidy_run (h : Reach World.step World.KeepsSlots (World.mounted mem heap rootMem) w) :
    World.DirsInv w ∧ (∀ i, (w.sb.dtree.de i).dirId = i) ∧
      ∀ d, w.sb.dtree.Lists d (w.subdirs d) := by
  have hr : Reach World.step World.TidyDirs (World.mounted mem heap rootMem) w :=
    h.mono fun _ _ hok => hok.tidy
  obtain ⟨s, hrun, ht⟩ := treeOf_run hr
  obtain ⟨nodes, hn⟩ := nodes_run hrun
  rw [ht.tree, ht.children] at hn
  exact ⟨ht.inv, hn.ids, hn.lists⟩

theorem slots_run (h : Reach World.step World.KeepsSlots (World.mounted mem heap rootMem) w) :
    World.SlotsInv w ∧ World.DirsInv w := by
  refine ⟨h.invariant_reached World.SlotsInv (World.slotsInv_mounted mem heap rootMem) ?_,
    (tidy_run h).1⟩
  intro w op w' hr hi hok hs
  obtain ⟨hd, hids, -⟩ := tidy_run hr
  exact hi.step hd hids hok hs

theorem lists_run (h : Reach World.step World.KeepsSlots (World.mounted mem heap rootMem) w) :
    (∀ i, (w.sb.dtree.de i).dirId = i) ∧ ∀ d, w.sb.dtree.Lists d (w.subdirs d) :=
  (tidy_run h).2

/-- A bit of a small table is set exactly when a live file or a discard in flight has the slot, and
no two have the same. -/
theorem smallSlots_owned
    (h : Reach World.step World.KeepsSlots (World.mounted mem heap rootMem) w) :
    Owned w.smallSlots fun q => w.sb.bit (.small q.1, q.2) = true :=
  (slots_run h).1.slots

end

theorem smallSlots_owned_two : ∃ w, run World.step World.KeepsSlots zeroMounted
      [createOp 0 [102, 49], .unlink 1 ⟨0, 0, 0, 0, 0⟩ true, .complete 1, createOp 0 [102, 50]] =
        some w ∧
    Owned w.smallSlots fun q => w.sb.bit (.small q.1, q.2) = true := by
  obtain ⟨w, hrun, -⟩ := exists_of_check (p := fun w : World => w.count = 3)
    (r := run World.step World.KeepsSlots zeroMounted [createOp 0 [102, 49],
      .unlink 1 ⟨0, 0, 0, 0, 0⟩ true, .complete 1, createOp 0 [102, 50]]) (by decide +kernel)
  exact ⟨w, hrun, smallSlots_owned (.of_run hrun)⟩

namespace World

variable {w : World} {p : ℕ} {dir : Object}

theorem dir_after_create (hd : DirsInv w) (hdir : (w.cell p).dir = some dir) (r : MknodResult) :
    ((({ w with sb := r.sb }.setCell p (.live { dir with fi := r.dfi })).addFile p
      r.created).cell p).dir = some { dir with fi := r.dfi } := by
  have hself : (({ w with sb := r.sb }.setCell p (.live { dir with fi := r.dfi })).cell p).dir =
      some { dir with fi := r.dfi } := by
    rw [setCell_self]
    exact dir_withInfo hdir _
  cases r.created with
  | none => exact hself
  | some f =>
    have hlt := hd.lt_count hdir
    exact (congrArg Cell.dir (setCell_of_ne _ hlt.ne _)).trans hself

theorem mknodFile_small_iff (hd : DirsInv w) (hdir : (w.cell p).dir = some dir)
    (hsmall : dir.fi.isBigDir = 0) {ht : HashTable}
    (hht : w.sb.hashtbl dir.fi.dirId.toNat = some ht) (mem : FfsName) (name : CStr) :
    (∃ r, ffsMknodFile w.sb dir.fi mem name = some r ∧ r.dfi.isBigDir = 0) ↔
      ¬ (ht.buckets (smallBucket name)).Full := by
  have hdfi := hd.dirId_nat hdir
  constructor
  · intro ⟨r, hr, hstay⟩ hf
    rw [mknodFile_full mem hsmall hdfi hht hf] at hr
    by_cases hfree : HasFreePosition w.sb
    · obtain ⟨q, -, -, hres⟩ := hd.counts.resizeDir_free hfree
      have hne : ¬ (q : ℤ) = -1 := by omega
      rw [hres, Option.bind_some] at hr
      dsimp only at hr
      rw [if_neg hne] at hr
      rw [(mknodBigFile_result hr).1] at hstay
      cases hstay
    · rw [hd.counts.resizeDir_full hfree] at hr
      cases hr
  · intro hf
    obtain ⟨ino, hmk, -⟩ := mknodFile_free mem hsmall hdfi hht (hd.live hdir).2.1 hf
    exact ⟨_, hmk, hsmall⟩

end World

section

variable {mem : ℕ → ℕ → UInt8} {heap : ℕ → DirListEntry} {rootMem : FfsName} {w : World}

/-- A create leaves a directory that is not promoted as it is exactly when fewer than eight files
and discards in flight of the directory are in the bucket of the name. -/
theorem create_stays_small_iff
    (h : Reach World.step World.KeepsSlots (World.mounted mem heap rootMem) w) {p : ℕ}
    {dir : Object} (hdir : (w.cell p).dir = some dir) (hsmall : dir.fi.isBigDir = 0) (name : CStr)
    (nameMem : FfsName) :
    (∃ w' dir', w.step (.create p name nameMem) = some w' ∧ (w'.cell p).dir = some dir' ∧
        dir'.fi.isBigDir = 0) ↔
      {i | ∃ slt, w.smallSlots i = some (dir.fi.dirId.toNat, smallBucket name, slt)}.ncard < 8 := by
  obtain ⟨hi, hd⟩ := slots_run h
  obtain ⟨ht, hht⟩ := hd.table hdir
  have hlt := hi.slot_lt hht (smallBucket name)
  have hfull : (ht.buckets (smallBucket name)).Full ↔
      {slt | (ht.buckets (smallBucket name)).slotBitmap slt = true}.ncard = 8 :=
    (Bitmap.ncard_eq_iff hlt).symm
  have hcount : ¬ (ht.buckets (smallBucket name)).Full ↔
      {slt | (ht.buckets (smallBucket name)).slotBitmap slt = true}.ncard < 8 := by
    have hle := Bitmap.ncard_le hlt
    rw [hfull]
    omega
  rw [hi.ncard_holders hht, ← hcount, ← World.mknodFile_small_iff hd hdir hsmall hht nameMem name,
    World.step, hdir, Option.bind_some]
  constructor
  · intro h
    obtain ⟨w', dir', hs, hdir', hstay⟩ := h
    obtain ⟨r, hr, rfl⟩ := Option.map_eq_some_iff.mp hs
    rw [World.dir_after_create hd hdir] at hdir'
    cases hdir'
    exact ⟨r, hr, hstay⟩
  · intro h
    obtain ⟨r, hr, hstay⟩ := h
    refine ⟨_, _, congrArg (Option.map _) hr, World.dir_after_create hd hdir r, hstay⟩

theorem create_stays_small_iff_root : ∃ w dir, run World.step World.KeepsSlots zeroMounted
      [createOp 0 [102, 49]] = some w ∧ (w.cell 0).dir = some dir ∧ dir.fi.isBigDir = 0 ∧
    {i | ∃ slt, w.smallSlots i = some (dir.fi.dirId.toNat, smallBucket [102, 50], slt)}.ncard <
      8 := by
  obtain ⟨w, hrun, hdir, hafter⟩ := exists_of_check
    (p := fun w : World => (w.cell 0).dir.any (fun x => decide (x.fi.isBigDir = 0)) = true ∧
      (w.step (createOp 0 [102, 50])).any (fun w' =>
        (w'.cell 0).dir.any fun x => decide (x.fi.isBigDir = 0)) = true)
    (r := run World.step World.KeepsSlots zeroMounted [createOp 0 [102, 49]]) (by decide +kernel)
  obtain ⟨dir, hdir, hsmall⟩ := exists_of_check hdir
  obtain ⟨w', hs, hdir'⟩ := (Option.any_eq_true ..).mp hafter
  obtain ⟨dir', hdir', hstay⟩ := exists_of_check hdir'
  exact ⟨w, dir, hrun, hdir, hsmall, (create_stays_small_iff (.of_run hrun) hdir hsmall [102, 50]
    ⟨0, fun _ => 0⟩).mp ⟨w', dir', hs, hdir', hstay⟩⟩

end

end FlatFS
