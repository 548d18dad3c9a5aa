import FlatFS.Objects

namespace FlatFS
open Lib

inductive TableId
  | small (dirId : ℕ)
  | big (pos : ℕ)
deriving DecidableEq

namespace SbInfo

def table (sb : SbInfo) : TableId → Option HashTable
  | .small dirId => sb.hashtbl dirId
  | .big pos => sb.bigDirHashtbl pos

def setTable (sb : SbInfo) (t : TableId) (ht : Option HashTable) : SbInfo :=
  match t with
  | .small dirId => { sb with hashtbl := Function.update sb.hashtbl dirId ht }
  | .big pos => { sb with bigDirHashtbl := Function.update sb.bigDirHashtbl pos ht }

def bit (sb : SbInfo) (q : TableId × ℕ × ℕ) : Bool :=
  (sb.table q.1).any fun ht => ht.bit q.2.1 q.2.2

section

variable (sb : SbInfo) (t : TableId) (o : Option HashTable)

theorem table_setTable (t' : TableId) :
    (sb.setTable t o).table t' = if t' = t then o else sb.table t' := by
  cases t <;> cases t' <;> simp [setTable, table, Function.update_apply]

@[simp] theorem setTable_dtree : (sb.setTable t o).dtree = sb.dtree := by cases t <;> rfl

@[simp] theorem setTable_bigDirBitmap : (sb.setTable t o).bigDirBitmap = sb.bigDirBitmap := by
  cases t <;> rfl

end

variable {sb : SbInfo} {t : TableId} {ht : HashTable}

theorem bit_congr {sb' : SbInfo} {q : TableId × ℕ × ℕ} (h : sb'.table q.1 = sb.table q.1) :
    sb'.bit q = sb.bit q := by rw [bit, bit, h]

theorem bit_setTable_of_ne {o : Option HashTable} {q : TableId × ℕ × ℕ} (h : q.1 ≠ t) :
    (sb.setTable t o).bit q = sb.bit q :=
  bit_congr (by rw [table_setTable, if_neg h])

theorem bit_take (h : sb.table t = some ht) (b slt : ℕ) (q : TableId × ℕ × ℕ) :
    (sb.setTable t (some (ht.modify b (·.take slt)))).bit q = true ↔
      q = (t, b, slt) ∨ sb.bit q = true := by
  obtain ⟨t', b', slt'⟩ := q
  by_cases ht' : t' = t
  · subst ht'
    simp [bit, table_setTable, h, HashTable.bit_take]
  · rw [bit_setTable_of_ne ht']
    simp [ht']

theorem bit_release (h : sb.table t = some ht) (b slt : ℕ) (q : TableId × ℕ × ℕ) :
    (sb.setTable t (some (ht.modify b (·.release slt)))).bit q = true ↔
      q ≠ (t, b, slt) ∧ sb.bit q = true := by
  obtain ⟨t', b', slt'⟩ := q
  by_cases ht' : t' = t
  · subst ht'
    simp [bit, table_setTable, h, HashTable.bit_release]
  · rw [bit_setTable_of_ne ht']
    simp [ht']

end SbInfo

namespace FfsIoEnd

def table (e : FfsIoEnd) : TableId :=
  if e.isBigDir = 0 then .small e.dirId.toNat else .big e.bigDirId.toNat

/-- The bucket that a record stands for. The bucket number stored for a big file has bits of the
directory id above it. -/
def bucket (e : FfsIoEnd) : ℕ := e.bucketId.toNat % 2 ^ 18

def slot (e : FfsIoEnd) : TableId × ℕ × ℕ := (e.table, e.bucket, e.slotId.toNat)

def place (e : FfsIoEnd) : Place :=
  if e.isBigDir = 0 then .small e.dirId.toNat e.bucket e.slotId.toNat
  else .big e.dirId.toNat e.bucket e.slotId.toNat

end FfsIoEnd

def FfsInodeInfo.handle (fi : FfsInodeInfo) : FfsIoEnd :=
  ⟨fi.dirId, fi.bucketId, fi.slotId, fi.isBigDir, fi.bigDirId⟩

def Object.place (x : Object) : Place :=
  if x.isDir then .dir x.fi.dirId.toNat else x.fi.handle.place

/-- The slot that a cell keeps: that of a live file, or that of a discard in flight. -/
def Cell.handle : Cell → Option FfsIoEnd
  | .gone => none
  | .live x => if x.isDir then none else some x.fi.handle
  | .discard ioEnd => some ioEnd

/-- Where a create puts the file: the first free slot of the name's bucket in the small or in the
big table, or slot 0 of a fresh big table. -/
def createPlace (sb : SbInfo) (dfi : FfsInodeInfo) (name : CStr) : Option Place :=
  let d := dfi.dirId.toNat
  if dfi.isBigDir = 0 then
    (sb.hashtbl d).bind fun ht =>
      let bkt := ht.buckets (smallBucket name)
      if ¬ bkt.Full then some (.small d (smallBucket name) bkt.freeSlot)
      else if FindsPosition sb then some (.big d (bigBucket name) 0)
      else none
  else
    (sb.bigDirHashtbl dfi.bigDirId.toNat).map fun ht =>
      .big d (bigBucket name) (ht.buckets (bigBucket name)).freeSlot

namespace World

def Clear (w : World) (p : Place) : Prop :=
  ∀ i < w.count, ∀ y ∈ (w.cell i).object, ¬ p.Clash y.place

/-- What keeps the inode numbers apart. A new directory finds an id, and no live object clashes
with it. The bucket of a new file in a big table has a free slot, and no live object clashes with
the place of a new file. No create needs a 65th position: the step function ends there, where the
code writes over `big_dir_bitmap` and goes on. The record of an issued discard is of the right
kind, which `init_handler_for_discard` does not see to. A removed directory has no file left in
it, and no discard of one is in flight. -/
def NoClash (w : World) : FsOp → Prop
  | .mkdir _ _ _ _ =>
    (getUnusedDirId w.sb.dtree.dirIdBitmap).1 ≠ 0 ∧
      w.Clear (.dir (getUnusedDirId w.sb.dtree.dirIdBitmap).1)
  | .create parent name _ => ∀ dir ∈ (w.cell parent).dir,
    (dir.fi.isBigDir ≠ 0 → ∀ ht ∈ w.sb.bigDirHashtbl dir.fi.bigDirId.toNat,
      ¬ (ht.buckets (bigBucket name)).Full) ∧
    (dir.fi.isBigDir = 0 → ∀ ht ∈ w.sb.hashtbl dir.fi.dirId.toNat,
      (ht.buckets (smallBucket name)).Full → HasFreePosition w.sb) ∧
    ∀ p ∈ createPlace w.sb dir.fi name, w.Clear p
  | .unlink f ioEnd submitted => submitted = true → ∀ x ∈ (w.cell f).file,
    (ioEnd.isBigDir = 0 ↔ x.fi.isBigDir = 0)
  | .complete _ => True
  | .rmdir child => ∀ x ∈ (w.cell child).dir, ∀ i < w.count, ∀ e ∈ (w.cell i).handle,
    e.dirId ≠ x.fi.dirId

instance (w : World) (p : Place) : Decidable (w.Clear p) :=
  inferInstanceAs (Decidable (∀ i < w.count, ∀ y ∈ (w.cell i).object, ¬ p.Clash y.place))

instance (w : World) : ∀ op, Decidable (w.NoClash op)
  | .mkdir _ _ _ _ => inferInstanceAs (Decidable (_ ∧ _))
  | .create _ _ _ => inferInstanceAs (Decidable (∀ _ ∈ _, _))
  | .unlink _ _ _ => inferInstanceAs (Decidable (_ → _))
  | .complete _ => inferInstanceAs (Decidable True)
  | .rmdir _ => inferInstanceAs (Decidable (∀ _ ∈ _, _))

structure DirOk (sb : SbInfo) (x : Object) : Prop where
  dirId : 0 ≤ x.fi.dirId
  lt : x.fi.dirId.toNat < 2 ^ 14
  used : sb.dtree.dirIdBitmap x.fi.dirId.toNat = true
  small : x.fi.isBigDir = 0 → x.fi.bigDirId = -1
  big : x.fi.isBigDir ≠ 0 → 0 ≤ x.fi.bigDirId ∧ sb.bigDirBitmap x.fi.bigDirId.toNat = true

structure Held (sb : SbInfo) (e : FfsIoEnd) : Prop where
  dirId : 0 ≤ e.dirId
  valid : e.place.Valid
  used : sb.dtree.dirIdBitmap e.dirId.toNat = true
  bit : sb.bit e.slot = true

def Owns (x : Object) (e : FfsIoEnd) : Prop :=
  x.fi.isBigDir ≠ 0 ∧ x.fi.dirId = e.dirId ∧ x.fi.bigDirId = e.bigDirId

structure Inv (w : World) : Prop where
  fresh : ∀ i, w.count ≤ i → w.cell i = .gone
  ids : ∀ d, (w.sb.dtree.de d).dirId = d
  dir : ∀ i x, (w.cell i).dir = some x → DirOk w.sb x
  dir_inj : ∀ i j x y, (w.cell i).dir = some x → (w.cell j).dir = some y →
    x.fi.dirId = y.fi.dirId → i = j
  pos_inj : ∀ i j x y, (w.cell i).dir = some x → (w.cell j).dir = some y →
    x.fi.isBigDir ≠ 0 → y.fi.isBigDir ≠ 0 → x.fi.bigDirId = y.fi.bigDirId → i = j
  held : ∀ i e, (w.cell i).handle = some e → Held w.sb e
  owner : ∀ i e, (w.cell i).handle = some e → e.isBigDir ≠ 0 →
    ∃ j x, (w.cell j).dir = some x ∧ Owns x e
  slot_inj : ∀ i j e e', (w.cell i).handle = some e → (w.cell j).handle = some e' →
    e.slot = e'.slot → i = j
  number : ∀ i x, (w.cell i).object = some x → x.ino.toNat = x.place.number
  apart : ∀ i j x y, (w.cell i).object = some x → (w.cell j).object = some y →
    ¬ x.place.Clash y.place

variable {w : World}

theorem DirOk.congr {sb sb' : SbInfo} {x : Object} (h : DirOk sb x)
    (hu : sb'.dtree.dirIdBitmap x.fi.dirId.toNat = true)
    (hb : x.fi.isBigDir ≠ 0 → sb'.bigDirBitmap x.fi.bigDirId.toNat = true) : DirOk sb' x :=
  ⟨h.dirId, h.lt, hu, h.small, fun hbig => ⟨(h.big hbig).1, hb hbig⟩⟩

theorem Held.congr {sb sb' : SbInfo} {e : FfsIoEnd} (h : Held sb e)
    (hu : sb'.dtree.dirIdBitmap e.dirId.toNat = true) (hb : sb'.bit e.slot = true) : Held sb' e :=
  ⟨h.dirId, h.valid, hu, hb⟩

theorem Inv.withSb (hi : Inv w) (sb : SbInfo) (hids : ∀ d, (sb.dtree.de d).dirId = d)
    (hdir : ∀ i x, (w.cell i).dir = some x → DirOk sb x)
    (hheld : ∀ i e, (w.cell i).handle = some e → Held sb e) : Inv { w with sb := sb } where
  fresh := hi.fresh
  ids := hids
  dir := hdir
  dir_inj := hi.dir_inj
  pos_inj := hi.pos_inj
  held := hheld
  owner := hi.owner
  slot_inj := hi.slot_inj
  number := hi.number
  apart := hi.apart

structure Fits (w : World) (i : ℕ) (c : Cell) : Prop where
  dir : ∀ x, c.dir = some x → DirOk w.sb x
  dir_ne : ∀ x, c.dir = some x → ∀ j ≠ i, ∀ y, (w.cell j).dir = some y →
    x.fi.dirId ≠ y.fi.dirId
  pos_ne : ∀ x, c.dir = some x → x.fi.isBigDir ≠ 0 → ∀ j ≠ i, ∀ y, (w.cell j).dir = some y →
    y.fi.isBigDir ≠ 0 → x.fi.bigDirId ≠ y.fi.bigDirId
  held : ∀ e, c.handle = some e → Held w.sb e
  owner : ∀ e, c.handle = some e → e.isBigDir ≠ 0 →
    ∃ j ≠ i, ∃ x, (w.cell j).dir = some x ∧ Owns x e
  slot_ne : ∀ e, c.handle = some e → ∀ j ≠ i, ∀ e', (w.cell j).handle = some e' →
    e.slot ≠ e'.slot
  number : ∀ x, c.object = some x → x.ino.toNat = x.place.number
  apart : ∀ x, c.object = some x → ∀ j ≠ i, ∀ y, (w.cell j).object = some y →
    ¬ x.place.Clash y.place
  orphans : ∀ x, (w.cell i).dir = some x → ∀ j ≠ i, ∀ e, (w.cell j).handle = some e →
    ¬ Owns x e

theorem not_clash_self (p : Place) : ¬ p.Clash p := by
  cases p <;> simp [Place.Clash]

theorem Inv.setCell (hi : Inv w) {i : ℕ} {c : Cell} (hlt : i < w.count) (hc : Fits w i c) :
    Inv (w.setCell i c) := by
  have hself := w.setCell_self i c
  have hne : ∀ j, j ≠ i → (w.setCell i c).cell j = w.cell j := fun j hj => w.setCell_of_ne hj c
  constructor
  case fresh =>
    intro j hj
    rw [hne j (by change w.count ≤ j at hj; omega)]
    exact hi.fresh j hj
  case ids => exact hi.ids
  case dir =>
    intro j x hx
    rcases eq_or_ne j i with rfl | hj
    · exact hc.dir x (hself ▸ hx)
    · exact hi.dir j x (hne j hj ▸ hx)
  case dir_inj =>
    intro j k x y hx hy he
    by_cases hj : j = i <;> by_cases hk : k = i
    · exact hj.trans hk.symm
    · subst hj
      exact absurd he (hc.dir_ne x (hself ▸ hx) k hk y (hne k hk ▸ hy))
    · subst hk
      exact absurd he.symm (hc.dir_ne y (hself ▸ hy) j hj x (hne j hj ▸ hx))
    · exact hi.dir_inj j k x y (hne j hj ▸ hx) (hne k hk ▸ hy) he
  case pos_inj =>
    intro j k x y hx hy hbx hby he
    by_cases hj : j = i <;> by_cases hk : k = i
    · exact hj.trans hk.symm
    · subst hj
      exact absurd he (hc.pos_ne x (hself ▸ hx) hbx k hk y (hne k hk ▸ hy) hby)
    · subst hk
      exact absurd he.symm (hc.pos_ne y (hself ▸ hy) hby j hj x (hne j hj ▸ hx) hbx)
    · exact hi.pos_inj j k x y (hne j hj ▸ hx) (hne k hk ▸ hy) hbx hby he
  case held =>
    intro j e he
    rcases eq_or_ne j i with rfl | hj
    · exact hc.held e (hself ▸ he)
    · exact hi.held j e (hne j hj ▸ he)
  case owner =>
    intro j e he hbig
    rcases eq_or_ne j i with rfl | hj
    · obtain ⟨k, hk, x, hx, hown⟩ := hc.owner e (hself ▸ he) hbig
      exact ⟨k, x, (hne k hk).symm ▸ hx, hown⟩
    · rw [hne j hj] at he
      obtain ⟨k, x, hx, hown⟩ := hi.owner j e he hbig
      have hk : k ≠ i := by
        rintro rfl
        exact hc.orphans x hx j hj e he hown
      exact ⟨k, x, (hne k hk).symm ▸ hx, hown⟩
  case slot_inj =>
    intro j k e e' he he' hs
    by_cases hj : j = i <;> by_cases hk : k = i
    · exact hj.trans hk.symm
    · subst hj
      exact absurd hs (hc.slot_ne e (hself ▸ he) k hk e' (hne k hk ▸ he'))
    · subst hk
      exact absurd hs.symm (hc.slot_ne e' (hself ▸ he') j hj e (hne j hj ▸ he))
    · exact hi.slot_inj j k e e' (hne j hj ▸ he) (hne k hk ▸ he') hs
  case number =>
    intro j x hx
    rcases eq_or_ne j i with rfl | hj
    · exact hc.number x (hself ▸ hx)
    · exact hi.number j x (hne j hj ▸ hx)
  case apart =>
    intro j k x y hx hy
    by_cases hj : j = i <;> by_cases hk : k = i
    · rw [hj, hself] at hx
      rw [hk, hself] at hy
      cases hx.symm.trans hy
      exact not_clash_self x.place
    · subst hj
      exact hc.apart x (hself ▸ hx) k hk y (hne k hk ▸ hy)
    · subst hk
      exact fun h => hc.apart y (hself ▸ hy) j hj x (hne j hj ▸ hx) h.symm
    · exact hi.apart j k x y (hne j hj ▸ hx) (hne k hk ▸ hy)

theorem dir_of_object {c : Cell} {x : Object} (h : c.object = some x) (hd : x.isDir = true) :
    c.dir = some x := by
  rw [Cell.dir, h, Option.filter_some_pos hd]

theorem handle_of_object {c : Cell} {x : Object} (h : c.object = some x) (hd : x.isDir = false) :
    c.handle = some x.fi.handle := by
  cases c with
  | live y =>
    cases h
    simp [Cell.handle, hd]
  | gone => cases h
  | discard e => cases h

/-- A big directory owns one table, so that a place of it is one slot. -/
theorem Inv.slot_eq (hi : Inv w) {i j : ℕ} {e e' : FfsIoEnd} (he : (w.cell i).handle = some e)
    (he' : (w.cell j).handle = some e') (h : e.place = e'.place) : e.slot = e'.slot := by
  have hd := (hi.held i e he).dirId
  have hd' := (hi.held j e' he').dirId
  by_cases hb : e.isBigDir = 0 <;> by_cases hb' : e'.isBigDir = 0 <;>
    simp only [FfsIoEnd.place, hb, hb', if_true, if_false, reduceCtorEq, Place.small.injEq,
      Place.big.injEq] at h
  · rw [FfsIoEnd.slot, FfsIoEnd.slot, FfsIoEnd.table, FfsIoEnd.table, if_pos hb, if_pos hb', h.1,
      h.2.1, h.2.2]
  · obtain ⟨k, x, hx, -, hxd, hxp⟩ := hi.owner i e he hb
    obtain ⟨k', x', hx', -, hxd', hxp'⟩ := hi.owner j e' he' hb'
    -- both owners have the id, so that they are one directory with one table
    have hdir : x.fi.dirId = x'.fi.dirId := by omega
    obtain rfl := hi.dir_inj k k' x x' hx hx' hdir
    cases hx.symm.trans hx'
    rw [FfsIoEnd.slot, FfsIoEnd.slot, FfsIoEnd.table, FfsIoEnd.table, if_neg hb, if_neg hb',
      ← hxp, ← hxp', h.2.1, h.2.2]

theorem Inv.place_valid (hi : Inv w) {i : ℕ} {x : Object} (hx : (w.cell i).object = some x) :
    x.place.Valid := by
  cases hd : x.isDir with
  | true =>
    rw [Object.place, hd]
    exact (hi.dir i x (dir_of_object hx hd)).lt
  | false =>
    rw [Object.place, hd]
    exact (hi.held i _ (handle_of_object hx hd)).valid

theorem Inv.place_inj (hi : Inv w) {i j : ℕ} {x y : Object} (hx : (w.cell i).object = some x)
    (hy : (w.cell j).object = some y) (h : x.place = y.place) : i = j := by
  cases hdx : x.isDir <;> cases hdy : y.isDir <;>
    simp only [Object.place, hdx, hdy, if_true, Bool.false_eq_true, if_false] at h
  · have hex := handle_of_object hx hdx
    have hey := handle_of_object hy hdy
    exact hi.slot_inj i j _ _ hex hey (hi.slot_eq hex hey h)
  · unfold FfsIoEnd.place at h
    split_ifs at h
  · unfold FfsIoEnd.place at h
    split_ifs at h
  · have hxd := dir_of_object hx hdx
    have hyd := dir_of_object hy hdy
    have hd := (hi.dir i x hxd).dirId
    have hd' := (hi.dir j y hyd).dirId
    refine hi.dir_inj i j x y hxd hyd ?_
    rw [Place.dir.injEq] at h
    omega

theorem Inv.distinctInos (hi : Inv w) : w.DistinctInos := by
  intro i j x y hx hy he
  have hnum : x.place.number = y.place.number := by
    rw [← hi.number i x hx, ← hi.number j y hy, he]
  -- two places with one number are the same or clash
  rcases (Place.number_eq_iff (hi.place_valid hx) (hi.place_valid hy)).mp hnum with hp | hclash
  · exact hi.place_inj hx hy hp
  · exact absurd hclash (hi.apart i j x y hx hy)

end World

end FlatFS
