import FlatFS.LinkRun
import FlatFS.SlotOwners

namespace FlatFS
open Lib Function

/-- The segment of a big file is below `2 ^ 21`, that of the ninth file of a bucket too. -/
theorem insertBigFile_lt (ht : BigDirHashTable) (name : CStr) :
    (insertBigFile ht name).1.toNat < 2 ^ 21 := by
  have hb := bigBucket_lt name
  have hs := (ht.buckets (bigBucket name)).freeSlot_le
  unfold bigBucket at hb
  rw [insertBigFile_eq]
  simp only [fileSeg, BitVec.toNat_or, BitVec.toNat_setWidth, BitVec.toNat_ofNat,
    BitVec.toNat_shiftLeft, Nat.shiftLeft_eq, Nat.zero_mod, Nat.zero_or]
  norm_num at hb ⊢
  exact Nat.or_lt_two_pow (n := 21) (by omega) (by omega)

/-- No create in a big table fails for want of a slot. -/
theorem bigFileSlotAlloc_eq (ht : BigDirHashTable) (d : ℤ) (name : CStr) :
    flatfsBigFileSlotAllocByName ht d name =
      (segIno (fileSlotBits + minFileBucketBits + minDirBits) (insertBigFile ht name).1 d,
        (insertBigFile ht name).2) := if_neg (insertBigFile_ne_neg_one ht name)

theorem bigSlotAlloc_toNat (ht : BigDirHashTable) (d : ℕ) (name : CStr) :
    (flatfsBigFileSlotAllocByName ht d name).1.toNat =
      bigDirField d + (insertBigFile ht name).1.toNat := by
  have hlt := insertBigFile_lt ht name
  have hseg : (insertBigFile ht name).1.toNat = (insertBigFile ht name).1.toNat / 8 * 8 +
      (insertBigFile ht name).1.toNat % 8 := by omega
  have hino := segIno_big d hseg (by omega) (by omega)
  rw [bigFileSlotAlloc_eq]
  dsimp only
  omega

/-- The bucket that is stored for a big file has the low eight bits of the directory id above the
bits of a bucket. -/
theorem bigFileInfo_bucketId (ht : BigDirHashTable) (d : ℕ) (pos : ℤ) (mem : FfsName)
    (name : CStr) :
    ∃ b < 2 ^ 18, (bigFileInfo d pos (flatfsBigFileSlotAllocByName ht d name).1 mem name).bucketId =
      (d % 2 ^ 8 * 2 ^ 18 + b : ℕ) := by
  have hlt := insertBigFile_lt ht name
  exact ⟨_, by omega, (bigIno_decodes hlt (bigSlotAlloc_toNat ht d name)).1⟩

section mknod

variable {sb : SbInfo} {dfi : FfsInodeInfo} {mem : FfsName} {name : CStr} {r : MknodResult}

/-- A create leaves the big tables alone, or it is one in the big table of the directory, which may
have been promoted for it. -/
theorem mknodFile_big (h : ffsMknodFile sb dfi mem name = some r) :
    (r.sb.bigDirHashtbl = sb.bigDirHashtbl ∧ r.dfi = dfi ∧
        ∀ ino fi, r.created = some (ino, fi) → fi.isBigDir = 0) ∨
      (dfi.isBigDir ≠ 0 ∧ mknodBigFile sb dfi mem name = some r) ∨
      ∃ (sb' : SbInfo) (pos : ℕ), dfi.isBigDir = 0 ∧ sb.bigDirBitmap pos = false ∧
        sb'.bigDirHashtbl = update sb.bigDirHashtbl pos (some initBigFileHt) ∧
        mknodBigFile sb' { dfi with isBigDir := 1, bigDirId := pos } mem name = some r := by
  unfold ffsMknodFile mknodFileBy at h
  split_ifs at h with hbig
  · obtain ⟨ht, -, h⟩ := Option.bind_eq_some_iff.mp h
    dsimp only at h
    split_ifs at h with hfull
    · obtain ⟨⟨pos, sb'⟩, hres, h⟩ := Option.bind_eq_some_iff.mp h
      dsimp only at h
      split_ifs at h with hpos
      · cases h
        rw [resizeDir_eq] at hres
        split_ifs at hres
        · cases hres
          exact .inl ⟨rfl, rfl, fun ino fi hc => by cases hc⟩
        · cases hres
          omega
      · right; right
        rw [resizeDir_eq] at hres
        split_ifs at hres with hnum hlt
        · cases hres
          exact absurd rfl hpos
        · cases hres
          refine ⟨_, _, hbig, ?_, rfl, h⟩
          exact Bitmap.firstZero_clear (hlt.trans (by norm_num))
    · cases h
      refine .inl ⟨rfl, rfl, fun ino fi hc => ?_⟩
      cases hc
      rfl
  · exact .inr (.inl ⟨hbig, h⟩)

theorem mknodBigFile_spec {d : ℕ} (h : mknodBigFile sb dfi mem name = some r)
    (hdfi : dfi.dirId = d) :
    (∃ (ht : BigDirHashTable) (slt : ℕ), sb.bigDirHashtbl dfi.bigDirId.toNat = some ht ∧
        r.sb.bigDirHashtbl = update sb.bigDirHashtbl dfi.bigDirId.toNat
          (some (ht.modify (bigBucket name) (·.take slt)))) ∧
      r.dfi = dfi ∧ ∀ ino fi, r.created = some (ino, fi) → fi.isBigDir = 1 ∧ fi.dirId = d ∧
        fi.bigDirId = dfi.bigDirId ∧ ∃ b < 2 ^ 18, fi.bucketId = (d % 2 ^ 8 * 2 ^ 18 + b : ℕ) := by
  obtain ⟨hsame, hcreated⟩ := mknodBigFile_result h
  obtain ⟨ht, hht, rfl⟩ := Option.map_eq_some_iff.mp h
  have htab : (flatfsBigFileSlotAllocByName ht dfi.dirId name).2 = ht.modify (bigBucket name)
      (·.take (ht.buckets (bigBucket name)).freeSlot) := by
    rw [bigFileSlotAlloc_eq, insertBigFile_eq]
  refine ⟨⟨ht, _, hht, by rw [← htab]⟩, hsame, fun ino fi hc => ?_⟩
  rw [hcreated ino fi hc, hdfi]
  refine ⟨rfl, rfl, rfl, ?_⟩
  dsimp only at hc
  split_ifs at hc
  cases hc
  rw [hdfi]
  exact bigFileInfo_bucketId ht d _ mem name

/-- A create leaves the directory as it is or promotes it, and a big file that it makes is one of
the directory as it is afterwards. -/
theorem mknodFile_bigFile {d : ℕ} (h : ffsMknodFile sb dfi mem name = some r)
    (hdfi : dfi.dirId = d) :
    (r.dfi = dfi ∨ dfi.isBigDir = 0) ∧ ∀ ino fi, r.created = some (ino, fi) → fi.isBigDir ≠ 0 →
      (r.dfi.isBigDir ≠ 0 ∧ r.dfi.dirId = fi.dirId ∧ r.dfi.bigDirId = fi.bigDirId) ∧
      ∃ b < 2 ^ 18, fi.bucketId = (fi.dirId.toNat % 2 ^ 8 * 2 ^ 18 + b : ℕ) := by
  have hone : (1 : UInt8) ≠ 0 := by decide
  rcases mknodFile_big h with ⟨-, hsame, hsmall⟩ | ⟨hbig, hr⟩ | ⟨sb', pos, hsmall, -, -, hr⟩
  · exact ⟨.inl hsame, fun ino fi hc hne => absurd (hsmall ino fi hc) hne⟩
  · obtain ⟨-, hsame, hcreated⟩ := mknodBigFile_spec hr hdfi
    refine ⟨.inl hsame, fun ino fi hc _ => ?_⟩
    obtain ⟨-, hid, hq, hb⟩ := hcreated ino fi hc
    rw [hsame, hid, hq, Int.toNat_natCast]
    exact ⟨⟨hbig, hdfi, rfl⟩, hb⟩
  · obtain ⟨-, hsame, hcreated⟩ := mknodBigFile_spec hr hdfi
    refine ⟨.inr hsmall, fun ino fi hc _ => ?_⟩
    obtain ⟨-, hid, hq, hb⟩ := hcreated ino fi hc
    rw [hsame, hid, hq, Int.toNat_natCast]
    exact ⟨⟨hone, hdfi, rfl⟩, hb⟩

end mknod

namespace World

def HasBigDir (w : World) (d q : ℤ) : Prop :=
  ∃ j x, (w.cell j).dir = some x ∧ x.fi.isBigDir ≠ 0 ∧ x.fi.dirId = d ∧ x.fi.bigDirId = q

end World

/-- A record of a file in a big table: its directory is there, and its bucket number has bits of
the directory id. -/
def FfsIoEnd.BigOk (w : World) (e : FfsIoEnd) : Prop :=
  e.isBigDir ≠ 0 → w.HasBigDir e.dirId e.bigDirId ∧
    ∃ b < 2 ^ 18, e.bucketId = (e.dirId.toNat % 2 ^ 8 * 2 ^ 18 + b : ℕ)

namespace World

def BigInv (w : World) : Prop := ∀ i, ∀ e ∈ (w.cell i).handle, e.BigOk w

variable {w w' : World}

theorem BigInv.change (hi : BigInv w) {i : ℕ} (hsame : ∀ j ≠ i, w'.cell j = w.cell j)
    (hdirs : ∀ j ≠ i, ∀ e ∈ (w.cell j).handle, w.HasBigDir e.dirId e.bigDirId →
      w'.HasBigDir e.dirId e.bigDirId)
    (hnew : ∀ e ∈ (w'.cell i).handle, e.BigOk w') : BigInv w' := by
  intro j e he
  by_cases hj : j = i
  · exact hnew e (hj ▸ he)
  · rw [hsame j hj] at he
    intro hbig
    obtain ⟨hdir, hbucket⟩ := hi j e he hbig
    exact ⟨hdirs j hj e he hdir, hbucket⟩

theorem HasBigDir.keep {d q : ℤ} (h : w.HasBigDir d q) {i : ℕ}
    (hsame : ∀ j ≠ i, w'.cell j = w.cell j)
    (hi : ∀ x, (w.cell i).dir = some x → x.fi.isBigDir = 0) : w'.HasBigDir d q := by
  obtain ⟨j, x, hx, hbig, hd, hq⟩ := h
  refine ⟨j, x, ?_, hbig, hd, hq⟩
  rwa [hsame j fun he => hbig (hi x (he ▸ hx))]

theorem BigInv.mkdir (hi : BigInv w) (hd : DirsInv w) {sb : SbInfo} {x : Object}
    (hx : x.isDir = true) : BigInv ({ w with sb := sb }.add x) := by
  have hsame : ∀ j ≠ w.count, ({ w with sb := sb }.add x).cell j = w.cell j :=
    fun j hj => setCell_of_ne _ hj _
  refine hi.change hsame (fun j _ e _ h => h.keep hsame fun y hy => ?_) fun e he => ?_
  · exact absurd (hd.lt_count hy) (lt_irrefl _)
  · have hcell : ({ w with sb := sb }.add x).cell w.count = .live x := setCell_self ..
    rw [hcell, handle_live_dir hx] at he
    cases he

theorem BigInv.setDir (hi : BigInv w) {p : ℕ} {dir : Object} (hdir : (w.cell p).dir = some dir)
    {dfi : FfsInodeInfo} (hdfi : dfi = dir.fi ∨ dir.fi.isBigDir = 0) (sb : SbInfo) :
    BigInv ({ w with sb := sb }.setCell p (.live { dir with fi := dfi })) := by
  have hnew := dir_withInfo hdir dfi
  have hsame : ∀ j ≠ p, ({ w with sb := sb }.setCell p (.live { dir with fi := dfi })).cell j =
      w.cell j := fun j hj => setCell_of_ne _ hj _
  refine hi.change hsame (fun j _ e _ h => ?_) fun e he => ?_
  · rcases hdfi with heq | hsmall
    · obtain ⟨k, x, hx, hrest⟩ := h
      by_cases hk : k = p
      · rw [hk, hdir] at hx
        cases hx
        refine ⟨p, dir, ?_, hrest⟩
        rw [setCell_self, hnew, heq]
      · exact ⟨k, x, by rwa [hsame k hk], hrest⟩
    · refine h.keep hsame fun x hx => ?_
      cases hdir.symm.trans hx
      exact hsmall
  · rw [setCell_self, handle_live_dir (object_of_dir hnew).2] at he
    cases he

theorem BigInv.create (hi : BigInv w) (hd : DirsInv w) {p : ℕ} {dir : Object}
    (hdir : (w.cell p).dir = some dir) {mem : FfsName} {name : CStr} {r : MknodResult}
    (hr : ffsMknodFile w.sb dir.fi mem name = some r) :
    BigInv (({ w with sb := r.sb }.setCell p (.live { dir with fi := r.dfi })).addFile p
      r.created) := by
  obtain ⟨hdfi, hfile⟩ := mknodFile_bigFile hr (hd.dirId_nat hdir)
  have hset := hi.setDir hdir hdfi r.sb
  cases hc : r.created with
  | none => exact hset
  | some f =>
    obtain ⟨ino, fi⟩ := f
    have hlt := hd.lt_count hdir
    have hsame : ∀ j ≠ w.count, (({ w with sb := r.sb }.setCell p
        (.live { dir with fi := r.dfi })).addFile p (some (ino, fi))).cell j =
          ({ w with sb := r.sb }.setCell p (.live { dir with fi := r.dfi })).cell j :=
      fun j hj => setCell_of_ne _ hj _
    refine hset.change hsame (fun j _ e _ h => h.keep hsame fun x hx => ?_) fun e he => ?_
    · rw [setCell_of_ne _ hlt.ne', hd.dir_count] at hx
      cases hx
    · have hcell : (({ w with sb := r.sb }.setCell p (.live { dir with fi := r.dfi })).addFile p
          (some (ino, fi))).cell w.count = .live ⟨ino, fi, false, some p⟩ := setCell_self ..
      rw [hcell] at he
      cases he
      intro hbig
      obtain ⟨⟨hpbig, hid, hq⟩, hb⟩ := hfile ino fi hc hbig
      refine ⟨⟨p, { dir with fi := r.dfi }, ?_, hpbig, hid, hq⟩, hb⟩
      rw [hsame p hlt.ne, setCell_self, dir_withInfo hdir]

theorem BigInv.unlink (hi : BigInv w) {f : ℕ} {x : Object} (hx : (w.cell f).file = some x)
    {ioEnd : FfsIoEnd} (hkind : ioEnd.isBigDir = 0 ↔ x.fi.isBigDir = 0) :
    BigInv (w.setCell f (.discard (initHandlerForDiscard ioEnd x.fi))) := by
  obtain ⟨hcell, hf⟩ := object_of_file hx
  have hsame : ∀ c, ∀ j ≠ f, (w.setCell f c).cell j = w.cell j := fun c j hj => setCell_of_ne _ hj _
  have hkeep : ∀ c d q, w.HasBigDir d q → (w.setCell f c).HasBigDir d q := fun c d q h =>
    h.keep (hsame c) fun y hy => absurd hy (dir_ne_of_file hx y)
  refine hi.change (hsame _) (fun j _ e _ h => hkeep _ _ _ h) fun e he => ?_
  rw [setCell_self] at he
  cases he
  intro hbig
  obtain ⟨hdir, hbucket⟩ := hi f x.fi.handle (handle_of_object (hcell ▸ rfl) hf)
    (hkind.not.mp hbig)
  exact ⟨hkeep _ _ _ hdir, hbucket⟩

theorem BigInv.complete (hi : BigInv w) {f : ℕ} {e : FfsIoEnd} (hcell : w.cell f = .discard e)
    (sb : SbInfo) : BigInv ({ w with sb := sb }.setCell f .gone) := by
  have hsame : ∀ j ≠ f, ({ w with sb := sb }.setCell f .gone).cell j = w.cell j :=
    fun j hj => setCell_of_ne _ hj _
  refine hi.change hsame (fun j _ e' _ h => h.keep hsame fun y hy => ?_) fun e' he => ?_
  · rw [hcell] at hy
    cases hy
  · rw [setCell_self] at he
    cases he

theorem BigInv.rmdir (hi : BigInv w) {child : ℕ} {x : Object} (hx : (w.cell child).dir = some x)
    (hleft : ∀ j, ∀ e ∈ (w.cell j).handle, e.dirId ≠ x.fi.dirId) (sb : SbInfo) :
    BigInv ({ w with sb := sb }.setCell child .gone) := by
  have hsame : ∀ j ≠ child, ({ w with sb := sb }.setCell child .gone).cell j = w.cell j :=
    fun j hj => setCell_of_ne _ hj _
  refine hi.change hsame (fun j _ e he h => ?_) fun e he => ?_
  · obtain ⟨k, y, hy, hbig, hid, hq⟩ := h
    have hne : k ≠ child := by
      intro hk
      rw [hk, hx] at hy
      cases hy
      exact hleft j e he hid.symm
    exact ⟨k, y, by rwa [hsame k hne], hbig, hid, hq⟩
  · rw [setCell_self] at he
    cases he

theorem BigInv.step (hi : BigInv w) (hd : DirsInv w) (hfresh : ∀ i, w.count ≤ i → w.cell i = .gone)
    {op : FsOp} (hok : w.KeepsSlots op) (hs : w.step op = some w') : BigInv w' := by
  cases op with
  | mkdir parent name mem dle =>
    obtain ⟨dir, -, rfl⟩ := Option.map_eq_some_iff.mp hs
    exact hi.mkdir hd rfl
  | create parent name mem =>
    obtain ⟨dir, r, hdir, hr, rfl⟩ := step_create hs
    exact hi.create hd hdir hr
  | unlink f ioEnd submitted =>
    obtain ⟨x, hx, rfl⟩ := Option.map_eq_some_iff.mp hs
    rw [if_pos hok.1]
    exact hi.unlink hx (hok.2 x hx)
  | complete f =>
    obtain ⟨e, hcell, -, rfl⟩ := step_complete hs
    exact hi.complete hcell _
  | rmdir child =>
    obtain ⟨x, p, dir, hx, -, -, rfl | rfl⟩ := step_rmdir hs
    · refine hi.rmdir hx (fun j e he => ?_) _
      have hjlt : j < w.count := by
        by_contra hge
        rw [hfresh j (not_lt.mp hge)] at he
        cases he
      exact hok.2 x hx j hjlt e he
    · exact hi

end World

def KeepsBig (sb sb' : SbInfo) (q : ℕ) : Prop :=
  ∀ b slt, sb.bit (.big q, b, slt) = true → sb'.bit (.big q, b, slt) = true

theorem keepsBig_of_eq {sb sb' : SbInfo} {q : ℕ} (h : sb'.bigDirHashtbl q = sb.bigDirHashtbl q) :
    KeepsBig sb sb' q := by
  intro b slt hbit
  rw [SbInfo.bit_congr]
  · exact hbit
  · exact h

theorem keepsBig_take {sb sb' : SbInfo} {q b slt : ℕ} {ht : BigDirHashTable}
    (hht : sb.bigDirHashtbl q = some ht)
    (h : sb'.bigDirHashtbl q = some (ht.modify b (·.take slt))) : KeepsBig sb sb' q := by
  intro b' slt' hbit
  have hsame : sb'.bit (.big q, b', slt') =
      (sb.setTable (.big q) (some (ht.modify b (·.take slt)))).bit (.big q, b', slt') := by
    apply SbInfo.bit_congr
    rw [SbInfo.table_setTable, if_pos rfl]
    exact h
  rw [hsame, SbInfo.bit_take (t := .big q) hht]
  exact .inr hbit

namespace World

variable {w w' : World} {i : ℕ} {dir : Object}

theorem keepsBig_create (hd : DirsInv w) (hdir : (w.cell i).dir = some dir)
    (hbig : dir.fi.isBigDir ≠ 0) {p : ℕ} {pdir : Object} (hp : (w.cell p).dir = some pdir)
    {mem : FfsName} {name : CStr} {r : MknodResult}
    (hr : ffsMknodFile w.sb pdir.fi mem name = some r) :
    KeepsBig w.sb r.sb dir.fi.bigDirId.toNat := by
  have hpd := hd.dirId_nat hp
  rcases mknodFile_big hr with ⟨hsame, -⟩ | ⟨-, hr⟩ | ⟨sb', pos, hsmall, hclear, hsb', hr⟩
  · exact keepsBig_of_eq (congrFun hsame _)
  · obtain ⟨⟨ht, slt, hht, htab⟩, -⟩ := mknodBigFile_spec hr hpd
    by_cases hq : dir.fi.bigDirId.toNat = pdir.fi.bigDirId.toNat
    · rw [hq]
      exact keepsBig_take hht (by rw [htab, update_self])
    · exact keepsBig_of_eq (by rw [htab, update_of_ne hq])
  · -- the new position was free
    obtain ⟨⟨ht, slt, -, htab⟩, -⟩ := mknodBigFile_spec hr hpd
    have hq : dir.fi.bigDirId.toNat ≠ pos := by
      intro he
      have hset := (hd.positions.used_iff _).mpr ⟨i, positions_big hdir hbig⟩
      rw [he, hclear] at hset
      cases hset
    refine keepsBig_of_eq ?_
    rw [htab, Int.toNat_natCast, update_of_ne hq, hsb', update_of_ne hq]

/-- The discard of a big file is refused, unless the directory has an id with eight zeros. -/
theorem keepsBig_complete (hi : BigInv w) (hd : DirsInv w) (hdir : (w.cell i).dir = some dir)
    (hbig : dir.fi.isBigDir ≠ 0) (hid : dir.fi.dirId.toNat % 2 ^ 8 ≠ 0) {f : ℕ} {e : FfsIoEnd}
    (hcell : w.cell f = .discard e) (hfault : ¬ callbackFaults w.sb e) :
    KeepsBig w.sb (callbackForDiscard w.sb e) dir.fi.bigDirId.toNat := by
  apply keepsBig_of_eq
  by_cases hsmall : e.isBigDir = 0
  · rw [callbackForDiscard, if_pos hsmall]
  · obtain ⟨⟨j, x, hx, hxbig, hxd, hxq⟩, b, hb, hbucket⟩ := hi f e (by rw [hcell]; rfl) hsmall
    rw [callbackForDiscard, if_neg hsmall]
    dsimp only
    by_cases hq : dir.fi.bigDirId.toNat = e.bigDirId.toNat
    · -- then it is a file of this directory, and its bucket number is too large
      have hij : i = j := hd.positions.inj i j _ (positions_big hdir hbig)
        (by rw [hq, ← hxq]; exact positions_big hx hxbig)
      cases (hij ▸ hdir).symm.trans hx
      have hlarge : (2 : ℤ) ^ 18 ≤ e.bucketId := by
        rw [hbucket, ← hxd]
        push_cast
        omega
      have h18 : (1 <<< (minFileBucketBits + minDirBits) : ℤ) = 2 ^ 18 := rfl
      rw [callbackFaults, if_neg hsmall, h18] at hfault
      have hne : e.bucketId ≠ 2 ^ 18 := fun he => hfault (.inr (.inl he))
      have hdel : ∀ ht, (deleteBigFile ht e.bucketId e.slotId).2 = ht := by
        intro ht
        rw [deleteBigFile, deleteSlot, if_pos]
        exact .inr (.inl (by rw [h18]; omega))
      rw [hq, update_self]
      simp [hdel]
    · rw [update_of_ne hq]

/-- A promoted directory stays as it is in a create, of a file in it or in another. -/
theorem bigDir_create (hd : DirsInv w) (hdir : (w.cell i).dir = some dir)
    (hbig : dir.fi.isBigDir ≠ 0) {p : ℕ} {pdir : Object} (hp : (w.cell p).dir = some pdir)
    {mem : FfsName} {name : CStr} {r : MknodResult}
    (hr : ffsMknodFile w.sb pdir.fi mem name = some r) :
    ((({ w with sb := r.sb }.setCell p (.live { pdir with fi := r.dfi })).addFile p
      r.created).cell i).dir = some dir := by
  by_cases hip : i = p
  · subst hip
    cases hdir.symm.trans hp
    have hsame := (mknodFile_bigFile hr (hd.dirId_nat hdir)).1.resolve_right hbig
    rw [dir_after_create hd hdir, hsame]
  · have hset : ({ w with sb := r.sb }.setCell p (.live { pdir with fi := r.dfi })).cell i =
        w.cell i := setCell_of_ne _ hip _
    cases r.created with
    | none => rwa [addFile, hset]
    | some f =>
      refine (congrArg Cell.dir (setCell_of_ne _ (hd.lt_count hdir).ne _)).trans ?_
      rwa [hset]

theorem keepsBig_rmdir (hd : DirsInv w) (hids : ∀ d, (w.sb.dtree.de d).dirId = d)
    (hdir : (w.cell i).dir = some dir) (hbig : dir.fi.isBigDir ≠ 0) {child : ℕ} {x : Object}
    (hx : (w.cell child).dir = some x) (hne : i ≠ child) (parentIno : BitVec 64) :
    KeepsBig w.sb (removeDir w.sb parentIno x.ino x.fi.bigDirId) dir.fi.bigDirId.toNat := by
  apply keepsBig_of_eq
  refine ((removeDir_frame hids parentIno (hd.dirId_ino hx) x.fi.bigDirId).2.2 _ ?_).2
  intro he
  have hxbig : x.fi.isBigDir ≠ 0 := by
    intro hxsmall
    have hq := hd.bigDirId child x hx
    rw [if_pos hxsmall] at hq
    omega
  apply hne
  refine hd.positions.inj i child _ (positions_big hdir hbig) ?_
  rw [positions_big hx hxbig, ← he, Int.toNat_natCast]

/-- Unless it is removed itself, a promoted directory stays as it is and its slots stay taken. -/
theorem keepsBig_step (hi : BigInv w) (hd : DirsInv w) (hids : ∀ d, (w.sb.dtree.de d).dirId = d)
    (hdir : (w.cell i).dir = some dir) (hbig : dir.fi.isBigDir ≠ 0)
    (hid : dir.fi.dirId.toNat % 2 ^ 8 ≠ 0) {op : FsOp} (hne : op ≠ .rmdir i)
    (hs : w.step op = some w') :
    (w'.cell i).dir = some dir ∧ KeepsBig w.sb w'.sb dir.fi.bigDirId.toNat := by
  cases op with
  | mkdir parent name mem dle =>
    obtain ⟨pdir, -, rfl⟩ := Option.map_eq_some_iff.mp hs
    have hlt := hd.lt_count hdir
    exact ⟨(congrArg Cell.dir (setCell_of_ne _ hlt.ne _)).trans hdir, keepsBig_of_eq rfl⟩
  | create p name mem =>
    obtain ⟨pdir, r, hp, hr, rfl⟩ := step_create hs
    refine ⟨bigDir_create hd hdir hbig hp hr, ?_⟩
    have hkeep := keepsBig_create hd hdir hbig hp hr
    cases r.created with
    | none => exact hkeep
    | some f => exact hkeep
  | unlink f ioEnd submitted =>
    obtain ⟨x, hx, rfl⟩ := Option.map_eq_some_iff.mp hs
    have hif : i ≠ f := fun he => dir_ne_of_file (he ▸ hx) dir hdir
    rw [setCell_of_ne _ hif]
    exact ⟨hdir, keepsBig_of_eq rfl⟩
  | complete f =>
    obtain ⟨e, hcell, hfault, rfl⟩ := step_complete hs
    have hif : i ≠ f := by
      intro he
      rw [he, hcell] at hdir
      cases hdir
    rw [setCell_of_ne _ hif]
    exact ⟨hdir, keepsBig_complete hi hd hdir hbig hid hcell hfault⟩
  | rmdir child =>
    obtain ⟨x, p, pdir, hx, -, -, rfl | rfl⟩ := step_rmdir hs
    · have hic : i ≠ child := fun he => hne (congrArg FsOp.rmdir he.symm)
      rw [setCell_of_ne _ hic]
      exact ⟨hdir, keepsBig_rmdir hd hids hdir hbig hx hic pdir.ino⟩
    · exact ⟨hdir, keepsBig_of_eq rfl⟩

end World

/-- The number that a file gets in a full bucket of a big table: slot 8 is or'ed into the bucket. -/
def overflowIno (dirId : ℤ) (bkt : ℕ) : BitVec 64 :=
  segIno (fileSlotBits + minFileBucketBits + minDirBits) (fileSeg 8#8 (BitVec.ofNat 64 bkt)) dirId

theorem overflowIno_ne (d : ℕ) {bkt : ℕ} (hb : bkt < 2 ^ 18) : overflowIno d bkt ≠ minusOne := by
  have hseg : (fileSeg 8#8 (BitVec.ofNat 64 bkt)).toNat = 8 ||| bkt * 8 := by
    simp only [fileSeg, BitVec.toNat_or, BitVec.toNat_setWidth, BitVec.toNat_ofNat,
      BitVec.toNat_shiftLeft, Nat.shiftLeft_eq, Nat.zero_mod, Nat.zero_or]
    norm_num
    rw [Nat.mod_eq_of_lt (by omega)]
  have hlt : 8 ||| bkt * 8 < 2 ^ 21 := Nat.or_lt_two_pow (by norm_num) (by omega)
  have hlow : (8 ||| bkt * 8) % 2 ^ 3 = 0 := by
    rw [Nat.or_mod_two_pow]
    norm_num
  -- the three lowest bits are clear
  have hsplit : (fileSeg 8#8 (BitVec.ofNat 64 bkt)).toNat = (8 ||| bkt * 8) / 8 * 8 + 0 := by omega
  have hino := segIno_big d hsplit (by omega) (by norm_num)
  have hdvd := bigDirField_dvd d
  intro he
  rw [overflowIno] at he
  rw [he, minusOne_toNat] at hino
  omega

theorem insertBigFile_full {ht : BigDirHashTable} {name : CStr}
    (hf : (ht.buckets (bigBucket name)).Full) (d : ℤ) :
    (flatfsBigFileSlotAllocByName ht d name).1 = overflowIno d (bigBucket name) := by
  rw [bigFileSlotAlloc_eq, insertBigFile_eq, (Bucket.full_iff _).mp hf, overflowIno, bigBucket,
    BitVec.ofNat_toNat, BitVec.setWidth_eq]

section

variable {mem : ℕ → ℕ → UInt8} {heap : ℕ → DirListEntry} {rootMem : FfsName} {w w' : World}
  {i : ℕ} {dir : Object}

theorem bigInv_run (h : Reach World.step World.KeepsSlots (World.mounted mem heap rootMem) w) :
    World.BigInv w := by
  apply h.invariant_reached World.BigInv
  · intro i e he
    change e ∈ (update (fun _ => Cell.gone) 0 (.live _) i).handle at he
    rw [update_apply] at he
    split_ifs at he <;> cases he
  · intro w op w' hr hi hok hs
    exact hi.step (slots_run hr).2 (fun j hj => fresh_cell hr hj) hok hs

def World.Keeps (i : ℕ) (w : World) : FsOp → Prop
  | .rmdir child => child ≠ i ∧ w.KeepsSlots (.rmdir child)
  | op => w.KeepsSlots op

instance (i : ℕ) (w : World) : ∀ op, Decidable (w.Keeps i op)
  | .rmdir child => inferInstanceAs (Decidable (child ≠ i ∧ w.KeepsSlots (.rmdir child)))
  | .mkdir p name mem dle => inferInstanceAs (Decidable (w.KeepsSlots (.mkdir p name mem dle)))
  | .create p name mem => inferInstanceAs (Decidable (w.KeepsSlots (.create p name mem)))
  | .unlink f e submitted => inferInstanceAs (Decidable (w.KeepsSlots (.unlink f e submitted)))
  | .complete f => inferInstanceAs (Decidable (w.KeepsSlots (.complete f)))

theorem World.Keeps.slots {i : ℕ} {w : World} {op : FsOp} (h : w.Keeps i op) :
    w.KeepsSlots op ∧ op ≠ .rmdir i := by
  cases op with
  | rmdir child => exact ⟨h.2, fun he => h.1 (FsOp.rmdir.inj he)⟩
  | mkdir p name mem dle => exact ⟨h, FsOp.noConfusion⟩
  | create p name mem => exact ⟨h, FsOp.noConfusion⟩
  | unlink f ioEnd submitted => exact ⟨h, FsOp.noConfusion⟩
  | complete f => exact ⟨h, FsOp.noConfusion⟩

theorem keepsBig_run (h : Reach World.step World.KeepsSlots (World.mounted mem heap rootMem) w)
    (hdir : (w.cell i).dir = some dir) (hbig : dir.fi.isBigDir ≠ 0)
    (hid : dir.fi.dirId.toNat % 2 ^ 8 ≠ 0) (h' : Reach World.step (World.Keeps i) w w') :
    Reach World.step World.KeepsSlots (World.mounted mem heap rootMem) w' ∧
      (w'.cell i).dir = some dir ∧ KeepsBig w.sb w'.sb dir.fi.bigDirId.toNat := by
  have hslots : ∀ v, Reach World.step (World.Keeps i) w v →
      Reach World.step World.KeepsSlots (World.mounted mem heap rootMem) v :=
    fun v hv => h.trans (hv.mono fun _ _ hok => hok.slots.1)
  refine ⟨hslots w' h', h'.invariant_reached (fun v => (v.cell i).dir = some dir ∧
    KeepsBig w.sb v.sb dir.fi.bigDirId.toNat) ⟨hdir, fun b slt hbit => hbit⟩ ?_⟩
  intro w₁ op w₂ hr ⟨hdir₁, hkeep⟩ hok hs
  obtain ⟨hdir₂, hstep⟩ := World.keepsBig_step (bigInv_run (hslots w₁ hr))
    (slots_run (hslots w₁ hr)).2 (lists_run (hslots w₁ hr)).1 hdir₁ hbig hid hok.slots.2 hs
  exact ⟨hdir₂, fun b slt hbit => hstep b slt (hkeep b slt hbit)⟩

/-- In every run in which a promoted directory is not removed itself, whatever is created, unlinked
and discarded in it, it stays as it is and no slot of its big table is ever freed, unless its id is
a multiple of 256. -/
theorem bigSlots_kept (h : Reach World.step World.KeepsSlots (World.mounted mem heap rootMem) w)
    (hdir : (w.cell i).dir = some dir) (hbig : dir.fi.isBigDir ≠ 0)
    (hid : dir.fi.dirId.toNat % 2 ^ 8 ≠ 0) (h' : Reach World.step (World.Keeps i) w w') :
    (w'.cell i).dir = some dir ∧ ∀ b slt,
      w.sb.bit (.big dir.fi.bigDirId.toNat, b, slt) = true →
        w'.sb.bit (.big dir.fi.bigDirId.toNat, b, slt) = true :=
  (keepsBig_run h hdir hbig hid h').2

/-- Eight files of one small bucket of the root, and a ninth that promotes it. -/
def crowd : List FsOp := bucket97.map (createOp 0) ++ [createOp 0 ninthName]

def refill : List FsOp :=
  (List.range 7).map (fun k => .unlink (k + 1) ⟨0, 0, 0, 0, 0⟩ true) ++
    (bucket97.take 7).map (createOp 0)

theorem bigSlots_kept_root : ∃ w dir w',
    run World.step World.KeepsSlots zeroMounted crowd = some w ∧ (w.cell 0).dir = some dir ∧
    run World.step (World.Keeps 0) w [.unlink 9 ⟨0, 0, 0, 1, 0⟩ true, .complete 9] = some w' ∧
    w.sb.bit (.big 0, 97, 0) = true ∧ w'.sb.bit (.big 0, 97, 0) = true := by
  obtain ⟨w, hrun, hdir, hbit, hthen⟩ := exists_of_check
    (r := run World.step World.KeepsSlots zeroMounted crowd)
    (p := fun w => (w.cell 0).dir.any (fun x => decide (x.fi.isBigDir ≠ 0 ∧
        x.fi.dirId.toNat % 2 ^ 8 ≠ 0 ∧ x.fi.bigDirId.toNat = 0)) = true ∧
      w.sb.bit (.big 0, 97, 0) = true ∧ (run World.step (World.Keeps 0) w
        [.unlink 9 ⟨0, 0, 0, 1, 0⟩ true, .complete 9]).isSome = true) (by decide +kernel)
  obtain ⟨dir, hdir, hbig, hid, hq⟩ := exists_of_check hdir
  obtain ⟨w', hrun'⟩ := Option.isSome_iff_exists.mp hthen
  have hkept := (bigSlots_kept (.of_run hrun) hdir hbig hid (.of_run hrun')).2 97 0
  rw [hq] at hkept
  exact ⟨w, dir, w', hrun, hdir, hrun', hbit, hkept hbit⟩

def BigFull (sb : SbInfo) (q b : ℕ) : Prop := ∃ ht ∈ sb.bigDirHashtbl q, (ht.buckets b).Full

theorem bigFull_iff (sb : SbInfo) (q b : ℕ) :
    BigFull sb q b ↔ ∀ slt < 8, sb.bit (.big q, b, slt) = true := by
  constructor
  · intro ⟨ht, hht, hf⟩ slt hslt
    rw [SbInfo.bit, SbInfo.table, Option.mem_def.mp hht]
    exact hf slt hslt
  · intro hall
    cases hht : sb.bigDirHashtbl q with
    | none =>
      have hbit := hall 0 (by norm_num)
      rw [SbInfo.bit, SbInfo.table, hht] at hbit
      cases hbit
    | some ht =>
      refine ⟨ht, hht, fun slt hslt => ?_⟩
      have hbit := hall slt hslt
      rwa [SbInfo.bit, SbInfo.table, hht] at hbit

theorem KeepsBig.full {sb sb' : SbInfo} {q b : ℕ} (h : KeepsBig sb sb' q) (hf : BigFull sb q b) :
    BigFull sb' q b := by
  rw [bigFull_iff] at hf ⊢
  exact fun slt hslt => h b slt (hf slt hslt)

/-- A file is made in a full bucket of a big table, and it gets the number of the bucket. -/
theorem World.create_overflows {w : World} (hd : World.DirsInv w) {i : ℕ} {dir : Object}
    (hdir : (w.cell i).dir = some dir) (hbig : dir.fi.isBigDir ≠ 0) {name : CStr}
    (hfull : BigFull w.sb dir.fi.bigDirId.toNat (bigBucket name)) (mem : FfsName) :
    ∃ w' x, w.step (.create i name mem) = some w' ∧ (w'.cell w.count).object = some x ∧
      x.ino = overflowIno dir.fi.dirId (bigBucket name) := by
  obtain ⟨ht, hht, hf⟩ := hfull
  have hd0 := hd.dirId_nat hdir
  have hino := insertBigFile_full hf dir.fi.dirId
  have hne : overflowIno dir.fi.dirId (bigBucket name) ≠ minusOne := by
    rw [hd0]
    exact overflowIno_ne _ (bigBucket_lt name)
  simp only [World.step, hdir, Option.bind_some, ffsMknodFile, mknodFileBy, if_neg hbig,
    mknodBigFile, Option.mem_def.mp hht, Option.map_some, hino, if_neg hne, World.addFile]
  refine ⟨_, ⟨overflowIno dir.fi.dirId (bigBucket name), bigFileInfo dir.fi.dirId dir.fi.bigDirId
    (overflowIno dir.fi.dirId (bigBucket name)) mem name, false, some i⟩, rfl, ?_, rfl⟩
  exact congrArg Cell.object (World.setCell_self ..)

/-- Once all slots of a bucket are taken, in every such run every file made in the bucket gets one
and the same inode number, whatever has been unlinked and discarded since. -/
theorem bigBucket_one_number
    (h : Reach World.step World.KeepsSlots (World.mounted mem heap rootMem) w)
    (hdir : (w.cell i).dir = some dir) (hbig : dir.fi.isBigDir ≠ 0)
    (hid : dir.fi.dirId.toNat % 2 ^ 8 ≠ 0) (h' : Reach World.step (World.Keeps i) w w')
    {name : CStr} (hfull : BigFull w.sb dir.fi.bigDirId.toNat (bigBucket name))
    (nameMem : FfsName) :
    ∃ w'' x, w'.step (.create i name nameMem) = some w'' ∧ (w''.cell w'.count).object = some x ∧
      x.ino = overflowIno dir.fi.dirId (bigBucket name) := by
  obtain ⟨hr, hdir', hkeep⟩ := keepsBig_run h hdir hbig hid h'
  exact World.create_overflows (slots_run hr).2 hdir' hbig (hkeep.full hfull) nameMem

/-- Seven of the first eight files of the root make room for files of their names in the big
table, and the files `vkiq` after them meet. -/
theorem bigBucket_one_number_root : ∃ w dir w' w'' x,
    run World.step World.KeepsSlots zeroMounted (crowd ++ refill) = some w ∧
    (w.cell 0).dir = some dir ∧
    run World.step (World.Keeps 0) w [.unlink 9 ⟨0, 0, 0, 1, 0⟩ true, .complete 9] = some w' ∧
    w'.step (createOp 0 ninthName) = some w'' ∧ (w''.cell w'.count).object = some x ∧
      x.ino = overflowIno dir.fi.dirId (bigBucket ninthName) := by
  obtain ⟨w, hrun, hdir, hfull, hthen⟩ := exists_of_check
    (r := run World.step World.KeepsSlots zeroMounted (crowd ++ refill))
    (p := fun w => (w.cell 0).dir.any (fun x => decide (x.fi.isBigDir ≠ 0 ∧
        x.fi.dirId.toNat % 2 ^ 8 ≠ 0 ∧ x.fi.bigDirId.toNat = 0)) = true ∧
      (w.sb.bigDirHashtbl 0).any
        (fun ht => decide ((ht.buckets (bigBucket ninthName)).Full)) = true ∧
      (run World.step (World.Keeps 0) w
        [.unlink 9 ⟨0, 0, 0, 1, 0⟩ true, .complete 9]).isSome = true) (by decide +kernel)
  obtain ⟨dir, hdir, hbig, hid, hq⟩ := exists_of_check hdir
  obtain ⟨w', hrun'⟩ := Option.isSome_iff_exists.mp hthen
  obtain ⟨ht, hht, hf⟩ := exists_of_check hfull
  have hbigFull : BigFull w.sb dir.fi.bigDirId.toNat (bigBucket ninthName) := by
    rw [hq]
    exact ⟨ht, hht, hf⟩
  obtain ⟨w'', x, hs, hx, hino⟩ := bigBucket_one_number (.of_run hrun) hdir hbig hid
    (.of_run hrun') hbigFull ⟨0, fun _ => 0⟩
  exact ⟨w, dir, w', w'', x, hrun, hdir, hrun', hs, hx, hino⟩

end

end FlatFS
