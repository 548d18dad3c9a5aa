import FlatFS.BigSlots
import FlatFS.CreateLookup
import FlatFS.Listing

namespace FlatFS
open Lib Function

/-- A lookup of a file computes with the directory id -1. The number of a file is below what comes
out of that, except for a big file of a directory whose id is -1 in the eleven bits that are
kept. -/
def BelowLookups (ino : BitVec 64) (fi : FfsInodeInfo) : Prop :=
  ino.toNat < 2 ^ 64 - 2 ^ 21 ∨ fi.isBigDir ≠ 0 ∧ fi.dirId.toNat % 2 ^ 11 = 2 ^ 11 - 1

section mknod

variable {sb : SbInfo} {dfi : FfsInodeInfo} {mem : FfsName} {name : CStr} {r : MknodResult} {d : ℕ}
  {ino : BitVec 64} {fi : FfsInodeInfo}

theorem mknodBigFile_number (h : mknodBigFile sb dfi mem name = some r) (hdfi : dfi.dirId = d)
    (hc : r.created = some (ino, fi)) : BelowLookups ino fi := by
  obtain ⟨hbig, hid, -⟩ := (mknodBigFile_spec h hdfi).2.2 ino fi hc
  by_cases hones : d % 2 ^ 11 = 2 ^ 11 - 1
  · right
    rw [hbig, hid, Int.toNat_natCast]
    exact ⟨by decide, hones⟩
  · left
    obtain ⟨ht, -, rfl⟩ := Option.map_eq_some_iff.mp h
    dsimp only at hc
    split_ifs at hc
    cases hc
    have hlt := insertBigFile_lt ht name
    have hfield := bigDirField_lt hones
    rw [hdfi, bigSlotAlloc_toNat]
    omega

theorem mknodFile_number (h : ffsMknodFile sb dfi mem name = some r) (hdfi : dfi.dirId = d)
    (hd : d < 2 ^ 14) (hc : r.created = some (ino, fi)) : BelowLookups ino fi := by
  rcases mknodFile_big h with ⟨-, -, hsmall⟩ | ⟨-, hr⟩ | ⟨sb', pos, -, -, -, hr⟩
  · rcases mknodFile_slots hdfi hd h with ⟨ht, ino', -, hf, -, hcreated, hino⟩ | ⟨-, hbig⟩
    · cases hcreated.symm.trans hc
      have hb := smallBucket_lt name
      have hs := Bucket.freeSlot_lt hf
      left
      omega
    · exact absurd (hsmall ino fi hc) (hbig ino fi hc)
  · exact mknodBigFile_number hr hdfi hc
  · exact mknodBigFile_number hr hdfi hc

end mknod

namespace World

variable {w w' : World} {P : Object → Prop}

theorem files_setCell (h : ∀ i, ∀ x ∈ (w.cell i).file, P x) (sb : SbInfo) (i : ℕ) {c : Cell}
    (hc : ∀ x ∈ c.file, P x) :
    ∀ j, ∀ x ∈ (({ w with sb := sb }.setCell i c).cell j).file, P x := by
  intro j x hx
  by_cases hj : j = i
  · rw [hj, setCell_self] at hx
    exact hc x hx
  · rw [setCell_of_ne _ hj] at hx
    exact h j x hx

/-- What holds of every file when it is made holds of it for good: nothing is written to a file. -/
theorem files_step (h : ∀ i, ∀ x ∈ (w.cell i).file, P x)
    (hnew : ∀ p dir mem name r ino fi, (w.cell p).dir = some dir →
      ffsMknodFile w.sb dir.fi mem name = some r → r.created = some (ino, fi) →
        P ⟨ino, fi, false, some p⟩)
    {op : FsOp} (hs : w.step op = some w') : ∀ i, ∀ x ∈ (w'.cell i).file, P x := by
  cases op with
  | mkdir p name mem dle =>
    obtain ⟨dir, -, rfl⟩ := Option.map_eq_some_iff.mp hs
    refine files_setCell h _ w.count fun x hx => ?_
    cases hx
  | create p name mem =>
    obtain ⟨dir, r, hdir, hr, rfl⟩ := step_create hs
    have hset : ∀ i, ∀ x ∈ (({ w with sb := r.sb }.setCell p
        (.live { dir with fi := r.dfi })).cell i).file, P x := by
      refine files_setCell h _ p fun x hx => ?_
      exact absurd (dir_withInfo hdir r.dfi) (dir_ne_of_file hx _)
    cases hc : r.created with
    | none => exact hset
    | some f =>
      refine files_setCell hset _ w.count fun x hx => ?_
      obtain ⟨hx, -⟩ := object_of_file hx
      cases hx
      exact hnew p dir mem name r f.1 f.2 hdir hr hc
  | unlink f ioEnd submitted =>
    obtain ⟨y, -, rfl⟩ := Option.map_eq_some_iff.mp hs
    refine files_setCell h w.sb f fun x hx => ?_
    split_ifs at hx <;> cases hx
  | complete f =>
    obtain ⟨e, -, -, rfl⟩ := step_complete hs
    refine files_setCell h _ f fun x hx => ?_
    cases hx
  | rmdir child =>
    obtain ⟨y, p, dir, -, -, -, rfl | rfl⟩ := step_rmdir hs
    · refine files_setCell h _ child fun x hx => ?_
      cases hx
    · exact h

end World

section

variable {mem : ℕ → ℕ → UInt8} {heap : ℕ → DirListEntry} {rootMem : FfsName} {w : World}

theorem numbers_run (h : Reach World.step World.KeepsSlots (World.mounted mem heap rootMem) w) :
    ∀ i, ∀ x ∈ (w.cell i).file, BelowLookups x.ino x.fi := by
  apply h.invariant_reached fun w => ∀ i, ∀ x ∈ (w.cell i).file, BelowLookups x.ino x.fi
  · intro i x hx
    change x ∈ (update (fun _ => Cell.gone) 0 (.live _) i).file at hx
    rw [update_apply] at hx
    split_ifs at hx <;> cases hx
  · intro w op w' hr hi hok hs
    have hd := (slots_run hr).2
    refine World.files_step hi ?_ hs
    intro p dir mem name r ino fi hdir hmk hc
    exact mknodFile_number hmk (hd.dirId_nat hdir) (hd.live hdir).2.1 hc

/-- In every state of every such run, with whatever on the device, a lookup in a live directory
answers with the oldest live subdirectory of the name. When there is none it does not find any
live file, unless a big one of a directory whose id is -1 in eleven bits. -/
theorem lookup_live (h : Reach World.step World.KeepsNames (World.mounted mem heap rootMem) w)
    {p : ℕ} {dir : Object} (hdir : (w.cell p).dir = some dir) (dev : Device) (name : CStr) :
    (∀ x, (w.children p).find? (fun x => name = x.fi.filename.bytes) = some x →
      ffsLookup dev w.sb dir.ino dir.fi name = some x.ino) ∧
    ((w.children p).find? (fun x => name = x.fi.filename.bytes) = none →
      ∀ i y, (w.cell i).object = some y →
        ffsLookup dev w.sb dir.ino dir.fi name = some y.ino →
          y.isDir = false ∧ y.fi.isBigDir ≠ 0 ∧ y.fi.dirId.toNat % 2 ^ 11 = 2 ^ 11 - 1) := by
  obtain ⟨hr, hl⟩ := labels_run h
  have hd := (slots_run hr).2
  obtain ⟨hids, hlists⟩ := lists_run hr
  have hans := hl.dirInodeByName hd hdir hids hlists (fun i x hx => parent_lt h hx) name
  constructor
  · intro x hx
    rw [hx, Option.elim_some] at hans
    have hmem := List.mem_of_find?_eq_some hx
    have hname : name = x.fi.filename.bytes := by simpa using List.find?_some hx
    have hlen := (hl.children hmem).1.2.2
    have h480 : ¬ name.length > ffsMaxFilenameLen := by
      rw [hname, ffsMaxFilenameLen]
      omega
    obtain ⟨i, hxi, -⟩ := World.mem_children hmem
    have hne : x.ino ≠ 0 := by
      intro h0
      have hino := hd.ino_toNat hxi
      have hzero : (0 : BitVec 64).toNat = 0 := rfl
      rw [h0, hzero] at hino
      omega
    simp only [ffsLookup, if_neg h480, lookupIno, hans, if_neg hne]
  · intro hnone i y hy hfound
    rw [hnone, Option.elim_none] at hans
    have hge := lookup_ge hans hfound
    cases hdy : y.isDir with
    | true =>
      have hyd := World.dir_of_object hy hdy
      have hlt := (hd.live hyd).2.1
      have hino := hd.ino_toNat hyd
      omega
    | false =>
      have hfile : (w.cell i).file = some y := by
        rw [Cell.file, hy, Option.filter_some_pos (by simp [hdy])]
      rcases numbers_run hr i y hfile with hlt | hbig
      · omega
      · exact ⟨rfl, hbig⟩

theorem lookup_live_root : ∃ w dir x y, run World.step World.KeepsNames zeroMounted
      [mkdirOp 1, createOp 0 [102, 49]] = some w ∧ (w.cell 0).dir = some dir ∧
    x ∈ w.children 0 ∧ ffsLookup (fun _ => zeroPage) w.sb dir.ino dir.fi [100] = some x.ino ∧
    (w.cell 2).object = some y ∧
      ffsLookup (fun _ => zeroPage) w.sb dir.ino dir.fi [102, 49] ≠ some y.ino := by
  obtain ⟨w, hrun, hdir, hx, hnone, hy⟩ := exists_of_check
    (r := run World.step World.KeepsNames zeroMounted [mkdirOp 1, createOp 0 [102, 49]])
    (p := fun w => (w.cell 0).dir.isSome = true ∧
      ((w.children 0).find? fun x => [100] = x.fi.filename.bytes).isSome = true ∧
      ((w.children 0).find? fun x => [102, 49] = x.fi.filename.bytes).isNone = true ∧
      (w.cell 2).object.any (fun y => decide (y.fi.isBigDir = 0)) = true) (by decide +kernel)
  obtain ⟨dir, hdir⟩ := Option.isSome_iff_exists.mp hdir
  obtain ⟨x, hx⟩ := Option.isSome_iff_exists.mp hx
  obtain ⟨y, hy, hsmall⟩ := exists_of_check hy
  have hd := lookup_live (.of_run hrun) hdir (fun _ => zeroPage) [100]
  have hf := lookup_live (.of_run hrun) hdir (fun _ => zeroPage) [102, 49]
  exact ⟨w, dir, x, y, hrun, hdir, List.mem_of_find?_eq_some hx, hd.1 x hx, hy,
    fun hfound => (hf.2 (Option.isNone_iff_eq_none.mp hnone) 2 y hy hfound).2.1 hsmall⟩

end

theorem slotIno_big_toNat {d b slt : ℕ} (hd : d < 2 ^ 14) (hb : b < 2 ^ 18) (hs : slt < 8) :
    (slotIno (minFileBucketBits + minDirBits) (BitVec.ofNat 64 d) b slt).toNat =
      d * 2 ^ 21 + b * 8 + slt := by
  have h18 : minFileBucketBits + minDirBits = 18 := rfl
  have h3 : fileSlotBits = 3 := rfl
  rw [slotIno, ofNat_shl, ← BitVec.ofNat_add, ofNat_shl, ← BitVec.ofNat_add, BitVec.toNat_ofNat,
    h18, h3]
  omega

/-- A listing shows 32 bits of a number, in which the directory field is the id shifted. -/
theorem le32_slotIno_big {d b slt : ℕ} (hd : d < 2 ^ 14) (hb : b < 2 ^ 18) (hs : slt < 8)
    {ino : BitVec 64} (hino : ino.toNat = bigDirField d + b * 8 + slt) :
    le32ToCpu (slotIno (minFileBucketBits + minDirBits) (BitVec.ofNat 64 d) b slt) =
      le32ToCpu ino := by
  apply BitVec.eq_of_toNat_eq
  rw [le32ToCpu, le32ToCpu, BitVec.toNat_setWidth, BitVec.toNat_setWidth, BitVec.toNat_setWidth,
    BitVec.toNat_setWidth, slotIno_big_toNat hd hb hs, hino, bigDirField]
  split_ifs <;> omega

def FsOp.Spares (i : ℕ) : FsOp → Prop
  | .rmdir child => child ≠ i
  | _ => True

instance (i : ℕ) : ∀ op : FsOp, Decidable (op.Spares i)
  | .rmdir child => inferInstanceAs (Decidable (child ≠ i))
  | .mkdir .. | .create .. | .unlink .. | .complete .. => .isTrue trivial

theorem World.KeepsNames.keeps {w : World} {op : FsOp} {i : ℕ} (h : w.KeepsNames op)
    (hi : op.Spares i) : w.Keeps i op := by
  cases op with
  | rmdir child => exact ⟨hi, h⟩
  | mkdir p name mem dle => exact h.1
  | create p name mem => exact h
  | unlink f ioEnd submitted => exact h
  | complete f => exact h

theorem World.addFile_cell (w : World) (p : ℕ) (ino : BitVec 64) (fi : FfsInodeInfo) :
    (w.addFile p (some (ino, fi))).cell w.count = .live ⟨ino, fi, false, some p⟩ :=
  World.setCell_self ..

/-- A file made in a bucket of a big table with room gets a free slot and its number. -/
theorem World.create_bigSlot {w w₁ : World} (hd : World.DirsInv w)
    (hfresh : w.cell w.count = .gone) {i : ℕ} {dir x : Object}
    (hdir : (w.cell i).dir = some dir) (hbig : dir.fi.isBigDir ≠ 0) {name : CStr}
    (hroom : ¬ BigFull w.sb dir.fi.bigDirId.toNat (bigBucket name)) {nameMem : FfsName}
    (hs : w.step (.create i name nameMem) = some w₁) (hx : (w₁.cell w.count).object = some x) :
    ∃ slt < 8, w₁.sb.bit (.big dir.fi.bigDirId.toNat, bigBucket name, slt) = true ∧
      x.ino.toNat = bigDirField dir.fi.dirId.toNat + bigBucket name * 8 + slt := by
  obtain ⟨ht, hht⟩ := hd.bigTable hdir hbig
  have hf : ¬ (ht.buckets (bigBucket name)).Full := fun hf => hroom ⟨ht, hht, hf⟩
  obtain ⟨ino, hmk, hino⟩ := mknodBigFile_free nameMem rfl (hd.dirId_nat hdir) hht hf
  have hbit : (w.sb.setTable (.big dir.fi.bigDirId.toNat) (some (ht.modify (bigBucket name)
      (·.take (ht.buckets (bigBucket name)).freeSlot)))).bit (.big dir.fi.bigDirId.toNat,
        bigBucket name, (ht.buckets (bigBucket name)).freeSlot) = true :=
    (SbInfo.bit_take (t := .big dir.fi.bigDirId.toNat) hht _ _ _).mpr (.inl rfl)
  obtain ⟨_, r, hp, hr, rfl⟩ := step_create hs
  cases hdir.symm.trans hp
  rw [ffsMknodFile, mknodFileBy, if_neg hbig] at hr
  have hresult := Option.some.inj (hr.symm.trans hmk)
  cases hc : r.created with
  | none =>
    -- the last slot of all: no file is made
    have hcell : ({ w with sb := r.sb }.setCell i (.live { dir with fi := r.dfi })).cell w.count =
        .gone := (World.setCell_of_ne _ (hd.lt_count hdir).ne' _).trans hfresh
    rw [hc, World.addFile, hcell] at hx
    cases hx
  | some f =>
    obtain ⟨ino', fi⟩ := f
    have hcell := World.addFile_cell ({ w with sb := r.sb }.setCell i
      (.live { dir with fi := r.dfi })) i ino' fi
    rw [hc] at hx
    have hnew := Option.some.inj (hx.symm.trans (congrArg Cell.object hcell))
    rw [hresult] at hc
    dsimp only at hc
    split_ifs at hc
    cases hc
    refine ⟨_, Bucket.freeSlot_lt hf, ?_, hnew ▸ hino⟩
    rw [World.addFile, hresult]
    exact hbit

/-- A file that is made in a promoted directory stays listed: whatever is done afterwards, and if it
is unlinked and discarded, the first call through an open file of the directory shows its number. -/
theorem bigFile_stays_listed {mem : ℕ → ℕ → UInt8} {heap : ℕ → DirListEntry} {rootMem : FfsName}
    {w w₁ w' : World} {i : ℕ} {dir x : Object}
    (h : Reach World.step World.KeepsNames (World.mounted mem heap rootMem) w)
    (hdir : (w.cell i).dir = some dir) (hbig : dir.fi.isBigDir ≠ 0)
    (hid : dir.fi.dirId.toNat % 2 ^ 8 ≠ 0) {name : CStr}
    (hroom : ¬ BigFull w.sb dir.fi.bigDirId.toNat (bigBucket name)) {nameMem : FfsName}
    (hs : w.step (.create i name nameMem) = some w₁) (hx : (w₁.cell w.count).object = some x)
    (h' : Reach World.step (fun v op => v.KeepsNames op ∧ op.Spares i) w₁ w') (disk : Disk)
    (cur : Cursors) {ctx : DirContext} (hpos : ctx.pos = 0) :
    ∃ entries cur', ffsReaddir disk w'.sb dir.fi cur ctx = some (ctx.emitAll entries, cur') ∧
      ∃ e ∈ entries, e.dType = 0 ∧ e.ino = le32ToCpu x.ino := by
  have hr := (labels_run h).1
  have hd := (slots_run hr).2
  obtain ⟨slt, hslt, hbit, hino⟩ :=
    World.create_bigSlot hd (fresh_cell hr le_rfl) hdir hbig hroom hs hx
  have hok : w.KeepsNames (.create i name nameMem) := trivial
  have h₁ := h.step hok hs
  have hdir₁ := (World.keepsBig_step (bigInv_run hr) hd (lists_run hr).1 hdir hbig hid
    FsOp.noConfusion hs).1
  obtain ⟨-, hdir', hkeep⟩ := keepsBig_run (labels_run h₁).1 hdir₁ hbig hid
    (h'.mono fun _ _ hok => hok.1.keeps hok.2)
  obtain ⟨hr', hl'⟩ := labels_run (h₁.trans (h'.mono fun _ _ hok => hok.1))
  obtain ⟨hids, hlists⟩ := lists_run hr'
  obtain ⟨D, hdisk, hsb, hdfi, hDd, -⟩ :=
    World.directory (slots_run hr').2 hl' hdir' hids hlists disk
  obtain ⟨cur', hcall, -⟩ := D.readdir_first cur hpos
  rw [Directory.readdir, hdisk, hsb, hdfi] at hcall
  refine ⟨_, cur', hcall, D.bigDirent (bigBucket name, slt), ?_, rfl, ?_⟩
  · apply List.mem_append_right
    apply List.mem_map_of_mem
    rw [Directory.bigSlots, hdfi, if_pos hbig]
    refine ((liveSlots_inOrder _ _).mem _).mpr ⟨bigBucket_lt name, hslt, ?_⟩
    have htab := D.bigTable (hdfi ▸ hbig)
    have hbit' := hkeep _ _ hbit
    rw [hsb, hdfi] at htab
    rwa [SbInfo.bit, SbInfo.table, htab] at hbit'
  · have hnum := le32_slotIno_big (hd.live hdir).2.1 (bigBucket_lt name) hslt hino
    rw [← hnum, ← hDd]
    rfl

/-- The file `f1` of the promoted root is gone, and is listed. -/
theorem bigFile_stays_listed_root : ∃ w dir w₁ x w' entries cur',
    run World.step World.KeepsNames zeroMounted crowd = some w ∧ (w.cell 0).dir = some dir ∧
    w.step (createOp 0 [102, 49]) = some w₁ ∧ (w₁.cell w.count).object = some x ∧
    run World.step (fun v op => v.KeepsNames op ∧ op.Spares 0) w₁
      [.unlink 10 ⟨0, 0, 0, 1, 0⟩ true, .complete 10] = some w' ∧
    ffsReaddir (fun _ _ => 0) w'.sb dir.fi ⟨0, 0, 0⟩ ⟨0, none, []⟩ =
      some (DirContext.emitAll ⟨0, none, []⟩ entries, cur') ∧
    ∃ e ∈ entries, e.dType = 0 ∧ e.ino = le32ToCpu x.ino := by
  obtain ⟨w, hrun, hdir, hroom, hstep⟩ := exists_of_check
    (r := run World.step World.KeepsNames zeroMounted crowd)
    (p := fun w => (w.cell 0).dir.any (fun x => decide (x.fi.isBigDir ≠ 0 ∧
        x.fi.dirId.toNat % 2 ^ 8 ≠ 0 ∧ x.fi.bigDirId.toNat = 0)) = true ∧
      w.sb.bit (.big 0, bigBucket [102, 49], 0) = false ∧
      (w.step (createOp 0 [102, 49])).any (fun w₁ =>
        decide ((w₁.cell w.count).object.isSome = true ∧
          (run World.step (fun v op => v.KeepsNames op ∧ op.Spares 0) w₁
            [.unlink 10 ⟨0, 0, 0, 1, 0⟩ true, .complete 10]).isSome = true)) = true)
    (by decide +kernel)
  obtain ⟨dir, hdir, hbig, hid, hq⟩ := exists_of_check hdir
  obtain ⟨w₁, hs, hx, hthen⟩ := exists_of_check hstep
  obtain ⟨x, hx⟩ := Option.isSome_iff_exists.mp hx
  obtain ⟨w', hrun'⟩ := Option.isSome_iff_exists.mp hthen
  have hnotfull : ¬ BigFull w.sb dir.fi.bigDirId.toNat (bigBucket [102, 49]) := by
    rw [hq, bigFull_iff]
    intro hall
    rw [hall 0 (by norm_num)] at hroom
    cases hroom
  obtain ⟨entries, cur', hcall, hlisted⟩ := bigFile_stays_listed (.of_run hrun) hdir hbig hid
    hnotfull hs hx (.of_run hrun') (fun _ _ => 0) ⟨0, 0, 0⟩
    (show (⟨0, none, []⟩ : DirContext).pos = 0 from rfl)
  exact ⟨w, dir, w₁, x, w', entries, cur', hrun, hdir, hs, hx, hrun', hcall, hlisted⟩

end FlatFS
