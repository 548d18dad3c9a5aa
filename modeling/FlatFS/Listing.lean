import FlatFS.LinkRun
import FlatFS.ReadDirRun
import FlatFS.SlotOwners

namespace FlatFS
open Lib Function

/-- What `read_dir_dirs` looks at in an entry, the id apart. -/
def DirEntry.text (de : DirEntry) : ℕ × ℕ × (ℕ → UInt8) := (de.namelen, de.recLen, de.dirName)

theorem FilledBy.of_text {de de' : DirEntry} {name : CStr} (h : FilledBy de name)
    (he : de'.text = de.text) : FilledBy de' name := by
  have hlen : de'.namelen = de.namelen := congrArg Prod.fst he
  have hrec : de'.recLen = de.recLen := congrArg (fun x => x.2.1) he
  have hname : de'.dirName = de.dirName := congrArg (fun x => x.2.2) he
  refine ⟨hlen.trans h.namelen, hrec.trans h.recLen, fun i hi => ?_⟩
  rw [hname]
  exact h.name i hi

theorem FilledBy.name_eq {de : DirEntry} {name : CStr} (h : FilledBy de name) (h0 : 0 ∉ name) :
    de.name = name := congrArg Dirent.name (Directory.dirDirent_eq h h0)

namespace DirTree

variable (t : DirTree)

theorem modifyDe_text {f : DirEntry → DirEntry} (hf : ∀ de, (f de).text = de.text) (i d : ℕ) :
    ((t.modifyDe i f).de d).text = (t.de d).text := by
  rw [modifyDe_de]
  split_ifs with hd
  · rw [hf, hd]
  · rfl

theorem fillOneDirEntry_text {name : CStr} {d : ℕ} (h : d ≠ (fillOneDirEntry t name).1) :
    ((fillOneDirEntry t name).2.de d).text = (t.de d).text := by
  rw [fillOneDirEntry_fst] at h
  unfold fillOneDirEntry
  dsimp only
  by_cases hid : (getUnusedDirId t.dirIdBitmap).1 = 0
  · rw [if_pos hid]
  · rw [if_neg hid, modifyDe_de, if_neg h]

theorem insertDir_text (parent n dle d : ℕ) :
    ((insertDir t parent n dle).de d).text = (t.de d).text := by
  unfold insertDir
  dsimp only
  refine (modifyDe_text _ ?_ _ _).trans ?_
  · exact fun de => rfl
  · split_ifs
    · refine modifyDe_text _ ?_ _ _
      exact fun de => rfl
    · refine modifyDe_text _ ?_ _ _
      exact fun de => rfl

theorem relinkNext_text (parent dir last next start d : ℕ) :
    ((relinkNext t parent dir last next start).de d).text = (t.de d).text := by
  unfold relinkNext
  split_ifs
  · refine modifyDe_text _ ?_ _ _
    exact fun de => rfl
  · rfl
  · rfl

theorem unlinkEntry_text (parent dir x start d : ℕ) :
    ((unlinkEntry t parent dir x start).de d).text = (t.de d).text := by
  have hnext := relinkNext_text (relinkPrev t parent (t.node x).last (t.node x).next start) parent
    dir (t.node x).last (t.node x).next start d
  rw [relinkPrev_de] at hnext
  rw [unlinkEntry, freeEntry_de]
  exact hnext

end DirTree

theorem removeDir_text (sb : SbInfo) (parentIno dirIno : BitVec 64) (bigDirId : ℤ) {d : ℕ}
    (h : d ≠ (inodeToDirId dirIno).toNat) :
    ((removeDir sb parentIno dirIno bigDirId).dtree.de d).text = (sb.dtree.de d).text := by
  cases hfind : findEntry sb.dtree (sb.dtree.de (inodeToDirId dirIno).toNat).dirId
      (sb.dtree.de (inodeToDirId parentIno).toNat).head 0
      (sb.dtree.de (inodeToDirId parentIno).toNat).dirSize with
  | none => simp only [removeDir, hfind]
  | some r =>
    rw [removeDir_found bigDirId hfind, ← DirTree.unlinkEntry_text sb.dtree
      (inodeToDirId parentIno).toNat (inodeToDirId dirIno).toNat r.1 r.2]
    simp [clearEntry, DirTree.modifyDe_de, h]

def FfsIoEnd.number (e : FfsIoEnd) : BitVec 64 :=
  slotIno minFileBucketBits (BitVec.ofInt 64 e.dirId) e.bucketId.toNat e.slotId.toNat

/-- A directory has the name in its entry, a file in a small table the number of its slot. -/
def Object.Labelled (sb : SbInfo) (x : Object) : Prop :=
  if x.isDir then FileName x.fi.filename.bytes ∧
    FilledBy (sb.dtree.de x.fi.dirId.toNat) x.fi.filename.bytes
  else x.fi.isBigDir = 0 → x.ino = x.fi.handle.number

theorem Object.Labelled.of_text {sb sb' : SbInfo} {x : Object} (h : x.Labelled sb)
    (he : x.isDir = true →
      (sb'.dtree.de x.fi.dirId.toNat).text = (sb.dtree.de x.fi.dirId.toNat).text) :
    x.Labelled sb' := by
  unfold Labelled at h ⊢
  split_ifs at h ⊢ with hd
  · exact ⟨h.1, h.2.of_text (he hd)⟩
  · exact h

namespace World

def Labelled (w : World) : Prop := ∀ i, ∀ x ∈ (w.cell i).object, x.Labelled w.sb

/-- Beside what keeps lists and tables right, the directories get names that the kernel has. -/
def KeepsNames (w : World) : FsOp → Prop
  | .mkdir p name mem dle => w.KeepsSlots (.mkdir p name mem dle) ∧ FileName name
  | op => w.KeepsSlots op

instance (w : World) : ∀ op, Decidable (w.KeepsNames op)
  | .mkdir p name mem dle =>
    inferInstanceAs (Decidable (w.KeepsSlots (.mkdir p name mem dle) ∧ FileName name))
  | .create p name mem => inferInstanceAs (Decidable (w.KeepsSlots (.create p name mem)))
  | .unlink f e submitted => inferInstanceAs (Decidable (w.KeepsSlots (.unlink f e submitted)))
  | .complete f => inferInstanceAs (Decidable (w.KeepsSlots (.complete f)))
  | .rmdir child => inferInstanceAs (Decidable (w.KeepsSlots (.rmdir child)))

theorem KeepsNames.slots {w : World} {op : FsOp} (h : w.KeepsNames op) : w.KeepsSlots op := by
  cases op with
  | mkdir p name mem dle => exact h.1
  | create p name mem => exact h
  | unlink f ioEnd submitted => exact h
  | complete f => exact h
  | rmdir child => exact h

variable {w : World}

theorem Labelled.dir (h : w.Labelled) {i : ℕ} {x : Object} (hx : (w.cell i).dir = some x) :
    FileName x.fi.filename.bytes ∧
      FilledBy (w.sb.dtree.de x.fi.dirId.toNat) x.fi.filename.bytes := by
  obtain ⟨hcell, hd⟩ := object_of_dir hx
  have hx := h i x (hcell ▸ rfl)
  rwa [Object.Labelled, if_pos hd] at hx

theorem Labelled.setCell (h : w.Labelled) (i : ℕ) {c : Cell}
    (hc : ∀ x ∈ c.object, x.Labelled w.sb) : (w.setCell i c).Labelled := by
  intro j x hx
  by_cases hj : j = i
  · rw [hj, setCell_self] at hx
    exact hc x hx
  · rw [setCell_of_ne _ hj] at hx
    exact h j x hx

theorem Labelled.add (h : w.Labelled) {x : Object} (hx : x.Labelled w.sb) :
    (w.add x).Labelled := by
  refine h.setCell w.count (c := .live x) fun y hy => ?_
  cases hy
  exact hx

theorem Labelled.frame (h : w.Labelled) {sb : SbInfo} (he : ∀ i x, (w.cell i).dir = some x →
    (sb.dtree.de x.fi.dirId.toNat).text = (w.sb.dtree.de x.fi.dirId.toNat).text) :
    World.Labelled { w with sb := sb } := by
  intro i x hx
  exact (h i x hx).of_text fun hd => he i x (dir_of_object hx hd)

theorem Labelled.mkdir (h : w.Labelled) (hi : DirsInv w) {p : ℕ} {dir : Object} {name : CStr}
    {mem : FfsName} {dle : ℕ} (hok : w.TidyDirs (.mkdir p name mem dle)) (hname : FileName name) :
    let r := ffsMknodDir w.sb dir.fi mem name dle
    ({ w with sb := r.1 }.add ⟨r.2.1, r.2.2, true, some p⟩).Labelled := by
  intro r
  have hid : (fillOneDirEntry w.sb.dtree name).1 ≠ 0 := by
    rw [DirTree.fillOneDirEntry_fst]
    exact hok.1
  have hclear := (DirTree.getUnusedDirId_spec hok.1).2.1
  have hr := (ffsMknodDir_frame dir.fi mem name dle (DirTree.fillOneDirEntry_fst ..).symm hid).2.2
  rw [← DirTree.fillOneDirEntry_fst w.sb.dtree name] at hclear
  apply Labelled.add
  · apply h.frame
    intro i x hx
    refine (DirTree.insertDir_text ..).trans (DirTree.fillOneDirEntry_text _ ?_)
    -- an id in use is not found
    intro he
    have hused := (hi.live hx).2.2
    rw [he, hclear] at hused
    cases hused
  · have hfilename : r.2.2.filename = fillName mem name := by
      rw [hr]
      rfl
    have hlabel := holdsName_fill hname hfilename
    rw [Object.Labelled, if_pos rfl]
    dsimp only
    rw [hlabel.bytes, hr]
    refine ⟨hname, (fillOneDirEntry_filledBy hid).of_text ?_⟩
    exact DirTree.insertDir_text ..

theorem Labelled.create (h : w.Labelled) (hi : DirsInv w) {p : ℕ} {dir : Object}
    (hdir : (w.cell p).dir = some dir) {mem : FfsName} {name : CStr} {r : MknodResult}
    (hr : ffsMknodFile w.sb dir.fi mem name = some r) :
    (({ w with sb := r.sb }.setCell p (.live { dir with fi := r.dfi })).addFile p
      r.created).Labelled := by
  obtain ⟨hd0, -⟩ := hi.named p dir hdir
  have hdfi := (Int.toNat_of_nonneg hd0).symm
  have hlive := hi.live hdir
  -- the directory keeps its id and its name, promoted or not
  have hsame : r.sb.dtree = w.sb.dtree ∧ r.dfi.dirId = dir.fi.dirId ∧
      r.dfi.filename = dir.fi.filename := by
    rcases mknodFile_sameTables hi.counts hr with ⟨ht, he⟩ | ⟨q, -, -, -, ht, he⟩
    · rw [he]
      exact ⟨ht.dtree, rfl, rfl⟩
    · rw [he]
      exact ⟨ht.dtree, rfl, rfl⟩
  obtain ⟨htree, hid, hname⟩ := hsame
  have hset : ({ w with sb := r.sb }.setCell p (.live { dir with fi := r.dfi })).Labelled := by
    apply Labelled.setCell
    · exact h.frame fun i x hx => by rw [htree]
    · intro x hx
      cases hx
      have hlabel := h.dir hdir
      rw [Object.Labelled, if_pos (object_of_dir hdir).2]
      dsimp only
      rw [htree, hid, hname]
      exact hlabel
  cases hc : r.created with
  | none => exact hset
  | some f =>
    obtain ⟨ino, fi⟩ := f
    apply hset.add
    rw [Object.Labelled, if_neg Bool.false_ne_true]
    intro hsmall
    rcases mknodFile_slots hdfi hlive.2.1 hr with
      ⟨ht, ino', -, hf, -, hcreated, hino⟩ | ⟨-, hcreated⟩
    · cases hc.symm.trans hcreated
      have hb := smallBucket_lt name
      have hs := Bucket.freeSlot_lt hf
      obtain ⟨hdecB, hdecS⟩ := smallIno_decodes hb hs hino
      apply BitVec.eq_of_toNat_eq
      change ino.toNat = (slotIno minFileBucketBits (BitVec.ofInt 64 (dir.fi.dirId.toNat : ℤ))
        (inoToBucket ino).toNat (inoToSlot ino).toNat).toNat
      rw [hdecB, hdecS, BitVec.ofInt_natCast, Int.toNat_natCast, Int.toNat_natCast,
        slotIno_toNat hlive.2.1 hb hs, hino, fileNumber]
    · exact absurd hsmall (hcreated ino fi hc)

end World

namespace World

variable {w w' : World}

theorem Labelled.step (h : w.Labelled) (hi : DirsInv w) {op : FsOp} (hok : w.KeepsNames op)
    (hs : w.step op = some w') : w'.Labelled := by
  cases op with
  | mkdir parent name mem dle =>
    obtain ⟨dir, -, rfl⟩ := Option.map_eq_some_iff.mp hs
    exact h.mkdir hi hok.1 hok.2
  | create parent name mem =>
    obtain ⟨dir, r, hdir, hr, rfl⟩ := step_create hs
    exact h.create hi hdir hr
  | unlink f ioEnd submitted =>
    obtain ⟨x, -, rfl⟩ := Option.map_eq_some_iff.mp hs
    apply h.setCell
    intro y hy
    split_ifs at hy <;> cases hy
  | complete f =>
    obtain ⟨e, -, -, rfl⟩ := step_complete hs
    apply Labelled.setCell
    · exact h.frame fun i x hx => by rw [(sameTables_callback w.sb e).dtree]
    · intro y hy
      cases hy
  | rmdir child =>
    obtain ⟨x, p, dir, hx, -, -, rfl | rfl⟩ := step_rmdir hs
    · have hgone : (w.setCell child .gone).Labelled := by
        apply h.setCell
        intro y hy
        cases hy
      refine hgone.frame fun i y hy => removeDir_text _ _ _ _ ?_
      obtain ⟨hne, hy⟩ := of_setCell_gone rfl hy
      rw [hi.dirId_ino hx]
      intro he
      apply hne
      exact hi.ids.inj i child _ (he ▸ dirIds_of_dir hy) (dirIds_of_dir hx)
    · exact h

theorem labelled_mounted (mem : ℕ → ℕ → UInt8) (heap : ℕ → DirListEntry) (rootMem : FfsName) :
    (mounted mem heap rootMem).Labelled := by
  have hfile : FileName [47] := by decide
  have hlabel : HoldsName (rootInfo rootMem) [47] := by
    apply holdsName_fill hfile
    rfl
  apply Labelled.add
  · intro i x hx
    cases hx
  · rw [Object.Labelled, if_pos rfl]
    dsimp only
    rw [hlabel.bytes]
    refine ⟨hfile, rfl, rfl, fun i hi => ?_⟩
    have h0 : i = 0 := Nat.lt_one_iff.mp hi
    rw [h0]
    rfl

end World

theorem labels_run {mem : ℕ → ℕ → UInt8} {heap : ℕ → DirListEntry} {rootMem : FfsName} {w : World}
    (h : Reach World.step World.KeepsNames (World.mounted mem heap rootMem) w) :
    Reach World.step World.KeepsSlots (World.mounted mem heap rootMem) w ∧ w.Labelled := by
  refine ⟨h.mono fun _ _ hok => hok.slots,
    h.invariant_reached World.Labelled (World.labelled_mounted mem heap rootMem) ?_⟩
  intro w op w' hr hl hok hs
  exact hl.step (slots_run (hr.mono fun _ _ hok => hok.slots)).2 hok hs

def Object.dirent (x : Object) : Dirent := ⟨x.fi.filename.bytes, x.ino, 4⟩

/-- The inode number of an object, and of a file whose discard is in flight. -/
def Cell.number : Cell → BitVec 64
  | .gone => 0
  | .live x => x.ino
  | .discard e => e.number

namespace World

def children (w : World) (p : ℕ) : List Object :=
  (List.range w.count).filterMap fun i => (w.cell i).dir.filter fun x => x.parent = some p

variable {w : World} {p : ℕ} {dir : Object}

theorem DirsInv.children_ids (hi : DirsInv w) (hdir : (w.cell p).dir = some dir) :
    (w.children p).map (fun x => x.fi.dirId.toNat) = w.subdirs dir.fi.dirId.toNat := by
  rw [children, List.map_filterMap, World.subdirs, childNames]
  apply List.filterMap_congr
  intro i _
  cases hx : (w.cell i).dir with
  | none =>
    have hname : nameAt w.entries i = none := by
      rw [nameAt, entries, comp_apply, Cell.entry, hx]
      rfl
    rw [childAt, hname, ite_self]
    rfl
  | some x =>
    have hparent : parentAt w.entries i = some dir.fi.dirId.toNat ↔ x.parent = some p := by
      rw [parentAt, entries_of_dir hx, Option.bind_some, Option.bind_eq_some_iff]
      constructor
      · intro h
        obtain ⟨q, hq, hname⟩ := h
        rw [hi.ids.inj q p _ hname (dirIds_of_dir hdir)] at hq
        exact hq
      · intro hq
        exact ⟨p, hq, dirIds_of_dir hdir⟩
    have hname : nameAt w.entries i = some x.fi.dirId.toNat := dirIds_of_dir hx
    rw [childAt, hname, Option.filter_some]
    by_cases hq : x.parent = some p
    · rw [if_pos (hparent.mpr hq), if_pos (decide_eq_true hq)]
      rfl
    · rw [if_neg (hparent.not.mpr hq), if_neg (by simpa using hq)]
      rfl

theorem mem_children {x : Object} (h : x ∈ w.children p) :
    ∃ i, (w.cell i).dir = some x ∧ x.parent = some p := by
  obtain ⟨i, -, hx⟩ := List.mem_filterMap.mp h
  obtain ⟨hx, hp⟩ := Option.filter_eq_some_iff.mp hx
  exact ⟨i, hx, of_decide_eq_true hp⟩

end World

theorem liveSlots_nodup (bits : ℕ) (ht : HashTable) : (liveSlots bits ht).Nodup := by
  apply (liveSlots_inOrder bits ht).sorted.imp
  intro x y hlt he
  rw [he] at hlt
  omega

theorem le32_slotIno {d b slt : ℕ} (hd : d < 2 ^ 14) (hb : b < 2 ^ 12) (hs : slt < 8) :
    le32ToCpu (slotIno minFileBucketBits (BitVec.ofNat 64 d) b slt) =
      slotIno minFileBucketBits (BitVec.ofNat 64 d) b slt := by
  apply le32ToCpu_eq
  rw [slotIno_toNat hd hb hs, fileNumber]
  omega

namespace World

variable {w : World}

/-- The number of a directory fits in the 32 bits that a listing shows. -/
theorem DirsInv.le32_ino (hi : DirsInv w) {i : ℕ} {x : Object} (hx : (w.cell i).dir = some x) :
    le32ToCpu x.ino = x.ino := by
  have hlt := (hi.live hx).2.1
  apply le32ToCpu_eq
  rw [hi.ino_toNat hx]
  omega

theorem Labelled.number (h : w.Labelled) {i : ℕ} {e : FfsIoEnd}
    (he : (w.cell i).smallHandle = some e) : (w.cell i).number = e.number := by
  obtain ⟨hhandle, hsmall⟩ := Option.filter_eq_some_iff.mp he
  cases hcell : w.cell i with
  | gone =>
    rw [hcell] at hhandle
    cases hhandle
  | discard e' =>
    rw [hcell] at hhandle
    cases hhandle
    rfl
  | live x =>
    rw [hcell, Cell.handle] at hhandle
    split_ifs at hhandle with hd
    cases hhandle
    have hx := h i x (hcell ▸ rfl)
    rw [Object.Labelled, if_neg hd] at hx
    exact hx (of_decide_eq_true hsmall)

/-- The number of a file follows from its slot. -/
theorem SlotsInv.number (hi : SlotsInv w) (h : w.Labelled) {i : ℕ} {q : ℕ × ℕ × ℕ}
    (hq : w.smallSlots i = some q) :
    (w.cell i).number = slotIno minFileBucketBits (BitVec.ofNat 64 q.1) q.2.1 q.2.2 := by
  obtain ⟨e, he, rfl⟩ := Option.map_eq_some_iff.mp hq
  have he0 := Int.toNat_of_nonneg (hi.inTable i e he).dirId
  rw [h.number he, FfsIoEnd.number, ← he0, BitVec.ofInt_natCast]
  rfl

/-- The slots of a small table, one by one, are those of the files and discards of the directory,
each with its number. -/
theorem SlotsInv.holders (hi : SlotsInv w) (h : w.Labelled) {d : ℕ} {ht : HashTable}
    (hht : w.sb.hashtbl d = some ht) :
    ∃ files : List ℕ, files.Nodup ∧
      (∀ i, i ∈ files ↔ ∃ e ∈ (w.cell i).smallHandle, e.dirId = d) ∧
      files.map (fun i => (w.cell i).number) = (liveSlots minFileBucketBits ht).map
        fun x => slotIno minFileBucketBits (BitVec.ofNat 64 d) x.1 x.2 := by
  have hmem : ∀ x, x ∈ liveSlots minFileBucketBits ht ↔
      x.1 < 2 ^ 12 ∧ x.2 < 8 ∧ ht.bit x.1 x.2 = true := (liveSlots_inOrder minFileBucketBits ht).mem
  have hnd : ((liveSlots minFileBucketBits ht).map (Prod.mk d)).Nodup :=
    (liveSlots_nodup _ ht).map (Prod.mk_right_injective d)
  obtain ⟨files, hown, hfiles, howner⟩ := hi.slots.owners hnd (by
    intro q hq
    obtain ⟨x, hx, rfl⟩ := List.mem_map.mp hq
    exact (slotSet_iff ..).mpr ⟨ht, hht, ((hmem x).mp hx).2.2⟩)
  refine ⟨files, hfiles, fun i => ?_, ?_⟩
  · rw [howner]
    constructor
    · intro ⟨q, hq, hslot⟩
      obtain ⟨x, -, rfl⟩ := List.mem_map.mp hq
      obtain ⟨e, he, hes⟩ := Option.map_eq_some_iff.mp hslot
      have hed : e.dirId.toNat = d := congrArg Prod.fst hes
      have he0 := (hi.inTable i e he).dirId
      exact ⟨e, he, by omega⟩
    · intro ⟨e, he, hed⟩
      obtain ⟨-, hb, hs⟩ := hi.inTable i e he
      have hslot := smallSlots_eq he
      have hset := (hi.slots.used_iff _).mpr ⟨i, hslot⟩
      rw [FfsIoEnd.smallSlot, hed, Int.toNat_natCast] at hset hslot
      obtain ⟨ht', hht', hbit⟩ := (slotSet_iff ..).mp hset
      cases hht.symm.trans hht'
      refine ⟨_, List.mem_map_of_mem ((hmem (e.bucketId.toNat, e.slotId.toNat)).mpr ?_), hslot⟩
      dsimp only
      exact ⟨by omega, by omega, hbit⟩
  · have hnum : ∀ i ∈ files, (some ∘ fun i => (w.cell i).number) i = (Option.map (fun q =>
        slotIno minFileBucketBits (BitVec.ofNat 64 q.1) q.2.1 q.2.2) ∘ w.smallSlots) i := by
      intro i hmem
      obtain ⟨q, -, hslot⟩ := (howner i).mp hmem
      rw [comp_apply, comp_apply, hi.number h hslot, hslot]
      rfl
    apply List.map_injective_iff.mpr (Option.some_injective _)
    rw [List.map_map, List.map_congr_left hnum, ← List.map_map, hown, List.map_map, List.map_map,
      List.map_map]
    rfl

theorem Labelled.children (h : w.Labelled) {p : ℕ} {x : Object} (hx : x ∈ w.children p) :
    FileName x.fi.filename.bytes ∧
      (w.sb.dtree.de x.fi.dirId.toNat).name = x.fi.filename.bytes ∧
      FilledBy (w.sb.dtree.de x.fi.dirId.toNat) (w.sb.dtree.de x.fi.dirId.toNat).name := by
  obtain ⟨i, hx, -⟩ := mem_children hx
  obtain ⟨hfile, hfilled⟩ := h.dir hx
  have hname := hfilled.name_eq hfile.1
  exact ⟨hfile, hname, hname ▸ hfilled⟩

end World

/-- All that `ffs_readdir` reads of a live directory, for any contents of the device. -/
theorem World.directory {w : World} (hi : DirsInv w) (hl : w.Labelled) {p : ℕ} {dir : Object}
    (hdir : (w.cell p).dir = some dir) (hids : ∀ i, (w.sb.dtree.de i).dirId = i)
    (hlists : ∀ d, w.sb.dtree.Lists d (w.subdirs d)) (disk : Disk) :
    ∃ D : Directory, D.disk = disk ∧ D.sb = w.sb ∧ D.dfi = dir.fi ∧ D.d = dir.fi.dirId.toNat ∧
      D.children.map D.childDirent = (w.children p).map Object.dirent := by
  have hlive := hi.live hdir
  obtain ⟨ht, hht⟩ := hi.table hdir
  have hbig : ∃ ht, dir.fi.isBigDir ≠ 0 → w.sb.bigDirHashtbl dir.fi.bigDirId.toNat = some ht := by
    by_cases hb : dir.fi.isBigDir = 0
    · exact ⟨initBigFileHt, absurd hb⟩
    · obtain ⟨ht, hht⟩ := hi.bigTable hdir hb
      exact ⟨ht, fun _ => hht⟩
  obtain ⟨bigHt, hbigHt⟩ := hbig
  have hchildren := hi.children_ids hdir
  refine ⟨{
    disk := disk
    sb := w.sb
    dfi := dir.fi
    d := dir.fi.dirId.toNat
    children := w.subdirs dir.fi.dirId.toNat
    name := fun d => (w.sb.dtree.de d).name
    hashtbl := ht
    bigHashtbl := bigHt
    d_lt := hlive.2.1
    dirId := hi.dirId_nat hdir
    table := hht
    bigTable := hbigHt
    lists := hlists _
    names := ?_
    filled := ?_ }, rfl, rfl, rfl, rfl, ?_⟩
  · rw [← hchildren]
    intro c hc
    obtain ⟨x, hx, rfl⟩ := List.mem_map.mp hc
    obtain ⟨hfile, hname, -⟩ := hl.children hx
    rw [hname]
    exact ⟨List.ne_nil_of_length_pos hfile.2.1, hfile.1⟩
  · intro q hq
    have hc := List.mem_map_of_mem (f := fun q => (w.sb.dtree.de (w.sb.dtree.node q).de).dirId) hq
    rw [(hlists _).ids, ← hchildren] at hc
    obtain ⟨x, hx, hxq⟩ := List.mem_map.mp hc
    rw [hids, ← (hxq.trans (hids _))]
    exact (hl.children hx).2.2
  · change (w.subdirs dir.fi.dirId.toNat).map (fun d => (⟨(w.sb.dtree.de d).name,
      le32ToCpu (dirIdToInode (BitVec.ofNat 64 d)), 4⟩ : Dirent)) = _
    rw [← hchildren, List.map_map]
    apply List.map_congr_left
    intro x hx
    obtain ⟨i, hxi, -⟩ := mem_children hx
    rw [comp_apply, (hl.children hx).2.1, Object.dirent, ← (hi.named i x hxi).2, hi.le32_ino hxi]

section

variable {mem : ℕ → ℕ → UInt8} {heap : ℕ → DirListEntry} {rootMem : FfsName} {w : World}

/-- Whatever was made and removed before, the first call through an open file of a directory lists
its live subdirectories with their names and numbers, then the number of each of its files in the
small table once, also of those whose discard is in flight; and nothing more, if the directory is
not promoted. -/
theorem readdir_live (h : Reach World.step World.KeepsNames (World.mounted mem heap rootMem) w)
    {p : ℕ} {dir : Object} (hdir : (w.cell p).dir = some dir) (disk : Disk) (cur : Cursors)
    {ctx : DirContext} (hpos : ctx.pos = 0) :
    ∃ (files : List ℕ) (small big : List Dirent) (cur' : Cursors),
      ffsReaddir disk w.sb dir.fi cur ctx =
        some (ctx.emitAll ((w.children p).map Object.dirent ++ small ++ big), cur') ∧
      files.Nodup ∧ (∀ i, i ∈ files ↔ ∃ e ∈ (w.cell i).smallHandle, e.dirId = dir.fi.dirId) ∧
      small.map Dirent.ino = files.map (fun i => (w.cell i).number) ∧
      (∀ e ∈ small, e.dType = 0) ∧ (dir.fi.isBigDir = 0 → big = []) := by
  obtain ⟨hr, hl⟩ := labels_run h
  obtain ⟨hi, hd⟩ := slots_run hr
  obtain ⟨hids, hlists⟩ := lists_run hr
  obtain ⟨D, hdisk, hsb, hdfi, hDd, hchildren⟩ := World.directory hd hl hdir hids hlists disk
  obtain ⟨cur', hcall, -⟩ := D.readdir_first cur hpos
  have hht := D.table
  rw [hsb, hDd] at hht
  obtain ⟨files, hnd, hfiles, hnum⟩ := hi.holders hl hht
  rw [Directory.readdir, hdisk, hsb, hdfi, Directory.entries, hchildren] at hcall
  rw [← hd.dirId_nat hdir] at hfiles
  refine ⟨files, _, _, cur', hcall, hnd, hfiles, ?_, ?_, ?_⟩
  · rw [hnum, List.map_map]
    apply List.map_congr_left
    intro x hx
    obtain ⟨hb, hs, -⟩ := ((liveSlots_inOrder _ _).mem x).mp hx
    rw [← hDd]
    exact le32_slotIno D.d_lt hb hs
  · intro e he
    obtain ⟨x, -, rfl⟩ := List.mem_map.mp he
    rfl
  · intro hsmall
    rw [Directory.bigSlots, hdfi, if_neg (not_not.mpr hsmall), List.map_nil]

/-- A subdirectory and two files, one of them unlinked with its discard in flight. -/
theorem readdir_live_root : ∃ w dir, run World.step World.KeepsNames zeroMounted
      [createOp 0 [102, 49], mkdirOp 1, createOp 0 [102, 50], .unlink 1 ⟨0, 0, 0, 0, 0⟩ true] =
        some w ∧ (w.cell 0).dir = some dir ∧
    ∃ (files : List ℕ) (small big : List Dirent) (cur' : Cursors),
      ffsReaddir (fun _ _ => 0) w.sb dir.fi ⟨0, 0, 0⟩ ⟨0, none, []⟩ =
        some (DirContext.emitAll ⟨0, none, []⟩
          ((w.children 0).map Object.dirent ++ small ++ big), cur') ∧
      files.Nodup ∧ (∀ i, i ∈ files ↔ ∃ e ∈ (w.cell i).smallHandle, e.dirId = dir.fi.dirId) ∧
      small.map Dirent.ino = files.map (fun i => (w.cell i).number) ∧
      (∀ e ∈ small, e.dType = 0) ∧ (dir.fi.isBigDir = 0 → big = []) := by
  obtain ⟨w, hrun, hsome⟩ := exists_of_check (p := fun w : World => (w.cell 0).dir.isSome = true)
    (r := run World.step World.KeepsNames zeroMounted [createOp 0 [102, 49], mkdirOp 1,
      createOp 0 [102, 50], .unlink 1 ⟨0, 0, 0, 0, 0⟩ true]) (by decide +kernel)
  obtain ⟨dir, hdir⟩ := Option.isSome_iff_exists.mp hsome
  exact ⟨w, dir, hrun, hdir, readdir_live (.of_run hrun) hdir _ _ rfl⟩

end

namespace World

variable {w : World} {p : ℕ} {dir : Object}

/-- `flatfs_dir_inode_by_name` takes the oldest live subdirectory of the name. -/
theorem Labelled.findChild_eq (hl : w.Labelled) (hi : DirsInv w) (hdir : (w.cell p).dir = some dir)
    (hids : ∀ i, (w.sb.dtree.de i).dirId = i) (hlists : ∀ d, w.sb.dtree.Lists d (w.subdirs d))
    (name : CStr) :
    let d := dir.fi.dirId.toNat
    findChild w.sb.dtree name (w.sb.dtree.de d).head (w.sb.dtree.de d).dirSize =
      ((w.children p).find? fun x => name = x.fi.filename.bytes).map fun x => x.fi.dirId.toNat := by
  intro d
  have hsearched : walk w.sb.dtree.next (w.sb.dtree.de d).head (w.sb.dtree.de d).dirSize =
      w.sb.dtree.visited d := (hlists d).searched
  have hkids : (w.sb.dtree.visited d).map (fun q => (w.sb.dtree.entry q).dirId) = w.subdirs d :=
    (hlists d).ids
  rw [DirTree.findChild_eq, hsearched]
  -- the name of a node is that of its directory
  have hnode : ((w.sb.dtree.visited d).find? fun q => name = (w.sb.dtree.entry q).name) =
      (w.sb.dtree.visited d).find? fun q =>
        name = (w.sb.dtree.de (w.sb.dtree.entry q).dirId).name := by
    apply List.find?_congr
    intro q _
    rw [show (w.sb.dtree.entry q).dirId = (w.sb.dtree.node q).de from hids _]
    rfl
  have hname : ((w.children p).find? fun x => name = x.fi.filename.bytes) =
      (w.children p).find? fun x => name = (w.sb.dtree.de x.fi.dirId.toNat).name := by
    apply List.find?_congr
    intro x hx
    obtain ⟨i, hx, -⟩ := mem_children hx
    obtain ⟨hfile, hfilled⟩ := hl.dir hx
    rw [hfilled.name_eq hfile.1]
  rw [hnode, hname]
  calc ((w.sb.dtree.visited d).find? fun q =>
        name = (w.sb.dtree.de (w.sb.dtree.entry q).dirId).name).map _
      = ((w.sb.dtree.visited d).map fun q => (w.sb.dtree.entry q).dirId).find? fun c =>
          name = (w.sb.dtree.de c).name := by
        rw [List.find?_map]
        rfl
    _ = ((w.children p).map fun x => x.fi.dirId.toNat).find? fun c =>
          name = (w.sb.dtree.de c).name := by rw [hkids, hi.children_ids hdir]
    _ = _ := by
        rw [List.find?_map]
        rfl

theorem DirsInv.child_ne (hi : DirsInv w) (hdir : (w.cell p).dir = some dir)
    (holder : ∀ i x, (w.cell i).dir = some x → x.parent = some p → p < i) {x : Object}
    (hx : x ∈ w.children p) : x.fi.dirId.toNat ≠ dir.fi.dirId.toNat := by
  obtain ⟨i, hx, hp⟩ := mem_children hx
  intro he
  have hip := hi.ids.inj i p _ (he ▸ dirIds_of_dir hx) (dirIds_of_dir hdir)
  exact (holder i x hx hp).ne' hip

theorem Labelled.dirInodeByName (hl : w.Labelled) (hi : DirsInv w)
    (hdir : (w.cell p).dir = some dir) (hids : ∀ i, (w.sb.dtree.de i).dirId = i)
    (hlists : ∀ d, w.sb.dtree.Lists d (w.subdirs d))
    (holder : ∀ i x, (w.cell i).dir = some x → x.parent = some p → p < i) (name : CStr) :
    flatfsDirInodeByName w.sb dir.ino name =
      ((w.children p).find? fun x => name = x.fi.filename.bytes).elim 0 Object.ino := by
  have hfind := hl.findChild_eq hi hdir hids hlists name
  unfold flatfsDirInodeByName
  dsimp only at hfind ⊢
  rw [hi.dirId_ino hdir, hfind]
  cases hx : (w.children p).find? fun x => name = x.fi.filename.bytes with
  | none => exact if_pos rfl
  | some x =>
    have hmem := List.mem_of_find?_eq_some hx
    have hne := hi.child_ne hdir holder hmem
    obtain ⟨i, hxi, -⟩ := mem_children hmem
    rw [Option.map_some, Option.getD_some, if_neg hne, ← (hi.named i x hxi).2]
    rfl

end World

/-- In every state of every such run `flatfs_dir_inode_by_name` answers with the number of the
oldest live subdirectory that has the name, and with 0 when none has it. -/
theorem dirLookup_live {mem : ℕ → ℕ → UInt8} {heap : ℕ → DirListEntry} {rootMem : FfsName}
    {w : World} (h : Reach World.step World.KeepsNames (World.mounted mem heap rootMem) w) {p : ℕ}
    {dir : Object} (hdir : (w.cell p).dir = some dir) (name : CStr) :
    flatfsDirInodeByName w.sb dir.ino name =
      ((w.children p).find? fun x => name = x.fi.filename.bytes).elim 0 Object.ino := by
  obtain ⟨hr, hl⟩ := labels_run h
  obtain ⟨hids, hlists⟩ := lists_run hr
  exact hl.dirInodeByName (slots_run hr).2 hdir hids hlists (fun i x hx => parent_lt h hx) name

theorem dirLookup_live_root : ∃ w dir, run World.step World.KeepsNames zeroMounted
      [mkdirOp 1, createOp 0 [102, 49], mkdirOp 2] = some w ∧ (w.cell 0).dir = some dir ∧
    flatfsDirInodeByName w.sb dir.ino [100] =
      ((w.children 0).find? fun x => [100] = x.fi.filename.bytes).elim 0 Object.ino := by
  obtain ⟨w, hrun, hsome⟩ := exists_of_check (p := fun w : World => (w.cell 0).dir.isSome = true)
    (r := run World.step World.KeepsNames zeroMounted
      [mkdirOp 1, createOp 0 [102, 49], mkdirOp 2]) (by decide +kernel)
  obtain ⟨dir, hdir⟩ := Option.isSome_iff_exists.mp hsome
  exact ⟨w, dir, hrun, hdir, dirLookup_live (.of_run hrun) hdir [100]⟩

end FlatFS
