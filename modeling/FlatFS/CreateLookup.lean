import FlatFS.Lookup

namespace FlatFS
open Lib

/-- A lookup agrees with the create of `name` in directory `d` that promoted the directory. The id
is all ones in the eleven bits that its big inode numbers keep. Either the small page has no entry
that the lookup takes for the file, and in the big page the name ends where the new entry does; or
slot 0 of the small page has the name already, and its number under the id -1 is the one created. -/
def PromotedFound (dev : Device) (d : ℕ) (name : CStr) : Prop :=
  let small := nameSlot (dev (composeLba d (smallBucket name) 0 0)) name
  let big := dev (composeBigFileLba d (bigBucket name) 0 0)
  d % 2 ^ 11 = 2 ^ 11 - 1 ∧
    ((small = none ∨ small = some 0 ∧ smallBucket name = 0) ∧ bigBucket name ≠ 0 ∧
        (big.inode 0).filename.name name.length = 0 ∨
      small = some 0 ∧ smallBucket name ≠ 0 ∧ bigBucket name / 2 ^ 12 = 63)

instance (dev : Device) (d : ℕ) (name : CStr) : Decidable (PromotedFound dev d name) :=
  inferInstanceAs (Decidable (_ ∧ _))

/-- If `ffs_mknod` creates the file, a lookup of its name computes the inode number it assigned.
`addr` is the address of the new table when the create promotes the directory. -/
def LookupFindsCreated (dev : Device) (addr : BitVec 64) (sb : SbInfo) (dirIno : BitVec 64)
    (dfi : FfsInodeInfo) (mem : FfsName) (name : CStr) : Prop :=
  ∀ r ino fi, ffsMknodFileMem addr sb dfi mem name = some r → r.created = some (ino, fi) →
    ffsLookup (ffsDirtyInode dev fi) r.sb dirIno r.dfi name = some ino

theorem bigDirField_ones {d : ℕ} (h : d % 2 ^ 11 = 2 ^ 11 - 1) :
    bigDirField d = 2 ^ 64 - 2 ^ 21 := by
  rw [bigDirField, h]
  norm_num

theorem bigDirField_lt {d : ℕ} (h : d % 2 ^ 11 ≠ 2 ^ 11 - 1) :
    bigDirField d + 2 ^ 21 ≤ 2 ^ 64 - 2 ^ 21 := by
  unfold bigDirField
  split_ifs <;> omega

/-- The bucket stored for a big file keeps bits of the directory id, but its page is the page of
the name's bucket: the shift only sees the bucket modulo 64. -/
theorem bigFileInfo_page {d : ℕ} {ino : BitVec 64} {b : ℕ} (hb : b < 2 ^ 18)
    (hino : ino.toNat = bigDirField d + b * 8) (bigDirId : ℤ) (mem : FfsName)
    (name : CStr) :
    fileMetaLba (bigFileInfo d bigDirId ino mem name) = composeBigFileLba d b 0 0 := by
  have hbkt : bigInoToBucket ino = ((d % 2 ^ 8 * 2 ^ 18 + b : ℕ) : ℤ) := by
    have hdec := (bigIno_decodes (by omega) hino).1
    rwa [Nat.mul_div_cancel _ (by norm_num)] at hdec
  have hne : ¬ (bigFileInfo d bigDirId ino mem name).isBigDir = 0 := by
    simp [bigFileInfo]
  rw [fileMetaLba, if_neg hne]
  change composeBigFileLba d (bigInoToBucket ino) 0 0 = _
  rw [hbkt, composeBigFileLba_inode d _ (by omega), composeBigFileLba_inode d b (by omega)]
  have hmod : (20 + (d % 2 ^ 8 * 2 ^ 18 + b)) % 64 = (20 + b) % 64 := by omega
  rw [hmod]

theorem smallPage_ne_bigPage {d b : ℕ} (hd : d % 2 ^ 11 = 2 ^ 11 - 1) (hlt : d < 2 ^ 14)
    (hb : b < 2 ^ 18) : composeLba d (b % 2 ^ 12 : ℕ) 0 0 ≠ composeBigFileLba d b 0 0 := by
  have hall : ∀ k < 8, ∀ r < 64,
      BitVec.ofNat 64 ((2048 * k + 2047) * 2 ^ (r + 3) + 2 ^ 35) ≠
        BitVec.ofNat 64 ((2048 * k + 2047) * 2 ^ ((r + 8) % 64 + 3) + 2 ^ 35) ||| bigTagBase := by
    decide +kernel
  rw [composeLba_inode d _ (by omega), composeBigFileLba_inode d b (by omega)]
  have hk : d = 2048 * (d / 2048) + 2047 := by omega
  have hr : (20 + b) % 64 = ((12 + b % 2 ^ 12) % 64 + 8) % 64 := by omega
  rw [hr, hk]
  exact hall _ (by omega) _ (by omega)

/-- The name that `ffs_mknod` and `ffs_dirty_inode` bring into slot 0 ends where the byte after it
was zero before. -/
theorem strEq_dirtyPage (d : ℕ) (pos : ℤ) {ino : BitVec 64} (mem : FfsName) {name : CStr}
    (page : FfsInodePage) (h0 : 0 ∉ name) (hlen : name.length ≤ 255)
    (hslot : inoToSlot ino = 0) :
    strEq name ((dirtyPage (bigFileInfo d pos ino mem name) 1 page).inode 0).filename.name = true ↔
      (page.inode 0).filename.name name.length = 0 := by
  have hs : 0 = (bigFileInfo d pos ino mem name).slotId.toNat := by
    change 0 = (inoToSlot ino).toNat
    rw [hslot]
    rfl
  have hbytes : (bigFileInfo d pos ino mem name).filename.bytes = name :=
    fillName_bytes mem h0 hlen
  rw [dirtyPage_name _ one_ne_zero, if_pos hs, hbytes]
  exact strEq_memcpy h0 _

def segOf (b : ℕ) : Option ℕ → ℕ
  | some slt => b * 8 + slt
  | none => 0

theorem getSeg_toNat {bits : ℕ} (hbits : bits < 60) {page : BitVec 64 → FfsInodePage}
    {ht : HashTable} {name : CStr} {slt : ℕ} (hs : slt < 8)
    (hbit : ht.bit (bucketOf bits name).toNat slt = true) :
    (getSeg bits page ht name).toNat =
      segOf (bucketOf bits name).toNat (nameSlot (page (bucketOf bits name)) name) := by
  have hb : (bucketOf bits name).toNat < 2 ^ bits := bucketOf_lt (by omega) name
  have hlt : 2 ^ bits < 2 ^ 60 := Nat.pow_lt_pow_right (by norm_num) hbits
  rw [getSeg_eq hs hbit]
  cases hns : nameSlot (page (bucketOf bits name)) name with
  | none => rfl
  | some slt' => exact fileSeg_toNat (nameSlot_lt hns) (by omega)

/-- A lookup in a big directory where no subdirectory has the name: the segment of the small table
is taken if it is not 0, else that of the big table. -/
theorem ffsLookup_big_iff {dev : Device} {sb : SbInfo} {dirIno : BitVec 64} {dfi : FfsInodeInfo}
    {name : CStr} {ht : HashTable} {big : BigDirHashTable} (hlen : name.length ≤ 255)
    (hdir : flatfsDirInodeByName sb dirIno name = 0)
    (hht : sb.hashtbl (inodeToDirId dirIno).toNat = some ht) (hisBig : dfi.isBigDir ≠ 0)
    (hbig : sb.bigDirHashtbl dfi.bigDirId.toNat = some big) (ino : BitVec 64) :
    ffsLookup dev sb dirIno dfi name = some ino ↔
      ((getFileSeg dev dfi ht name).toNat ≠ 0 ∧
        ino.toNat = 2 ^ 64 - 2 ^ 15 + (getFileSeg dev dfi ht name).toNat) ∨
      ((getFileSeg dev dfi ht name).toNat = 0 ∧ (getBigFileSeg dev dfi big name).toNat ≠ 0 ∧
        ino.toNat = 2 ^ 64 - 2 ^ 21 + (getBigFileSeg dev dfi big name).toNat) := by
  have hs : (getFileSeg dev dfi ht name).toNat < 2 ^ 15 := getSeg_lt (by norm_num) _ _ _
  have hb : (getBigFileSeg dev dfi big name).toNat < 2 ^ 21 := getSeg_lt (by norm_num) _ _ _
  have hzero : ∀ x : BitVec 64, x = 0 ↔ x.toNat = 0 := fun x => BitVec.toNat_eq
  have hlen' : ¬ name.length > ffsMaxFilenameLen := by
    have : ffsMaxFilenameLen = 480 := rfl
    omega
  have hsmall := segIno_neg_one_small hs
  have hbigIno := segIno_neg_one_big hb
  simp only [ffsLookup, if_neg hlen', lookupIno, hdir, if_true, lookupDirId_zero, hht, hbig,
    Option.elim_some, flatfsFileInodeByName, flatfsBigFileInodeByName, inodeBySeg, hzero]
  by_cases h₁ : (getFileSeg dev dfi ht name).toNat = 0
  · by_cases h₂ : (getBigFileSeg dev dfi big name).toNat = 0
    · simp [h₁, h₂, hisBig]
    · have hne : ¬ (segIno (fileSlotBits + minFileBucketBits + minDirBits)
          (getBigFileSeg dev dfi big name) (-1)).toNat = 0 := by omega
      have hz : (0 : BitVec 64).toNat = 0 := rfl
      simp only [h₁, h₂, hz, hisBig, ne_eq, not_false_eq_true, and_self, if_true, if_false, hne,
        not_true_eq_false, false_and, true_and, false_or, Option.some.injEq]
      rw [BitVec.toNat_eq, hbigIno, eq_comm]
  · have hne : ¬ (segIno (fileSlotBits + minFileBucketBits) (getFileSeg dev dfi ht name)
        (-1)).toNat = 0 := by omega
    simp only [h₁, hne, if_false, false_and, not_false_eq_true, ne_eq, true_and, or_false,
      Option.some.injEq]
    rw [BitVec.toNat_eq, hsmall, eq_comm]

section

variable {sb : SbInfo} {dfi : FfsInodeInfo} {name : CStr} {d : ℕ} {ht : HashTable}

/-- After a promoting create the two searches see the small page as it was, and the big page with
the new entry in slot 0. -/
theorem promoted_segs (dev : Device) (mem : FfsName) (pos : ℕ) (hd : d % 2 ^ 11 = 2 ^ 11 - 1)
    (hlt : d < 2 ^ 14) (hdfi : dfi.dirId = d) (hf : (ht.buckets (smallBucket name)).Full)
    {ino : BitVec 64}
    (hino : ino.toNat = bigDirField d + bigBucket name * 8) :
    let fi := bigFileInfo d pos ino mem name
    let big := initBigFileHt.modify (bigBucket name) (·.take 0)
    let lba := composeBigFileLba d (bigBucket name) 0 0
    (getFileSeg (ffsDirtyInode dev fi) dfi ht name).toNat =
      segOf (smallBucket name) (nameSlot (dev (composeLba d (smallBucket name) 0 0)) name) ∧
    (getBigFileSeg (ffsDirtyInode dev fi) dfi big name).toNat =
      segOf (bigBucket name) (nameSlot (dirtyPage fi 1 (dev lba)) name) := by
  intro fi big lba
  have hlba : fileMetaLba fi = lba := bigFileInfo_page (bigBucket_lt name) hino _ _ _
  have hne : composeLba d (smallBucket name) 0 0 ≠ lba := by
    rw [← bigBucket_mod]
    exact smallPage_ne_bigPage hd hlt (bigBucket_lt name)
  have hbit : big.bit (bigBucket name) 0 = true :=
    (HashTable.bit_take _ _ _ _ _).mpr (.inl ⟨rfl, rfl⟩)
  constructor
  · rw [getFileSeg, getSeg_toNat (by norm_num) (by norm_num) (hf 0 (by norm_num)), hdfi]
    change segOf (smallBucket name)
      (nameSlot (ffsDirtyInode dev fi (composeLba d (smallBucket name) 0 0)) name) = _
    rw [ffsDirtyInode, hlba, Function.update_of_ne hne]
  · rw [getBigFileSeg, getSeg_toNat (by norm_num) (by norm_num) hbit, hdfi]
    change segOf (bigBucket name) (nameSlot (ffsDirtyInode dev fi lba) name) = _
    rw [ffsDirtyInode, hlba, Function.update_self]
    rfl

theorem answers_iff {b : ℕ} {small big : Option ℕ} (hb : b < 2 ^ 18)
    (hsmall : ∀ slt, small = some slt → slt < 8) (hbig : ∀ slt, big = some slt → slt < 8) :
    (segOf (b % 2 ^ 12) small ≠ 0 ∧
        2 ^ 64 - 2 ^ 21 + b * 8 = 2 ^ 64 - 2 ^ 15 + segOf (b % 2 ^ 12) small ∨
      segOf (b % 2 ^ 12) small = 0 ∧ segOf b big ≠ 0 ∧
        2 ^ 64 - 2 ^ 21 + b * 8 = 2 ^ 64 - 2 ^ 21 + segOf b big) ↔
    ((small = none ∨ small = some 0 ∧ b % 2 ^ 12 = 0) ∧ b ≠ 0 ∧ big = some 0 ∨
      small = some 0 ∧ b % 2 ^ 12 ≠ 0 ∧ b / 2 ^ 12 = 63) := by
  cases small with
  | none =>
    cases big with
    | none => simp [segOf]
    | some j =>
      have := hbig j rfl
      simp only [segOf, Option.some.injEq, reduceCtorEq, false_and, or_false, true_and]
      omega
  | some i =>
    have := hsmall i rfl
    cases big with
    | none =>
      simp only [segOf, Option.some.injEq, reduceCtorEq, and_false, false_or]
      omega
    | some j =>
      have := hbig j rfl
      simp only [segOf, Option.some.injEq, reduceCtorEq, false_or]
      omega

/-- The lookup after a promoting create. It does not read the bitmap or the counter. -/
theorem promoted_lookup_iff {sb' : SbInfo} (dev : Device) (mem : FfsName) (pos : ℕ)
    (hlt : d < 2 ^ 14) (hdfi : dfi.dirId = d) (hht : sb'.hashtbl d = some ht) (h0 : 0 ∉ name)
    (hlen : name.length ≤ 255)
    (hdir : flatfsDirInodeByName sb' (dirIdToInode (BitVec.ofNat 64 d)) name = 0)
    (hf : (ht.buckets (smallBucket name)).Full)
    (hbig : sb'.bigDirHashtbl pos = some (initBigFileHt.modify (bigBucket name) (·.take 0)))
    {ino : BitVec 64} (hino : ino.toNat = bigDirField d + bigBucket name * 8) :
    ffsLookup (ffsDirtyInode dev (bigFileInfo d pos ino mem name)) sb'
        (dirIdToInode (BitVec.ofNat 64 d)) { dfi with isBigDir := 1, bigDirId := pos } name =
      some ino ↔ PromotedFound dev d name := by
  have hb := bigBucket_lt name
  by_cases hones : d % 2 ^ 11 = 2 ^ 11 - 1
  · have hslot : inoToSlot ino = 0 := by
      rw [(bigIno_decodes (by omega) hino).2, Nat.mul_mod_left]
      rfl
    have hstr := strEq_dirtyPage d pos mem (dev (composeBigFileLba d (bigBucket name) 0 0)) h0
      hlen hslot
    -- the lookup searches the old small table and the fresh big one
    have hhash : sb'.hashtbl (inodeToDirId (dirIdToInode (BitVec.ofNat 64 d))).toNat = some ht := by
      rw [inodeToDirId_dirIdToInode (by omega)]
      exact hht
    have hbig' : sb'.bigDirHashtbl (Int.toNat pos) =
        some (initBigFileHt.modify (bigBucket name) (·.take 0)) := by
      rwa [Int.toNat_natCast]
    have hdfi' : ({ dfi with isBigDir := 1, bigDirId := pos } : FfsInodeInfo).dirId = d := hdfi
    obtain ⟨hs, ht'⟩ := promoted_segs dev mem pos hones hlt hdfi' hf hino
    rw [ffsLookup_big_iff hlen hdir hhash (by simp) hbig', hs, ht', hino, bigDirField_ones hones,
      ← bigBucket_mod, answers_iff hb (fun _ => nameSlot_lt) (fun _ => nameSlot_lt),
      nameSlot_zero.trans hstr, PromotedFound, ← bigBucket_mod]
    exact (and_iff_right hones).symm
  · refine iff_of_false (fun h => ?_) fun h => hones h.1
    -- the number is below all those that a lookup computes
    have hge := lookup_ge hdir h
    have hfield := bigDirField_lt hones
    omega

/-- In a small directory `d`, whatever its table and the device hold, a lookup computes the inode
number that `ffs_mknod` has just assigned to the name exactly when the bucket of the name is full
and either the counter is above 64, so that nothing is created, or the promoted directory happens
to agree. That holds of the promotion to the position behind the array, too. -/
theorem lookupFindsCreated_iff (dev : Device) (addr : BitVec 64) (mem : FfsName) (hlt : d < 2 ^ 14)
    (hdfi : dfi.dirId = d) (hsmall : dfi.isBigDir = 0) (hht : sb.hashtbl d = some ht)
    (hcount : CountsPositions sb) (h0 : 0 ∉ name) (hlen : name.length ≤ 255)
    (hdir : flatfsDirInodeByName sb (dirIdToInode (BitVec.ofNat 64 d)) name = 0) :
    LookupFindsCreated dev addr sb (dirIdToInode (BitVec.ofNat 64 d)) dfi mem name ↔
      (ht.buckets (smallBucket name)).Full ∧
        (64 < sb.bigDirNum.toNat ∨ PromotedFound dev d name) := by
  by_cases hf : (ht.buckets (smallBucket name)).Full
  · rw [and_iff_right hf]
    by_cases hnum : 64 < sb.bigDirNum.toNat
    · refine iff_of_true (fun r ino fi hr hc => ?_) (.inl hnum)
      rw [ffsMknodFileMem, mknodFileBy_full mem hsmall hdfi hht hf, resizeDirMem, resizeDir_eq,
        if_pos hnum] at hr
      cases hr
      cases hc
    · obtain ⟨pos, sb', hres, hp⟩ := resizeDirMem_promotes addr (not_lt.mp hnum) hcount
      obtain ⟨ino, hmk, hino⟩ := mknodFileBy_promotes mem hsmall hdfi hht hf hres hp.table
      set created : SbInfo := { sb' with
        bigDirHashtbl := Function.update sb'.bigDirHashtbl pos
          (some (initBigFileHt.modify (bigBucket name) (·.take 0))) }
      have hdir' : flatfsDirInodeByName created (dirIdToInode (BitVec.ofNat 64 d)) name = 0 := by
        rwa [flatfsDirInodeByName, hp.dtree]
      have hht' : created.hashtbl d = some ht := hp.hashtbl ▸ hht
      have hbig : created.bigDirHashtbl pos =
          some (initBigFileHt.modify (bigBucket name) (·.take 0)) := Function.update_self ..
      rw [or_iff_right hnum,
        ← promoted_lookup_iff dev mem pos hlt hdfi hht' h0 hlen hdir' hf hbig hino]
      constructor
      · intro h
        exact h _ ino _ hmk rfl
      · intro h r ino' fi hr hc
        rw [ffsMknodFileMem, hmk, Option.some.injEq] at hr
        subst hr
        cases hc
        exact h
  · refine iff_of_false (fun h => ?_) fun h => hf h.1
    obtain ⟨ino, hmk, hino⟩ := mknodFileBy_free mem hsmall hdfi hht hlt hf
    -- a small file has a number below 2 ^ 29, a lookup computes one at the top of the range
    have hge := lookup_ge (by exact hdir) (h _ ino _ hmk rfl)
    have hb := smallBucket_lt name
    have hs := Bucket.freeSlot_lt hf
    omega

end

def smallDirInfo (d : ℤ) : FfsInodeInfo := ⟨d, -1, -1, 1, 0, -1, 0, 0, fun _ => 0⟩

/-- Directory 2047 with a full table, promoted by the create of `f1`, does find `f1` again. -/
theorem lookupFindsCreated_promoted :
    let sb := { fillSuper (fun _ _ => 0) fun _ => ⟨0, 0, 0⟩ with
      hashtbl := fun _ => some ⟨fun _ => ⟨fun _ => true, 8#8⟩⟩ }
    LookupFindsCreated (fun _ => zeroPage) 0 sb (dirIdToInode 2047#64) (smallDirInfo 2047)
      ⟨0, fun _ => 0⟩ [102, 49] := by
  intro sb
  have hht : sb.hashtbl 2047 = some ⟨fun _ => ⟨fun _ => true, 8#8⟩⟩ := rfl
  have hdir : flatfsDirInodeByName sb (dirIdToInode 2047#64) [102, 49] = 0 := by decide +kernel
  have hcount : CountsPositions sb := fun hfull => absurd ⟨0, by norm_num, rfl⟩ hfull
  refine (lookupFindsCreated_iff _ _ _ (by norm_num) rfl rfl hht hcount (by decide) (by decide)
    hdir).mpr ⟨?_, .inr ?_⟩
  · exact fun _ _ => rfl
  · decide +kernel

/-- A fresh root directory does not find the file `f1` that was created in it: the lookup computes
the inode number under the directory id -1. -/
theorem lookup_misses_created :
    ¬ LookupFindsCreated (fun _ => zeroPage) 0 (fillSuper (fun _ _ => 0) fun _ => ⟨0, 0, 0⟩)
      (dirIdToInode 2#64) (smallDirInfo 2) ⟨0, fun _ => 0⟩ [102, 49] := by
  intro h
  obtain ⟨r, hmk, hne⟩ := exists_of_check
    (r := ffsMknodFileMem 0 (fillSuper (fun _ _ => 0) fun _ => ⟨0, 0, 0⟩) (smallDirInfo 2)
      ⟨0, fun _ => 0⟩ [102, 49])
    (p := fun r => r.created.any (fun x => decide
      (ffsLookup (ffsDirtyInode (fun _ => zeroPage) x.2) r.sb (dirIdToInode 2#64) r.dfi
        [102, 49] ≠ some x.1)) = true) (by decide +kernel)
  obtain ⟨⟨ino, fi⟩, hc, hne⟩ := exists_of_check hne
  exact hne (h r ino fi hmk hc)

end FlatFS
