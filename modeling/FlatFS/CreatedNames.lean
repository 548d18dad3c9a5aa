import FlatFS.GoneNames

namespace FlatFS
open Lib Function

structure CreateRun where
  names : NameState
  made : List (CStr × BitVec 64)

def NameState.slotAlloc (s : NameState) (d : ℕ) (name : CStr) : BitVec 64 :=
  (s.sb.hashtbl d).elim minusOne fun ht => (flatfsFileSlotAllocByName ht d name).1

/-- One create; a name whose bucket is full obtains no slot and leaves the directory as it is. -/
def createNext (d : ℕ) (r : CreateRun) (c : CStr × FfsName) : CreateRun :=
  match nameStep d r.names (.create c.1 c.2) with
  | some s => ⟨s, r.made ++ [(c.1, r.names.slotAlloc d c.1)]⟩
  | none => r

/-- Creates in a row from an empty table and zeroed pages, each with the name field of the
recycled inode. -/
def creates (d : ℕ) (sb : SbInfo) (cs : List (CStr × FfsName)) : CreateRun :=
  cs.foldl (createNext d) ⟨.init d sb, []⟩

/-- The search for the name answers the number, which is not the one for a missing file. -/
def Answers (d : ℕ) (s : NameState) (p : CStr × BitVec 64) : Prop :=
  p.2 ≠ 0 ∧ s.inodeByName d p.1 = p.2

def firstOfBucketZero (names : List CStr) : Option CStr := names.find? fun n => smallBucket n = 0

theorem strEq_zero {name : CStr} (h : FileName name) : strEq name (fun _ => 0) = false := by
  apply Bool.eq_false_iff.mpr
  intro he
  exact getD_ne_zero h.1 h.2.1 (((strEq_iff h.1 _).mp he).1 0 h.2.1).symm

/-- The name is alone in the entry of slot `slt` of its bucket, the slot is set, and the number is
made of the bucket and the slot. -/
structure Occupies (d : ℕ) (s : NameState) (ht : HashTable) (p : CStr × BitVec 64) (slt : ℕ) :
    Prop where
  slot_lt : slt < 8
  number : p.2.toNat = d * 2 ^ 15 + smallBucket p.1 * 8 + slt
  bit : ht.bit (smallBucket p.1) slt = true
  entry : entryNames (s.page (smallBucket p.1)) slt = memcpy (fun _ => 0) p.1

structure Stored (d : ℕ) (done : List CStr) (r : CreateRun) (ht : HashTable) : Prop where
  table : r.names.sb.hashtbl d = some ht
  fresh : ∀ name, name ∉ done → r.names.file name = none
  made : ∀ p ∈ r.made, p.1 ∈ done
  nodup : (r.made.map Prod.fst).Nodup
  place : ∀ p ∈ r.made, ∃ slt, Occupies d r.names ht p slt
  owner : ∀ b slt, slt < 8 → ht.bit b slt = true →
    ∃ p ∈ r.made, smallBucket p.1 = b ∧ Occupies d r.names ht p slt
  clear : ∀ b slt, ht.bit b slt = false → entryNames (r.names.page b) slt = fun _ => 0
  zero : ht.bit 0 0 = false ↔ ∀ name ∈ done, smallBucket name ≠ 0
  first : ∀ p ∈ r.made, p.2.toNat = d * 2 ^ 15 ↔ firstOfBucketZero done = some p.1

theorem stored_init (d : ℕ) (sb : SbInfo) : Stored d [] ⟨.init d sb, []⟩ initFileHt where
  table := update_self _ _ _
  fresh _ _ := rfl
  made p hp := by simp at hp
  nodup := List.nodup_nil
  place p hp := by simp at hp
  owner b slt _ hbit := by cases hbit
  clear _ _ _ := rfl
  zero := iff_of_true rfl (by simp)
  first p hp := by simp at hp

variable {d : ℕ} {done : List CStr} {r : CreateRun} {ht : HashTable}

theorem Stored.unique (h : Stored d done r ht) {p q : CStr × BitVec 64} (hp : p ∈ r.made)
    (hq : q ∈ r.made) (he : p.1 = q.1) : p = q :=
  List.inj_on_of_nodup_map h.nodup hp hq he

theorem Stored.nameSlot (h : Stored d done r ht) (hnames : ∀ name ∈ done, FileName name)
    {p : CStr × BitVec 64} (hp : p ∈ r.made) {slt : ℕ} (ho : Occupies d r.names ht p slt) :
    nameSlot (r.names.page (smallBucket p.1)) p.1 = some slt := by
  have hfile := hnames p.1 (h.made p hp)
  apply List.find?_range_eq_some.mpr
  refine ⟨?_, List.mem_range.mpr ho.slot_lt, fun j hj => ?_⟩
  · change strEq p.1 (entryNames _ slt) = true
    rw [ho.entry]
    exact (strEq_memcpy_zero hfile.1 hfile.1).mpr rfl
  · rw [Bool.not_eq_true']
    change strEq p.1 (entryNames _ j) = false
    have hj8 : j < 8 := by
      have := ho.slot_lt
      omega
    cases hbit : ht.bit (smallBucket p.1) j with
    | false =>
      rw [h.clear _ _ hbit]
      exact strEq_zero hfile
    | true =>
      obtain ⟨q, hq, hb, hoq⟩ := h.owner _ _ hj8 hbit
      have hentry := hoq.entry
      rw [hb] at hentry
      rw [hentry, Bool.eq_false_iff, ne_eq, strEq_memcpy_zero hfile.1 (hnames q.1 (h.made q hq)).1]
      intro he
      have hnum := hoq.number
      rw [← h.unique hp hq he, ho.number] at hnum
      omega

/-- A created name is found unless it has slot 0 of bucket 0. -/
theorem Stored.answers_iff (h : Stored d done r ht) (h2 : 2 ≤ d) (hd : d < 2 ^ 14)
    (hnames : ∀ name ∈ done, FileName name) {p : CStr × BitVec 64} (hp : p ∈ r.made) :
    Answers d r.names p ↔ p.2.toNat ≠ d * 2 ^ 15 := by
  obtain ⟨slt, ho⟩ := h.place p hp
  have hs := ho.slot_lt
  have hb := smallBucket_lt p.1
  have hnum := ho.number
  have hseg : (r.names.fileSeg d p.1).toNat = smallBucket p.1 * 8 + slt := by
    rw [NameState.fileSeg, h.table, Option.elim_some, getSeg_toNat (by norm_num) hs ho.bit]
    change segOf (smallBucket p.1) (FlatFS.nameSlot (r.names.page (smallBucket p.1)) p.1) = _
    rw [h.nameSlot hnames hp ho, segOf]
  have hne : p.2 ≠ 0 := by
    intro he
    rw [he] at hnum
    simp at hnum
    omega
  rw [Answers, and_iff_right hne, NameState.inodeByName, inodeBySeg]
  by_cases hz : smallBucket p.1 * 8 + slt = 0
  · have hseg0 : r.names.fileSeg d p.1 = 0 := BitVec.toNat_eq.mpr (hseg.trans hz)
    rw [if_pos hseg0]
    refine iff_of_false (Ne.symm hne) ?_
    omega
  · have hseg0 : r.names.fileSeg d p.1 ≠ 0 := by
      intro he
      rw [he] at hseg
      exact hz hseg.symm
    rw [if_neg hseg0]
    refine iff_of_true (BitVec.toNat_eq.mpr ?_) (by omega)
    rw [segIno_small hd hseg hb hs, hnum]

theorem Stored.full_of_none (h : Stored d done r ht) {c : CStr × FfsName} (hname : FileName c.1)
    (hnew : c.1 ∉ done) (hd : d < 2 ^ 14)
    (hnone : nameStep d r.names (.create c.1 c.2) = none) :
    (ht.buckets (smallBucket c.1)).Full := by
  by_contra hf
  have hne : (flatfsFileSlotAllocByName ht d c.1).1 ≠ minusOne := by
    intro he
    have hnum := (fileSlotAlloc_free hd hf).1
    have hb := smallBucket_lt c.1
    have hs := Bucket.freeSlot_lt hf
    rw [he, minusOne_toNat] at hnum
    omega
  simp only [nameStep, h.table, Option.bind_some] at hnone
  rw [if_pos ⟨hname, h.fresh _ hnew, hne⟩] at hnone
  cases hnone

section create

variable {s' : NameState} {name : CStr} {fi : FfsInodeInfo}

theorem Occupies.create (hc : Created d r.names s' name ht fi) {p : CStr × BitVec 64} {slt : ℕ}
    (ho : Occupies d r.names ht p slt) :
    Occupies d s' (ht.modify (smallBucket name) (·.take (ht.buckets (smallBucket name)).freeSlot))
      p slt := by
  refine ⟨ho.slot_lt, ho.number, (HashTable.bit_take _ _ _ _ _).mpr (.inr ho.bit), ?_⟩
  rw [hc.names]
  split_ifs with hb
  · have hne : slt ≠ (ht.buckets (smallBucket p.1)).freeSlot := by
      intro he
      have hbit := ho.bit
      rw [HashTable.bit, he, Bucket.freeSlot_clear (hb ▸ hc.free)] at hbit
      cases hbit
    rw [copyName, update_of_ne hne]
    exact ho.entry
  · exact ho.entry

/-- The new name takes the first free slot of its bucket. -/
theorem Stored.occupies_new (h : Stored d done r ht) (hd : d < 2 ^ 14)
    (hc : Created d r.names s' name ht fi) :
    Occupies d s' (ht.modify (smallBucket name) (·.take (ht.buckets (smallBucket name)).freeSlot))
      (name, r.names.slotAlloc d name) (ht.buckets (smallBucket name)).freeSlot := by
  constructor
  case slot_lt => exact Bucket.freeSlot_lt hc.free
  case number =>
    dsimp only
    rw [NameState.slotAlloc, h.table, Option.elim_some]
    exact (fileSlotAlloc_free hd hc.free).1
  case bit => exact (HashTable.bit_take _ _ _ _ _).mpr (.inl ⟨rfl, rfl⟩)
  case entry =>
    dsimp only
    rw [hc.names, if_pos rfl, copyName, update_self,
      h.clear _ _ (Bucket.freeSlot_clear hc.free)]

theorem firstOfBucketZero_concat (done : List CStr) (name : CStr) :
    firstOfBucketZero (done ++ [name]) =
      (firstOfBucketZero done).or (if smallBucket name = 0 then some name else none) := by
  rw [firstOfBucketZero, List.find?_append, ← firstOfBucketZero]
  congr 1
  split_ifs with hb
  · exact List.find?_cons_of_pos (by simpa using hb)
  · exact List.find?_cons_of_neg (by simpa using hb)

theorem firstOfBucketZero_old {old : CStr} (hold : old ∈ done) (hnew : name ∉ done) :
    firstOfBucketZero (done ++ [name]) = some old ↔ firstOfBucketZero done = some old := by
  rw [firstOfBucketZero_concat]
  cases hfirst : firstOfBucketZero done with
  | some n => rfl
  | none =>
    rw [Option.none_or]
    refine iff_of_false (fun he => ?_) (by simp)
    split_ifs at he
    exact hnew (Option.some.inj he ▸ hold)

theorem firstOfBucketZero_new (hnew : name ∉ done) :
    firstOfBucketZero (done ++ [name]) = some name ↔
      smallBucket name = 0 ∧ ∀ old ∈ done, smallBucket old ≠ 0 := by
  have hnone : firstOfBucketZero done = none ↔ ∀ old ∈ done, smallBucket old ≠ 0 := by
    rw [firstOfBucketZero, List.find?_eq_none]
    simp
  rw [firstOfBucketZero_concat, ← hnone]
  cases hfirst : firstOfBucketZero done with
  | some n =>
    refine iff_of_false (fun he => hnew ?_) (by simp)
    rw [← Option.some.inj he]
    exact List.mem_of_find?_eq_some hfirst
  | none => simp

theorem freeSlot_eq_zero_iff {b : Bucket} (hf : ¬ b.Full) :
    b.freeSlot = 0 ↔ b.slotBitmap 0 = false := by
  constructor
  · intro he
    rw [← he]
    exact Bucket.freeSlot_clear hf
  · intro hclear
    exact Bitmap.firstZero_eq (by decide) (by intro j hj; omega) hclear

/-- The new name gets slot 0 of bucket 0 when it is the first of the bucket. -/
theorem Stored.slot_zero_iff (h : Stored d done r ht) (hc : Created d r.names s' name ht fi) :
    smallBucket name = 0 ∧ (ht.buckets (smallBucket name)).freeSlot = 0 ↔
      smallBucket name = 0 ∧ ∀ old ∈ done, smallBucket old ≠ 0 := by
  refine and_congr_right fun hb => ?_
  rw [freeSlot_eq_zero_iff hc.free, ← h.zero, hb]
  rfl

theorem Stored.create (h : Stored d done r ht) (hd : d < 2 ^ 14) (hnew : name ∉ done)
    (hc : Created d r.names s' name ht fi) :
    Stored d (done ++ [name]) ⟨s', r.made ++ [(name, r.names.slotAlloc d name)]⟩
      (ht.modify (smallBucket name) (·.take (ht.buckets (smallBucket name)).freeSlot)) := by
  have hocc := h.occupies_new hd hc
  have hs := Bucket.freeSlot_lt hc.free
  have hnotmade : ∀ p ∈ r.made, p.1 ≠ name := fun p hp he => hnew (he ▸ h.made p hp)
  constructor
  case table => exact hc.table
  case fresh =>
    intro old hold
    rw [List.mem_append, List.mem_singleton, not_or] at hold
    dsimp only
    rw [hc.file, update_of_ne hold.2]
    exact h.fresh old hold.1
  case made =>
    intro p hp
    rw [List.mem_append, List.mem_singleton] at hp ⊢
    exact hp.imp (h.made p) (congrArg Prod.fst)
  case nodup =>
    dsimp only
    rw [List.map_append, List.map_singleton, ← List.concat_eq_append]
    apply List.Nodup.concat _ h.nodup
    intro hmem
    obtain ⟨p, hp, he⟩ := List.mem_map.mp hmem
    exact hnotmade p hp he
  case place =>
    intro p hp
    rcases List.mem_append.mp hp with hp | hp
    · obtain ⟨slt, ho⟩ := h.place p hp
      exact ⟨slt, ho.create hc⟩
    · rw [List.mem_singleton.mp hp]
      exact ⟨_, hocc⟩
  case owner =>
    intro b slt hlt hbit
    rcases (HashTable.bit_take _ _ _ _ _).mp hbit with ⟨hb, hslt⟩ | hbit
    · refine ⟨_, List.mem_append_right _ (List.mem_singleton_self _), hb.symm, ?_⟩
      rw [hslt]
      exact hocc
    · obtain ⟨p, hp, hb, ho⟩ := h.owner b slt hlt hbit
      exact ⟨p, List.mem_append_left _ hp, hb, ho.create hc⟩
  case clear =>
    intro b slt hbit
    rw [Bool.eq_false_iff, ne_eq, HashTable.bit_take, not_or, Bool.not_eq_true] at hbit
    dsimp only
    rw [hc.names]
    split_ifs with hb
    · subst hb
      rw [copyName, update_of_ne fun he => hbit.1 ⟨rfl, he⟩]
      exact h.clear _ _ hbit.2
    · exact h.clear _ _ hbit.2
  case zero =>
    rw [Bool.eq_false_iff, ne_eq, HashTable.bit_take, not_or, Bool.not_eq_true, h.zero]
    simp only [List.mem_append, List.mem_singleton, or_imp, forall_and, forall_eq]
    rw [and_comm]
    refine and_congr_right fun hall => ?_
    have hiff := h.slot_zero_iff hc
    rw [and_iff_left hall] at hiff
    rw [eq_comm (a := 0), eq_comm (a := 0), hiff]
  case first =>
    intro p hp
    rcases List.mem_append.mp hp with hp | hp
    · rw [firstOfBucketZero_old (h.made p hp) hnew]
      exact h.first p hp
    · have hnum := hocc.number
      rw [List.mem_singleton.mp hp, firstOfBucketZero_new hnew, ← h.slot_zero_iff hc]
      dsimp only at hnum ⊢
      omega

end create

theorem Stored.skip (h : Stored d done r ht) {name : CStr} (hnew : name ∉ done)
    (hf : (ht.buckets (smallBucket name)).Full) : Stored d (done ++ [name]) r ht := by
  constructor
  case table => exact h.table
  case fresh => exact fun old hold => h.fresh old fun hmem => hold (List.mem_append_left _ hmem)
  case made => exact fun p hp => List.mem_append_left _ (h.made p hp)
  case nodup => exact h.nodup
  case place => exact h.place
  case owner => exact h.owner
  case clear => exact h.clear
  case zero =>
    simp only [h.zero, List.mem_append, List.mem_singleton, or_imp, forall_and, forall_eq]
    refine (and_iff_left_of_imp fun hall hb => ?_).symm
    have hset : ht.bit 0 0 = true := hb ▸ hf 0 (by norm_num)
    rw [h.zero.mpr hall] at hset
    cases hset
  case first =>
    intro p hp
    rw [firstOfBucketZero_old (h.made p hp) hnew]
    exact h.first p hp

theorem Stored.next (h : Stored d done r ht) (hd : d < 2 ^ 14) {c : CStr × FfsName}
    (hname : FileName c.1) (hnew : c.1 ∉ done) :
    ∃ ht', Stored d (done ++ [c.1]) (createNext d r c) ht' := by
  unfold createNext
  cases hstep : nameStep d r.names (.create c.1 c.2) with
  | some s' =>
    obtain ⟨ht₁, fi, hc⟩ := create_created hd hstep
    obtain rfl : ht₁ = ht := Option.some.inj (hc.old.symm.trans h.table)
    exact ⟨_, h.create hd hnew hc⟩
  | none => exact ⟨ht, h.skip hnew (h.full_of_none hname hnew hd hstep)⟩

theorem creates_stored (hd : d < 2 ^ 14) (sb : SbInfo) {cs : List (CStr × FfsName)}
    (hnames : ∀ c ∈ cs, FileName c.1) (hnd : (cs.map Prod.fst).Nodup) :
    ∃ ht, Stored d (cs.map Prod.fst) (creates d sb cs) ht := by
  induction cs using List.reverseRecOn with
  | nil => exact ⟨_, stored_init d sb⟩
  | append_singleton cs c ih =>
    rw [List.map_append, List.map_singleton, ← List.concat_eq_append, List.nodup_concat] at hnd
    obtain ⟨ht, h⟩ := ih (fun c hc => hnames c (List.mem_append_left _ hc)) hnd.2
    rw [creates, List.foldl_append, List.map_append, List.map_singleton]
    exact h.next hd (hnames c (by simp)) hnd.1

/-- Of distinct names created in an empty directory, each one that obtained a slot is found under
its inode number, except the first that falls into bucket 0. -/
theorem createdNames_found_iff {d : ℕ} (h2 : 2 ≤ d) (hd : d < 2 ^ 14) (sb : SbInfo)
    {cs : List (CStr × FfsName)} (hnames : ∀ c ∈ cs, FileName c.1)
    (hnd : (cs.map Prod.fst).Nodup) :
    (∀ p ∈ (creates d sb cs).made, Answers d (creates d sb cs).names p ↔
      firstOfBucketZero (cs.map Prod.fst) ≠ some p.1) ∧
    ((∀ p ∈ (creates d sb cs).made, Answers d (creates d sb cs).names p) ↔
      ∀ c ∈ cs, smallBucket c.1 ≠ 0) := by
  obtain ⟨ht, h⟩ := creates_stored hd sb hnames hnd
  have hfile : ∀ name ∈ cs.map Prod.fst, FileName name := by simpa using hnames
  have hone : ∀ p ∈ (creates d sb cs).made, Answers d (creates d sb cs).names p ↔
      firstOfBucketZero (cs.map Prod.fst) ≠ some p.1 := by
    intro p hp
    rw [h.answers_iff h2 hd hfile hp, ne_eq, h.first p hp]
  have hall : (∀ c ∈ cs, smallBucket c.1 ≠ 0) ↔ ht.bit 0 0 = false := by
    rw [h.zero]
    simp
  refine ⟨hone, ?_⟩
  rw [hall]
  constructor
  · intro hans
    apply Bool.eq_false_iff.mpr
    intro hbit
    -- slot 0 of bucket 0 has an owner, whose number is that of the directory alone
    obtain ⟨p, hp, hb, ho⟩ := h.owner 0 0 (by norm_num) hbit
    have hnum := ho.number
    rw [hb, Nat.zero_mul, Nat.add_zero] at hnum
    exact (h.answers_iff h2 hd hfile hp).mp (hans p hp) hnum
  · intro hbit p hp
    rw [hone p hp]
    intro hfirst
    have hnum := (h.first p hp).mpr hfirst
    obtain ⟨slt, ho⟩ := h.place p hp
    have hset := ho.bit
    have hnum' := ho.number
    have hb : smallBucket p.1 = 0 := by omega
    have hs : slt = 0 := by omega
    rw [hb, hs, hbit] at hset
    cases hset

def rootCreates (names : List CStr) : CreateRun :=
  creates 2 (fillSuper (fun _ _ => 0) fun _ => ⟨0, 0, 0⟩) (names.map fun n => (n, ⟨0, fun _ => 0⟩))

theorem createdNames_found_two : (rootCreates [[102, 49], [97]]).made.length = 2 ∧
    ∀ p ∈ (rootCreates [[102, 49], [97]]).made,
      Answers 2 (rootCreates [[102, 49], [97]]).names p := by
  have hbkt : smallBucket [102, 49] ≠ 0 ∧ smallBucket [97] ≠ 0 := by decide +kernel
  refine ⟨by decide +kernel, (createdNames_found_iff le_rfl (by norm_num) _ ?_ ?_).2.mpr ?_⟩
  · simp only [List.map_cons, List.forall_mem_cons]
    exact ⟨by decide, by decide, by simp⟩
  · simp
  · simp only [List.map_cons, List.forall_mem_cons]
    exact ⟨hbkt.1, hbkt.2, by simp⟩

/-- `ksd` is the first name of the root in bucket 0: it obtains its slot and is not found. -/
theorem first_of_bucket_zero_not_found :
    (rootCreates [[107, 115, 100]]).made = [([107, 115, 100], 65536#64)] ∧
      (rootCreates [[107, 115, 100]]).names.inodeByName 2 [107, 115, 100] = 0 ∧
      ¬ ∀ p ∈ (rootCreates [[107, 115, 100]]).made,
        Answers 2 (rootCreates [[107, 115, 100]]).names p := by
  have hmade : (rootCreates [[107, 115, 100]]).made = [([107, 115, 100], 65536#64)] := by
    decide +kernel
  have hmiss : (rootCreates [[107, 115, 100]]).names.inodeByName 2 [107, 115, 100] = 0 := by
    decide +kernel
  refine ⟨hmade, hmiss, fun hall => ?_⟩
  have hans := (hall ([107, 115, 100], 65536#64) (hmade ▸ List.mem_singleton_self _)).2
  rw [hmiss] at hans
  exact absurd hans (by decide)

end FlatFS
