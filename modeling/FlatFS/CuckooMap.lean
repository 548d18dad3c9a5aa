import FlatFS.CuckooResize

namespace FlatFS.Cuckoo
open Lib Function

variable {h : Hashes} {m : CStr → Option Value} {c : CuckooHash} {key : Key} {value : Value}

structure SameContents (c c' : CuckooHash) : Prop where
  table : c'.table = c.table
  capacity : c'.capacity = c.capacity
  entryNum : c'.entryNum = c.entryNum

structure Stored (h : Hashes) (m : CStr → Option Value) (key : Key) (value : Value)
    (c c' : CuckooHash) : Prop where
  capacity : c'.capacity = c.capacity
  entryNum : c'.entryNum = c.entryNum + 1
  isMap : c'.IsMap h (update m (keyStr key) (some value))

def InsertSpec (h : Hashes) (m : CStr → Option Value) (key : Key) (value : Value) (c : CuckooHash)
    (r : Status × CuckooHash) : Prop :=
  (r.1 = .fail ∧ SameContents c r.2) ∨ (r.1 = .success ∧ Stored h m key value c r.2)

theorem InsertSpec.of_counter {n : BitVec 64} {r : Status × CuckooHash}
    (hr : InsertSpec h m key value { c with findPath := n } r) : InsertSpec h m key value c r := by
  rcases hr with ⟨hs, hsame⟩ | ⟨hs, hst⟩
  · exact .inl ⟨hs, hsame.table, hsame.capacity, hsame.entryNum⟩
  · exact .inr ⟨hs, hst.capacity, hst.entryNum, hst.isMap⟩

theorem view_mk (hk : keyStr key ≠ []) (value : Value) :
    (Entry.mk key value).view = some (keyStr key, value) := by
  simp [Entry.view, Entry.invalid, hk]

theorem holds_write {capacity : ℕ} {t : Table} {p : Slot} (hc : 0 < capacity)
    (hm : Holds (home h capacity) (update (content capacity t) p none) m)
    (hk : keyStr key ≠ []) (hnew : m (keyStr key) = none) (hp : home h capacity (keyStr key) p)
    (value : Value) :
    Holds (home h capacity) (content capacity (update t p ⟨key, value⟩))
      (update m (keyStr key) (some value)) := by
  rw [content_update ⟨hp.lt hc, hp.2⟩, view_mk hk]
  have := hm.put (update_self _ _ _) hnew hp value
  rwa [update_idem] at this

theorem choosePath_cases {r₁ r₂ : PathResult} (hne : ¬ (r₁.len = 0 ∧ r₂.len = 0)) (f s : ℕ) :
    (choosePath r₁ r₂ f s = (r₁, f) ∧ r₁.len ≠ 0) ∨
      (choosePath r₁ r₂ f s = (r₂, s) ∧ r₂.len ≠ 0) := by
  unfold choosePath
  split_ifs with h₁ h₂ h₃
  · exact .inr ⟨rfl, fun h₂ => hne ⟨h₁, h₂⟩⟩
  · exact .inl ⟨rfl, h₁⟩
  · exact .inl ⟨rfl, h₁⟩
  · exact .inr ⟨rfl, h₂⟩

/-- Evicting along a path that `find_path` has found, and writing the new key into its start. -/
theorem CuckooHash.IsMap.evict (hm : c.IsMap h m)
    (hc : 0 < c.capacity) (hk : keyStr key ≠ []) (hnew : m (keyStr key) = none) {p : Slot}
    (hp : home h c.capacity (keyStr key) p) (hfull : content c.capacity c.table p ≠ none)
    (hne : (Cuckoo.findPath h c p.1 p.2).len ≠ 0) (value : Value) :
    Holds (home h c.capacity)
      (content c.capacity (update (Cuckoo.executePath c.table (Cuckoo.findPath h c p.1 p.2).paths
        (Cuckoo.findPath h c p.1 p.2).len) p ⟨key, value⟩))
      (update m (keyStr key) (some value)) := by
  have ht : Homed h c.capacity c.table := fun _ _ _ => hm.homed
  obtain ⟨path, hw, hle, hlen, hpaths⟩ := ht.findPath hc hfull hne
  rw [hlen, hpaths]
  exact holds_write hc (holds_executePath hm hc hfull hw hle) hk hnew hp value

/-- The eviction loop, over start slots of two full buckets. -/
theorem evictLoop_spec (hc : 0 < c.capacity) (hk : keyStr key ≠ [])
    (hnew : m (keyStr key) = none) (value : Value) (is : List ℕ) (his : ∀ i ∈ is, i < assocNum)
    (hm : c.IsMap h m)
    (hfull : ∀ i < assocNum,
      (c.table (h.first (keyStr key) c.capacity, i)).invalid = false ∧
      (c.table (h.second (keyStr key) c.capacity, i)).invalid = false) :
    InsertSpec h m key value c (evictLoop h key value (h.first (keyStr key) c.capacity)
      (h.second (keyStr key) c.capacity) c is) := by
  induction is generalizing c with
  | nil => exact .inl ⟨rfl, rfl, rfl, rfl⟩
  | cons i is ih =>
    have hi := his i List.mem_cons_self
    have hffull := content_ne_none.mpr ⟨⟨h.first_lt (keyStr key) hc, hi⟩, (hfull i hi).1⟩
    have hsfull := content_ne_none.mpr ⟨⟨h.second_lt (keyStr key) hc, hi⟩, (hfull i hi).2⟩
    unfold evictLoop
    dsimp only
    generalize (findPath h c (h.first (keyStr key) c.capacity) i).counter = n₁
    generalize (findPath h { c with findPath := n₁ } (h.second (keyStr key) c.capacity) i).counter
      = n₂
    split_ifs with hzero
    · exact InsertSpec.of_counter (ih (c := { c with findPath := n₂ }) hc
        (fun j hj => his j (List.mem_cons_of_mem _ hj)) hm hfull)
    · rcases choosePath_cases hzero (h.first (keyStr key) c.capacity)
        (h.second (keyStr key) c.capacity) with ⟨he, hne⟩ | ⟨he, hne⟩
      · rw [he]
        exact .inr ⟨rfl, rfl, rfl, hm.evict hc hk hnew ⟨.inl rfl, hi⟩ hffull hne value⟩
      · rw [he]
        refine .inr ⟨rfl, rfl, rfl, ?_⟩
        exact CuckooHash.IsMap.evict (c := { c with findPath := n₁ }) hm hc hk hnew
          ⟨.inr rfl, hi⟩ hsfull hne value

/-- `cuckoo_insert` of an absent key either fails and leaves the contents as they were, or
stores the one new binding. -/
theorem CuckooHash.IsMap.cuckooInsert (hm : c.IsMap h m)
    (hc : 0 < c.capacity) (hk : keyStr key ≠ []) (hnew : m (keyStr key) = none) (value : Value) :
    InsertSpec h m key value c (cuckooInsert h c key value) := by
  unfold Cuckoo.cuckooInsert
  dsimp only
  split
  · -- an empty slot in one of the two buckets of the key
    rename_i p hp
    obtain ⟨hpb, hps, hinv⟩ := scanBoth_some hp
    have hh : home h c.capacity (keyStr key) p := ⟨hpb, hps⟩
    have hempty : content c.capacity c.table p = none :=
      (content_eq_none ⟨hh.lt hc, hps⟩).mpr hinv
    refine .inr ⟨rfl, rfl, rfl, holds_write hc ?_ hk hnew hh value⟩
    rwa [← hempty, update_eq_self]
  · -- both buckets are full, and a path has to be found
    rename_i hnone
    exact evictLoop_spec hc hk hnew value _ (fun i hi => List.mem_range.mp hi) hm
      (scanBoth_none.mp hnone)

theorem findKey_some (hc : 0 < c.capacity) (hk : keyStr key ≠ []) {p : Slot}
    (hp : findKey h c key = some p) :
    content c.capacity c.table p = some (keyStr key, (c.table p).value) := by
  obtain ⟨hpb, hps, htest⟩ := scanBoth_some hp
  have hkey : keyStr (c.table p).key = keyStr key := by simpa using htest
  have hh : home h c.capacity (keyStr key) p := ⟨hpb, hps⟩
  refine content_eq_some.mpr ⟨⟨hh.lt hc, hps⟩, ?_, hkey, rfl⟩
  simpa [Entry.invalid, hkey] using hk

theorem CuckooHash.IsMap.findKey_none (hm : c.IsMap h m)
    (hp : findKey h c key = none) : m (keyStr key) = none := by
  by_contra hne
  obtain ⟨v, hv⟩ := Option.ne_none_iff_exists'.mp hne
  obtain ⟨p, hp'⟩ := (hm.mem_iff _ _).mp hv
  obtain ⟨hin, -, hkey, -⟩ := content_eq_some.mp hp'
  obtain ⟨b, i⟩ := p
  have htest := scanBoth_none.mp hp i hin.2
  -- the key stands in one of its two buckets, and the scan goes over both
  rcases (hm.homed hp').1 with he | he
  · rw [← he] at htest
    simp [hkey] at htest
  · rw [← he] at htest
    simp [hkey] at htest

/-- `cuckoo_query` answers as the map does, and leaves the caller's buffer alone on a miss. -/
theorem CuckooHash.IsMap.cuckooQuery (hm : c.IsMap h m)
    (hc : 0 < c.capacity) (hk : keyStr key ≠ []) (value : Value) :
    cuckooQuery h c key value = match m (keyStr key) with
      | some v => (.success, v)
      | none => (.fail, value) := by
  unfold Cuckoo.cuckooQuery
  cases hf : findKey h c key with
  | none => rw [hm.findKey_none hf]
  | some p => rw [hm.lookup (findKey_some hc hk hf)]

theorem CuckooHash.IsMap.cuckooUpdate_absent
    (hm : c.IsMap h m) (hc : 0 < c.capacity)
    (hk : keyStr key ≠ []) (hnew : m (keyStr key) = none) (value : Value) :
    cuckooUpdate h c key value = (.fail, c) := by
  unfold Cuckoo.cuckooUpdate
  cases hf : findKey h c key with
  | none => rfl
  | some p =>
    rw [hm.lookup (findKey_some hc hk hf)] at hnew
    cases hnew

theorem CuckooHash.IsMap.cuckooUpdate_present
    (hm : c.IsMap h m) (hc : 0 < c.capacity)
    (hk : keyStr key ≠ []) (hold : m (keyStr key) ≠ none) (value : Value) :
    (cuckooUpdate h c key value).1 = .success ∧
      (cuckooUpdate h c key value).2.capacity = c.capacity ∧
      (cuckooUpdate h c key value).2.entryNum = c.entryNum ∧
      (cuckooUpdate h c key value).2.IsMap h (update m (keyStr key) (some value)) := by
  cases hf : findKey h c key with
  | none => exact absurd (hm.findKey_none hf) hold
  | some p =>
    have hp := findKey_some hc hk hf
    obtain ⟨hin, -, hkey, -⟩ := content_eq_some.mp hp
    have he : Cuckoo.cuckooUpdate h c key value = (.success, { c with
        table := update c.table p ⟨(c.table p).key, value⟩ }) := by
      simp only [Cuckoo.cuckooUpdate, hf]
    rw [he]
    refine ⟨rfl, rfl, rfl, ?_⟩
    rw [CuckooHash.IsMap, content_update hin, view_mk (by rwa [hkey]), hkey]
    exact hm.set hp value

inductive Op
  | insert (key : Key) (value : Value)
  | update (key : Key) (value : Value)
  | query (key : Key)
  | resize

/-- A table beside the map that the results of the calls make up. -/
structure MapRun where
  c : CuckooHash
  m : CStr → Option Value

def ValidKey (key : Key) : Prop := keyStr key ≠ [] ∧ (keyStr key).length < keyLen

instance (key : Key) : Decidable (ValidKey key) := inferInstanceAs (Decidable (_ ∧ _))

/-- A table that was allocated: its length in bytes is an `unsigned long`. -/
def TableFits (capacity : ℕ) : Prop := capacity * bucketSize < 2 ^ 64

instance (capacity : ℕ) : Decidable (TableFits capacity) := inferInstanceAs (Decidable (_ < _))

/-- Keys are valid, only absent keys are inserted, and the allocation of a resize succeeds. The
map follows the status that a call returns. -/
def step (h : Hashes) (s : MapRun) : Op → Option MapRun
  | .insert key value =>
    if ValidKey key ∧ s.m (keyStr key) = none then
      let r := cuckooInsert h s.c key value
      some ⟨r.2, if r.1 = .success then Function.update s.m (keyStr key) (some value) else s.m⟩
    else none
  | .update key value =>
    if ValidKey key then
      let r := cuckooUpdate h s.c key value
      some ⟨r.2, if r.1 = .success then Function.update s.m (keyStr key) (some value) else s.m⟩
    else none
  | .query key => if ValidKey key then some s else none
  | .resize =>
    if TableFits (s.c.capacity * resizeFactor) then some ⟨(cuckooResize h true s.c).2, s.m⟩
    else none

def occupied (c : CuckooHash) : Finset Slot :=
  (Finset.range c.capacity ×ˢ Finset.range assocNum).filter fun p => (c.table p).invalid = false

theorem mem_occupied {p : Slot} : p ∈ occupied c ↔ content c.capacity c.table p ≠ none := by
  rw [content_ne_none, occupied, Finset.mem_filter, Finset.mem_product, Finset.mem_range,
    Finset.mem_range]

theorem card_occupied_le (c : CuckooHash) : (occupied c).card ≤ c.capacity * assocNum := by
  refine (Finset.card_filter_le _ _).trans ?_
  simp

structure Inv (h : Hashes) (s : MapRun) : Prop where
  pos : 0 < s.c.capacity
  fits : TableFits s.c.capacity
  isMap : s.c.IsMap h s.m
  count : s.c.entryNum.toNat = {k | s.m k ≠ none}.ncard

theorem inv_init (h : Hashes) {capacity : ℕ} (hc : 0 < capacity) (hfit : TableFits capacity) :
    Inv h ⟨cuckooHashInit capacity, fun _ => none⟩ where
  pos := hc
  fits := hfit
  isMap := by
    change Holds _ (content capacity zeroTable) _
    rw [content_zero]
    exact Holds.empty
  count := by simp [cuckooHashInit]

theorem Inv.card {s : MapRun} (hi : Inv h s) : (occupied s.c).card = {k | s.m k ≠ none}.ncard :=
  hi.isMap.card_eq _ fun _ => mem_occupied

theorem keys_update (m : CStr → Option Value) (k : CStr) (v : Value) :
    {k' | Function.update m k (some v) k' ≠ none} = insert k {k' | m k' ≠ none} := by
  ext k'
  rcases eq_or_ne k' k with rfl | hne
  · simp
  · simp [hne]

/-- The counter does not wrap: a table that fits has fewer slots than an `unsigned long` counts. -/
theorem Inv.stored {s : MapRun} (hi : Inv h s) {key : Key} {value : Value} {c' : CuckooHash}
    (hnew : s.m (keyStr key) = none) (hst : Stored h s.m key value s.c c') :
    Inv h ⟨c', Function.update s.m (keyStr key) (some value)⟩ := by
  have hfin := hi.isMap.finite_keys (occupied s.c) fun _ => mem_occupied
  have hnot : keyStr key ∉ {k | s.m k ≠ none} := by simp [hnew]
  have hsucc : {k | Function.update s.m (keyStr key) (some value) k ≠ none}.ncard =
      {k | s.m k ≠ none}.ncard + 1 := by
    rw [keys_update, Set.ncard_insert_of_notMem hnot hfin]
  have hcard := hst.isMap.card_eq (occupied c') fun _ => mem_occupied
  have hle := card_occupied_le c'
  have hfit : s.c.capacity * 48 < 2 ^ 64 := hi.fits
  have h4 : c'.capacity * assocNum = s.c.capacity * 4 := by rw [hst.capacity]
  refine ⟨?_, ?_, hst.isMap, ?_⟩
  · rw [hst.capacity]
    exact hi.pos
  · rw [hst.capacity]
    exact hi.fits
  · rw [hst.entryNum, BitVec.toNat_add, hi.count, hsucc]
    refine Nat.mod_eq_of_lt ?_
    change _ + 1 < _
    omega

theorem inv_step {s s' : MapRun} {op : Op} (hi : Inv h s) (hstep : step h s op = some s') :
    Inv h s' := by
  cases op with
  | insert key value =>
    simp only [step] at hstep
    obtain ⟨hok, he⟩ := Option.ite_none_right_eq_some.mp hstep
    cases he
    rcases hi.isMap.cuckooInsert hi.pos hok.1.1 hok.2 value with ⟨hs, hsame⟩ | ⟨hs, hst⟩
    · rw [if_neg (by rw [hs]; decide)]
      obtain ⟨ht, hcap, hn⟩ := hsame
      exact ⟨by rw [hcap]; exact hi.pos, by rw [hcap]; exact hi.fits,
        by rw [CuckooHash.IsMap, hcap, ht]; exact hi.isMap, by rw [hn]; exact hi.count⟩
    · rw [if_pos hs]
      exact hi.stored hok.2 hst
  | update key value =>
    simp only [step] at hstep
    obtain ⟨hok, he⟩ := Option.ite_none_right_eq_some.mp hstep
    cases he
    by_cases habs : s.m (keyStr key) = none
    · rw [hi.isMap.cuckooUpdate_absent hi.pos hok.1 habs]
      exact hi
    · obtain ⟨hs, hcap, hn, hh⟩ := hi.isMap.cuckooUpdate_present hi.pos hok.1 habs value
      rw [if_pos hs]
      refine ⟨by rw [hcap]; exact hi.pos, by rw [hcap]; exact hi.fits, hh, ?_⟩
      rw [hn, hi.count, keys_update, Set.insert_eq_of_mem habs]
  | query key =>
    simp only [step] at hstep
    obtain ⟨hok, he⟩ := Option.ite_none_right_eq_some.mp hstep
    cases he
    exact hi
  | resize =>
    simp only [step] at hstep
    obtain ⟨hfit, he⟩ := Option.ite_none_right_eq_some.mp hstep
    cases he
    have hlt : s.c.capacity * resizeFactor < 2 ^ 64 := by
      have hfit' : s.c.capacity * resizeFactor * 48 < 2 ^ 64 := hfit
      omega
    obtain ⟨-, hcap, hn, hh⟩ := hi.isMap.cuckooResize hi.pos hlt
    exact ⟨by rw [hcap]; exact Nat.mul_pos hi.pos (by norm_num), by rw [hcap]; exact hfit, hh,
      by rw [hn]; exact hi.count⟩

structure Refines (h : Hashes) (s : MapRun) : Prop where
  /-- A query answers as the map does. -/
  query : ∀ key value, ValidKey key → cuckooQuery h s.c key value = match s.m (keyStr key) with
    | some v => (.success, v)
    | none => (.fail, value)
  /-- An insert that does not succeed answers `FAIL` and changes no entry. -/
  insert_fail : ∀ key value, ValidKey key → s.m (keyStr key) = none →
    (cuckooInsert h s.c key value).1 ≠ .success →
    (cuckooInsert h s.c key value).1 = .fail ∧ SameContents s.c (cuckooInsert h s.c key value).2
  update_absent : ∀ key value, ValidKey key → s.m (keyStr key) = none →
    cuckooUpdate h s.c key value = (.fail, s.c)
  update_present : ∀ key value, ValidKey key → s.m (keyStr key) ≠ none →
    (cuckooUpdate h s.c key value).1 = .success
  resize : TableFits (s.c.capacity * resizeFactor) → (cuckooResize h true s.c).1 = .success
  /-- A key of the map is in one slot, with its value; -/
  once : ∀ k v, s.m k = some v → ∃! p, p ∈ occupied s.c ∧
    keyStr (s.c.table p).key = k ∧ (s.c.table p).value = v
  /-- and in no other slot, and no slot holds anything else. -/
  only : ∀ p ∈ occupied s.c, s.m (keyStr (s.c.table p).key) = some (s.c.table p).value
  entryNum : s.c.entryNum.toNat = (occupied s.c).card

theorem Inv.refines {s : MapRun} (hi : Inv h s) : Refines h s where
  query key value hk := hi.isMap.cuckooQuery hi.pos hk.1 value
  insert_fail key value hk hnew hne := by
    rcases hi.isMap.cuckooInsert hi.pos hk.1 hnew value with hfail | ⟨hs, -⟩
    · exact hfail
    · exact absurd hs hne
  update_absent key value hk hnew := hi.isMap.cuckooUpdate_absent hi.pos hk.1 hnew value
  update_present key value hk hold := (hi.isMap.cuckooUpdate_present hi.pos hk.1 hold value).1
  resize hfit := by
    have hfit' : s.c.capacity * resizeFactor * 48 < 2 ^ 64 := hfit
    exact (hi.isMap.cuckooResize hi.pos (by omega)).1
  once k v hv := by
    obtain ⟨p, hp⟩ := (hi.isMap.mem_iff k v).mp hv
    obtain ⟨-, -, hkey, hvalue⟩ := content_eq_some.mp hp
    refine ⟨p, ⟨mem_occupied.mpr (by simp [hp]), hkey, hvalue⟩, ?_⟩
    rintro q ⟨hq, rfl, rfl⟩
    obtain ⟨hin, hinv⟩ := content_ne_none.mp (mem_occupied.mp hq)
    exact hi.isMap.inj (content_eq_some.mpr ⟨hin, hinv, rfl, rfl⟩) hp
  only p hp := by
    obtain ⟨hin, hinv⟩ := content_ne_none.mp (mem_occupied.mp hp)
    exact hi.isMap.lookup (content_eq_some.mpr ⟨hin, hinv, rfl, rfl⟩)
  entryNum := hi.count.trans hi.card.symm

/-- Every run of the calls from a fresh table of any capacity, under any two hash functions,
leaves a table that is the map of the bindings written. -/
theorem cuckoo_run (h : Hashes) (capacity : ℕ) (hc : 1 ≤ capacity) (hfit : TableFits capacity)
    {s : MapRun} (hs : Reach (step h) anyStep ⟨cuckooHashInit capacity, fun _ => none⟩ s) :
    Refines h s := by
  have hi : Inv h s := hs.invariant (Inv h) (inv_init h hc hfit) fun _ _ _ hi _ hstep =>
    inv_step hi hstep
  exact hi.refines

/-- Every key has the buckets 0 and 1, but `z` only has bucket 0. -/
def twoBuckets : Hashes := ⟨fun _ => 0, fun k => if k = [122] then 0 else 1⟩

def insertByte (b : UInt8) : Op := .insert #v[b, 0, 0, 0] (.replicate valueLen b)

theorem cuckoo_run_evicts : ∃ s : MapRun,
    run (step twoBuckets) anyStep ⟨cuckooHashInit 2, fun _ => none⟩
      ([97, 98, 99, 100, 101, 102, 103, 122].map insertByte ++ [.resize]) = some s ∧
    s.c.evictLen = 1 ∧ s.c.capacity = 4 ∧ Refines twoBuckets s := by
  obtain ⟨s, hrun, hlen, hcap⟩ := exists_of_check
    (r := run (step twoBuckets) anyStep ⟨cuckooHashInit 2, fun _ => none⟩
      ([97, 98, 99, 100, 101, 102, 103, 122].map insertByte ++ [.resize]))
    (p := fun s => s.c.evictLen = 1 ∧ s.c.capacity = 4) (by decide +kernel)
  exact ⟨s, hrun, hlen, hcap, cuckoo_run twoBuckets 2 (by norm_num) (by decide) (.of_run hrun)⟩

end FlatFS.Cuckoo
