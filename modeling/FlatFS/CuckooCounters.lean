import FlatFS.CuckooMap
import FlatFS.Lib.Word

namespace FlatFS.Cuckoo
open Lib Function

variable {h : Hashes} {c c' : CuckooHash} {key : Key} {value : Value}

/-- A search of `find_path` probes one slot for every hop it takes. -/
theorem findPathLoop_counter {t : Table} {capacity : ℕ} (ht : Homed h capacity t)
    (hc : 0 < capacity) (fuel : ℕ) (p : Slot) (paths : List PathNode) (counter : BitVec 64)
    (hp : content capacity t p ≠ none) :
    ∃ k ≤ fuel, (findPathLoop h t capacity fuel p.1 p.2 paths counter).counter =
        counter + BitVec.ofNat 64 k ∧
      ((findPathLoop h t capacity fuel p.1 p.2 paths counter).len = 0 ∨
        (findPathLoop h t capacity fuel p.1 p.2 paths counter).len =
          BitVec.ofNat 64 (paths.length + k)) := by
  induction fuel generalizing p paths counter with
  | zero => exact ⟨0, le_rfl, (BitVec.add_zero counter).symm, .inl rfl⟩
  | succ fuel ih =>
    obtain ⟨⟨k, v⟩, hkv⟩ := Option.ne_none_iff_exists'.mp hp
    obtain ⟨b, hb, -⟩ := ht.evictBucket hkv
    have hone : counter + 1 = counter + BitVec.ofNat 64 1 := rfl
    cases hfe : firstEmpty t b with
    | some i =>
      refine ⟨1, Nat.succ_pos fuel, ?_, .inr ?_⟩ <;> simp [Cuckoo.findPathLoop, hb, hfe]
    | none =>
      have hnext : content capacity t (b, assocNum - 1) ≠ none := by
        have hspec := (ht.hop_spec hc hkv).2
        rw [hop_eq hb, hfe] at hspec
        exact hspec rfl
      obtain ⟨n, hn, hcount, hlen⟩ := ih (b, assocNum - 1)
        (paths ++ [⟨p.1, p.2, b, assocNum - 1⟩]) (counter + 1) hnext
      refine ⟨n + 1, Nat.succ_le_succ hn, ?_, ?_⟩
      · simp only [Cuckoo.findPathLoop, hb, hfe]
        rw [hcount, hone, BitVec.add_assoc, Lib.ofNat_add, Nat.add_comm 1 n]
      · simp only [Cuckoo.findPathLoop, hb, hfe]
        rw [List.length_append, List.length_singleton] at hlen
        rwa [Nat.add_comm n 1, ← Nat.add_assoc]

theorem findPath_counter (ht : Homed h c.capacity c.table) (hc : 0 < c.capacity) {b i : ℕ}
    (hp : content c.capacity c.table (b, i) ≠ none) :
    ∃ k ≤ maxEviction, (findPath h c b i).counter = c.findPath + BitVec.ofNat 64 k ∧
      ((findPath h c b i).len = 0 ∨ (findPath h c b i).len = BitVec.ofNat 64 k) := by
  have hloop := findPathLoop_counter ht hc maxEviction (b, i) [] c.findPath hp
  rw [List.length_nil] at hloop
  simpa only [Nat.zero_add, findPath] using hloop

/-- What a call of `cuckoo_insert` adds: probes of `find_path`, and the hops of one path when it
stores the entry by an eviction. -/
structure InsertCounters (probes bound : ℕ) (c : CuckooHash) (r : Status × CuckooHash) : Prop where
  probes_le : probes ≤ bound
  findPath : r.2.findPath = c.findPath + BitVec.ofNat 64 probes
  evictLen : ∃ hops ≤ probes, r.2.evictLen = c.evictLen + BitVec.ofNat 64 hops ∧
    (r.1 = .success ∧ hops ≤ maxEviction ∨ r.1 = .fail ∧ hops = 0)
  initWrite : r.2.initWrite = c.initWrite
  resizeWrite : r.2.resizeWrite = c.resizeWrite

theorem evictLoop_counters (ht : Homed h c.capacity c.table) (hc : 0 < c.capacity) {f s : ℕ}
    (value : Value) (is : List ℕ)
    (hfull : ∀ i ∈ is, content c.capacity c.table (f, i) ≠ none ∧
      content c.capacity c.table (s, i) ≠ none) :
    ∃ probes, InsertCounters probes (2 * maxEviction * is.length) c
      (evictLoop h key value f s c is) := by
  induction is generalizing c with
  | nil =>
    have hzero : ∀ x : BitVec 64, x = x + BitVec.ofNat 64 0 := fun x => (BitVec.add_zero x).symm
    exact ⟨0, ⟨le_rfl, hzero _, ⟨0, le_rfl, hzero _, .inr ⟨rfl, rfl⟩⟩, rfl, rfl⟩⟩
  | cons i is ih =>
    obtain ⟨hf, hs⟩ := hfull i List.mem_cons_self
    obtain ⟨k₁, hk₁, hcount₁, hlen₁⟩ := findPath_counter ht hc hf
    obtain ⟨k₂, hk₂, hcount₂, hlen₂⟩ := findPath_counter
      (c := { c with findPath := (findPath h c f i).counter }) ht hc hs
    have hboth : (findPath h { c with findPath := (findPath h c f i).counter } s i).counter =
        c.findPath + BitVec.ofNat 64 (k₁ + k₂) := by
      rw [hcount₂, hcount₁, BitVec.add_assoc, Lib.ofNat_add]
    have h16 : maxEviction = 16 := rfl
    unfold evictLoop
    dsimp only
    split_ifs with hzero
    · obtain ⟨probes, hr⟩ := ih (c := { c with findPath :=
        (findPath h { c with findPath := (findPath h c f i).counter } s i).counter }) ht hc
        fun j hj => hfull j (List.mem_cons_of_mem _ hj)
      obtain ⟨hops, hle, hmoved, hout⟩ := hr.evictLen
      refine ⟨k₁ + k₂ + probes, ⟨?_, ?_, ⟨hops, by omega, hmoved, hout⟩, hr.initWrite,
        hr.resizeWrite⟩⟩
      · have hbound := hr.probes_le
        rw [List.length_cons, Nat.mul_succ]
        omega
      · rw [hr.findPath]
        show (findPath h { c with findPath := (findPath h c f i).counter } s i).counter + _ = _
        rw [hboth, BitVec.add_assoc, Lib.ofNat_add]
    · -- one of the two paths is executed, and its length was counted as probes before
      have hbound : k₁ + k₂ ≤ 2 * maxEviction * (i :: is).length := by
        rw [List.length_cons, Nat.mul_succ]
        omega
      rcases choosePath_cases hzero f s with ⟨he, hne⟩ | ⟨he, hne⟩
      · rw [he]
        have hl := hlen₁.resolve_left hne
        exact ⟨k₁ + k₂, hbound, hboth,
          ⟨k₁, Nat.le_add_right k₁ k₂, congrArg (c.evictLen + ·) hl, .inl ⟨rfl, hk₁⟩⟩, rfl, rfl⟩
      · rw [he]
        have hl := hlen₂.resolve_left hne
        exact ⟨k₁ + k₂, hbound, hboth,
          ⟨k₂, Nat.le_add_left k₂ k₁, congrArg (c.evictLen + ·) hl, .inl ⟨rfl, hk₂⟩⟩, rfl, rfl⟩

theorem cuckooInsert_counters {m : CStr → Option Value} (hm : c.IsMap h m) (hc : 0 < c.capacity)
    (key : Key) (value : Value) :
    ∃ probes,
      InsertCounters probes (2 * maxEviction * assocNum) c (cuckooInsert h c key value) := by
  have hzero : ∀ x : BitVec 64, x = x + BitVec.ofNat 64 0 := fun x => (BitVec.add_zero x).symm
  unfold cuckooInsert
  dsimp only
  split
  · exact ⟨0, ⟨Nat.zero_le _, hzero _, ⟨0, le_rfl, hzero _, .inl ⟨rfl, Nat.zero_le _⟩⟩, rfl, rfl⟩⟩
  · rename_i hnone
    have ht : Homed h c.capacity c.table := fun _ _ _ => hm.homed
    have hscan := scanBoth_none.mp hnone
    apply evictLoop_counters ht hc value (List.range assocNum)
    intro i hi
    obtain ⟨hf, hs⟩ := hscan i (List.mem_range.mp hi)
    have hi4 : i < assocNum := List.mem_range.mp hi
    exact ⟨content_ne_none.mpr ⟨⟨h.first_lt _ hc, hi4⟩, hf⟩,
      content_ne_none.mpr ⟨⟨h.second_lt _ hc, hi4⟩, hs⟩⟩

def Op.isInsert : Op → Bool
  | .insert _ _ => true
  | _ => false

def Op.isResize : Op → Bool
  | .resize => true
  | _ => false

/-- The statistics of a table that had `size` buckets at first, after the calls `ops`. -/
structure Counters (size : ℕ) (ops : List Op) (c : CuckooHash) : Prop where
  /-- The table doubles with every resize. -/
  capacity : c.capacity = size * 2 ^ ops.countP Op.isResize
  entryNum : c.entryNum.toNat ≤ ops.countP Op.isInsert
  /-- `init_write` counts the slots of all tables there were, and does not wrap. -/
  initWrite : c.initWrite.toNat = (2 * c.capacity - size) * assocNum
  /-- `resize_write` stays below the slots that were added, -/
  resizeWrite_slots : c.resizeWrite.toNat ≤ (c.capacity - size) * assocNum
  /-- and no entry is written more than once in a resize. -/
  resizeWrite_entries : c.resizeWrite.toNat ≤ ops.countP Op.isResize * c.entryNum.toNat
  /-- `evict_len` and `find_path` are the hops taken and the slots probed, modulo the word: at most
  sixteen hops for an entry, each of them probed before, and at most 128 probes in a call. -/
  evictions : ∃ hops probes, c.evictLen = BitVec.ofNat 64 hops ∧
    c.findPath = BitVec.ofNat 64 probes ∧ hops ≤ maxEviction * c.entryNum.toNat ∧
    hops ≤ probes ∧ probes ≤ 2 * maxEviction * assocNum * ops.countP Op.isInsert

theorem counters_init {size : ℕ} (hfit : TableFits size) :
    Counters size [] (cuckooHashInit size) where
  capacity := (Nat.mul_one size).symm
  entryNum := Nat.zero_le _
  initWrite := by
    have hfit' : size * 48 < 2 ^ 64 := hfit
    show (BitVec.ofNat 64 (size * 4)).toNat = (2 * size - size) * 4
    rw [BitVec.toNat_ofNat, Nat.mod_eq_of_lt (by omega), Nat.two_mul, Nat.add_sub_cancel]
  resizeWrite_slots := Nat.zero_le _
  resizeWrite_entries := Nat.zero_le _
  evictions := ⟨0, 0, rfl, rfl, Nat.zero_le _, le_rfl, Nat.zero_le _⟩

theorem Counters.same {size : ℕ} {ops : List Op} {op : Op} (hi : Counters size ops c)
    (hop : op.isResize = false) (hcap : c'.capacity = c.capacity)
    (hentry : c'.entryNum = c.entryNum) (hinit : c'.initWrite = c.initWrite)
    (hresize : c'.resizeWrite = c.resizeWrite) (hevict : c'.evictLen = c.evictLen)
    (hpath : c'.findPath = c.findPath) : Counters size (ops ++ [op]) c' := by
  have hr : (ops ++ [op]).countP Op.isResize = ops.countP Op.isResize := by
    rw [List.countP_append, List.countP_singleton, hop]
    rfl
  have hn : ops.countP Op.isInsert ≤ (ops ++ [op]).countP Op.isInsert := by
    rw [List.countP_append]
    exact Nat.le_add_right _ _
  obtain ⟨hops, probes, he, hp, hle, hprobed, hmax⟩ := hi.evictions
  refine ⟨?_, ?_, ?_, ?_, ?_, hops, probes, hevict.trans he, hpath.trans hp, ?_, hprobed,
    hmax.trans (Nat.mul_le_mul_left _ hn)⟩
  · rw [hcap, hr]
    exact hi.capacity
  · rw [hentry]
    exact hi.entryNum.trans hn
  · rw [hcap, hinit]
    exact hi.initWrite
  · rw [hcap, hresize]
    exact hi.resizeWrite_slots
  · rw [hr, hentry, hresize]
    exact hi.resizeWrite_entries
  · rwa [hentry]

theorem Inv.entryNum_le {s : MapRun} (hi : Inv h s) :
    s.c.entryNum.toNat ≤ s.c.capacity * assocNum := by
  rw [hi.refines.entryNum]
  exact card_occupied_le s.c

theorem Counters.insert {size : ℕ} {ops : List Op} {s : MapRun} (hi : Counters size ops s.c)
    (hinv : Inv h s) (hk : ValidKey key) (hnew : s.m (keyStr key) = none) (value : Value) :
    Counters size (ops ++ [.insert key value]) (cuckooInsert h s.c key value).2 := by
  obtain ⟨probes, hcount⟩ := cuckooInsert_counters hinv.isMap hinv.pos key value
  have hspec := hinv.isMap.cuckooInsert hinv.pos hk.1 hnew value
  generalize cuckooInsert h s.c key value = r at hcount hspec
  have hr : (ops ++ [Op.insert key value]).countP Op.isResize = ops.countP Op.isResize := by
    rw [List.countP_append]
    rfl
  have hn : (ops ++ [Op.insert key value]).countP Op.isInsert = ops.countP Op.isInsert + 1 := by
    rw [List.countP_append]
    rfl
  have hcap : r.2.capacity = s.c.capacity := by
    rcases hspec with ⟨-, hsame⟩ | ⟨-, hst⟩
    · exact hsame.capacity
    · exact hst.capacity
  have hle := hinv.entryNum_le
  have hfit : s.c.capacity * 48 < 2 ^ 64 := hinv.fits
  have h4 : s.c.capacity * assocNum = s.c.capacity * 4 := rfl
  -- the entries before and after, beside the hops this call may have taken
  have hentry : r.2.entryNum.toNat = s.c.entryNum.toNat + (if r.1 = .success then 1 else 0) := by
    rcases hspec with ⟨hs, hsame⟩ | ⟨hs, hst⟩
    · rw [hs, hsame.entryNum]
      rfl
    · rw [hs, hst.entryNum, BitVec.toNat_add]
      exact Nat.mod_eq_of_lt (show _ + 1 < _ by omega)
  obtain ⟨hops, hhops, hevict, hout⟩ := hcount.evictLen
  have hnew : hops ≤ maxEviction * (if r.1 = .success then 1 else 0) := by
    rcases hout with ⟨hs, hmax⟩ | ⟨hs, hzero⟩
    · rw [if_pos hs]
      exact hmax
    · rw [hzero]
      exact Nat.zero_le _
  have hone : (if r.1 = .success then 1 else 0) ≤ 1 := by split_ifs <;> decide
  obtain ⟨hops', probes', he, hp, hmoved, hprobed, hmax⟩ := hi.evictions
  have hbound := hcount.probes_le
  refine ⟨?_, ?_, ?_, ?_, ?_, hops' + hops, probes' + probes, ?_, ?_, ?_, by omega, ?_⟩
  · rw [hcap, hr]
    exact hi.capacity
  · rw [hentry, hn]
    exact Nat.add_le_add hi.entryNum hone
  · rw [hcap, hcount.initWrite]
    exact hi.initWrite
  · rw [hcap, hcount.resizeWrite]
    exact hi.resizeWrite_slots
  · rw [hr, hcount.resizeWrite, hentry, Nat.mul_add]
    exact hi.resizeWrite_entries.trans (Nat.le_add_right _ _)
  · rw [hevict, he, Lib.ofNat_add]
  · rw [hcount.findPath, hp, Lib.ofNat_add]
  · rw [hentry, Nat.mul_add]
    exact Nat.add_le_add hmoved hnew
  · rw [hn, Nat.mul_succ]
    exact Nat.add_le_add hmax hbound

theorem Counters.resize {size : ℕ} {ops : List Op} {s : MapRun} (hi : Counters size ops s.c)
    (hinv : Inv h s) (hfit : TableFits (s.c.capacity * resizeFactor)) :
    Counters size (ops ++ [.resize]) (cuckooResize h true s.c).2 := by
  have hr : (ops ++ [Op.resize]).countP Op.isResize = ops.countP Op.isResize + 1 := by
    rw [List.countP_append]
    rfl
  have hn : (ops ++ [Op.resize]).countP Op.isInsert = ops.countP Op.isInsert := by
    rw [List.countP_append]
    rfl
  have hfit' : s.c.capacity * 2 * 48 < 2 ^ 64 := hfit
  have hlt : s.c.capacity * resizeFactor < 2 ^ 64 := show s.c.capacity * 2 < 2 ^ 64 by omega
  have hsize : size ≤ s.c.capacity := by
    rw [hi.capacity]
    exact Nat.le_mul_of_pos_right size (Nat.two_pow_pos _)
  obtain ⟨hs, hcap, hentry, -⟩ := hinv.isMap.cuckooResize hinv.pos hlt
  have hmod := Nat.mod_eq_of_lt hlt
  obtain ⟨hinit, hwrite, hevict, hpath⟩ : (cuckooResize h true s.c).2.initWrite =
        s.c.initWrite + BitVec.ofNat 64 (s.c.capacity * resizeFactor * assocNum) ∧
      (cuckooResize h true s.c).2.resizeWrite = s.c.resizeWrite + s.c.entryNum ∧
      (cuckooResize h true s.c).2.evictLen = s.c.evictLen ∧
      (cuckooResize h true s.c).2.findPath = s.c.findPath := by
    unfold cuckooResize at hs ⊢
    simp only [if_true, hmod] at hs ⊢
    split at hs
    · exact ⟨rfl, rfl, rfl, rfl⟩
    · cases hs
  have hcap2 : (cuckooResize h true s.c).2.capacity = s.c.capacity * 2 := hcap
  have hle : s.c.entryNum.toNat ≤ s.c.capacity * 4 := hinv.entryNum_le
  have hslots : s.c.resizeWrite.toNat ≤ (s.c.capacity - size) * 4 := hi.resizeWrite_slots
  have hwrite' : (cuckooResize h true s.c).2.resizeWrite.toNat =
      s.c.resizeWrite.toNat + s.c.entryNum.toNat := by
    rw [hwrite, BitVec.toNat_add]
    exact Nat.mod_eq_of_lt (by omega)
  obtain ⟨hops, probes, he, hp, hmoved, hprobed, hmax⟩ := hi.evictions
  refine ⟨?_, ?_, ?_, ?_, ?_, hops, probes, hevict.trans he, hpath.trans hp, ?_, hprobed, ?_⟩
  · rw [hcap2, hr, hi.capacity, pow_succ, Nat.mul_assoc]
  · rw [hentry, hn]
    exact hi.entryNum
  · have hinit' : s.c.initWrite.toNat = (2 * s.c.capacity - size) * 4 := hi.initWrite
    rw [hinit, hcap2, BitVec.toNat_add, hinit', BitVec.toNat_ofNat]
    show ((2 * s.c.capacity - size) * 4 + s.c.capacity * 2 * 4 % 2 ^ 64) % 2 ^ 64 =
      (2 * (s.c.capacity * 2) - size) * 4
    omega
  · rw [hwrite', hcap2]
    show _ ≤ (s.c.capacity * 2 - size) * 4
    omega
  · rw [hwrite', hr, hentry, Nat.succ_mul]
    exact Nat.add_le_add_right hi.resizeWrite_entries _
  · rwa [hentry]
  · rwa [hn]

/-- The statistics of a table after any run of calls on it. -/
theorem counters_run (h : Hashes) {size : ℕ} (hpos : 0 < size) (hfit : TableFits size)
    {ops : List Op} {s : MapRun}
    (hrun : run (step h) anyStep ⟨cuckooHashInit size, fun _ => none⟩ ops = some s) :
    Counters size ops s.c := by
  have hall : Inv h s ∧ Counters size ([] ++ ops) s.c := by
    refine run_history (fun ops s => Inv h s ∧ Counters size ops s.c) ?_
      ⟨inv_init h hpos hfit, counters_init hfit⟩ hrun
    intro ops s op s' hi _ hstep
    refine ⟨inv_step hi.1 hstep, ?_⟩
    obtain ⟨hinv, hi⟩ := hi
    cases op with
    | insert key value =>
      simp only [step] at hstep
      obtain ⟨hok, he⟩ := Option.ite_none_right_eq_some.mp hstep
      cases he
      exact hi.insert hinv hok.1 hok.2 value
    | update key value =>
      simp only [step] at hstep
      obtain ⟨hok, he⟩ := Option.ite_none_right_eq_some.mp hstep
      cases he
      unfold cuckooUpdate
      split <;> exact hi.same rfl rfl rfl rfl rfl rfl rfl
    | query key =>
      simp only [step] at hstep
      obtain ⟨-, he⟩ := Option.ite_none_right_eq_some.mp hstep
      cases he
      exact hi.same rfl rfl rfl rfl rfl rfl rfl
    | resize =>
      simp only [step] at hstep
      obtain ⟨hfit', he⟩ := Option.ite_none_right_eq_some.mp hstep
      cases he
      exact hi.resize hinv hfit'
  exact hall.2

theorem counters_run_evicts : ∃ s : MapRun,
    run (step twoBuckets) anyStep ⟨cuckooHashInit 2, fun _ => none⟩
      ([97, 98, 99, 100, 101, 102, 103, 122].map insertByte ++ [.resize]) = some s ∧
    s.c.resizeWrite = 8 ∧ s.c.findPath = 2 ∧
    Counters 2 ([97, 98, 99, 100, 101, 102, 103, 122].map insertByte ++ [.resize]) s.c := by
  obtain ⟨s, hrun, hwrite, hpath⟩ := exists_of_check
    (r := run (step twoBuckets) anyStep ⟨cuckooHashInit 2, fun _ => none⟩
      ([97, 98, 99, 100, 101, 102, 103, 122].map insertByte ++ [.resize]))
    (p := fun s => s.c.resizeWrite = 8 ∧ s.c.findPath = 2) (by decide +kernel)
  exact ⟨s, hrun, hwrite, hpath, counters_run twoBuckets (by norm_num) (by decide) hrun⟩

end FlatFS.Cuckoo
