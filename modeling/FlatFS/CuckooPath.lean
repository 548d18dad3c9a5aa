import FlatFS.CuckooHash

namespace FlatFS.Cuckoo
open Lib Function

def Entry.view (e : Entry) : Option (CStr × Value) :=
  if e.invalid then none else some (keyStr e.key, e.value)

def content (capacity : ℕ) (t : Table) (p : Slot) : Option (CStr × Value) :=
  if p.1 < capacity ∧ p.2 < assocNum then (t p).view else none

/-- A key belongs in one of its two buckets. -/
def home (h : Hashes) (capacity : ℕ) (k : CStr) (p : Slot) : Prop :=
  (p.1 = h.first k capacity ∨ p.1 = h.second k capacity) ∧ p.2 < assocNum

def Homed (h : Hashes) (capacity : ℕ) (t : Table) : Prop :=
  ∀ p k v, content capacity t p = some (k, v) → home h capacity k p

def CuckooHash.IsMap (c : CuckooHash) (h : Hashes) (m : CStr → Option Value) : Prop :=
  Holds (home h c.capacity) (content c.capacity c.table) m

theorem Hashes.first_lt (h : Hashes) (k : CStr) {capacity : ℕ} (hc : 0 < capacity) :
    h.first k capacity < capacity := Nat.mod_lt _ hc

theorem Hashes.second_lt (h : Hashes) (k : CStr) {capacity : ℕ} (hc : 0 < capacity) :
    h.second k capacity < capacity := Nat.mod_lt _ hc

variable {h : Hashes} {capacity : ℕ} {t : Table} {p q : Slot} {k : CStr} {v : Value}

theorem home.lt (hh : home h capacity k p) (hc : 0 < capacity) : p.1 < capacity := by
  rcases hh.1 with he | he <;> rw [he]
  · exact h.first_lt k hc
  · exact h.second_lt k hc

theorem view_of_valid {e : Entry} (he : e.invalid = false) :
    e.view = some (keyStr e.key, e.value) := by simp [Entry.view, he]

theorem content_eq_some : content capacity t p = some (k, v) ↔
    (p.1 < capacity ∧ p.2 < assocNum) ∧ (t p).invalid = false ∧
      keyStr (t p).key = k ∧ (t p).value = v := by
  unfold content Entry.view
  by_cases hp : p.1 < capacity ∧ p.2 < assocNum <;> cases hi : (t p).invalid <;> simp [hp]

theorem content_eq_none (hp : p.1 < capacity ∧ p.2 < assocNum) :
    content capacity t p = none ↔ (t p).invalid = true := by
  unfold content Entry.view
  rw [if_pos hp]
  split_ifs with hi <;> simp [hi]

theorem content_ne_none : content capacity t p ≠ none ↔
    (p.1 < capacity ∧ p.2 < assocNum) ∧ (t p).invalid = false := by
  unfold content Entry.view
  by_cases hp : p.1 < capacity ∧ p.2 < assocNum <;> cases hi : (t p).invalid <;> simp [hp]

theorem content_update (hp : p.1 < capacity ∧ p.2 < assocNum) (t : Table) (e : Entry) :
    content capacity (update t p e) = update (content capacity t) p e.view := by
  funext q
  rcases eq_or_ne q p with rfl | hne
  · rw [update_self, content, if_pos hp, update_self]
  · rw [update_of_ne hne, content, content, update_of_ne hne]

theorem content_zero : content capacity zeroTable = fun _ => none := by
  funext p
  have : (zeroTable p).view = none := by
    simp [zeroTable, Entry.view, Entry.invalid, keyStr, List.replicate]
  simp [content, this]

theorem firstEmpty_some {b i : ℕ} (he : firstEmpty t b = some i) :
    i < assocNum ∧ (t (b, i)).invalid = true := by
  have hmem := List.mem_of_find?_eq_some he
  exact ⟨List.mem_range.mp hmem, by simpa using List.find?_some he⟩

theorem firstEmpty_none {b : ℕ} :
    firstEmpty t b = none ↔ ∀ i < assocNum, (t (b, i)).invalid = false := by
  simp [firstEmpty, List.find?_eq_none]

theorem scanBoth_some {f s : ℕ} {test : Entry → Bool} (he : scanBoth t f s test = some p) :
    (p.1 = f ∨ p.1 = s) ∧ p.2 < assocNum ∧ test (t p) = true := by
  obtain ⟨i, hi, hp⟩ := List.exists_of_findSome?_eq_some he
  split_ifs at hp with hf hs <;> cases hp
  · exact ⟨.inl rfl, List.mem_range.mp hi, hf⟩
  · exact ⟨.inr rfl, List.mem_range.mp hi, hs⟩

theorem scanBoth_none {f s : ℕ} {test : Entry → Bool} :
    scanBoth t f s test = none ↔
      ∀ i < assocNum, test (t (f, i)) = false ∧ test (t (s, i)) = false := by
  simp only [scanBoth, List.findSome?_eq_none_iff, List.mem_range]
  refine forall₂_congr fun i _ => ?_
  split_ifs with hf hs <;> simp_all

def node (pq : Slot × Slot) : PathNode := ⟨pq.1.1, pq.1.2, pq.2.1, pq.2.2⟩

/-- The hop of the walk from one slot, and whether it ends in an empty slot. -/
def hop (h : Hashes) (capacity : ℕ) (t : Table) (p : Slot) : Slot × Bool :=
  match evictBucket h t capacity p.1 p.2 with
  | none => (p, false)
  | some evict =>
    match firstEmpty t evict with
    | some i => ((evict, i), true)
    | none => ((evict, assocNum - 1), false)

/-- In a homed table the error branch of `find_path` is not taken, and the key may live in
the bucket the hop leads to. -/
theorem Homed.evictBucket (ht : Homed h capacity t) (hp : content capacity t p = some (k, v)) :
    ∃ b, evictBucket h t capacity p.1 p.2 = some b ∧
      (b = h.first k capacity ∨ b = h.second k capacity) := by
  obtain ⟨-, -, hkey, -⟩ := content_eq_some.mp hp
  have hh := (ht p k v hp).1
  simp only [Cuckoo.evictBucket, hkey]
  split_ifs with hf hs
  · -- the other bucket of the key, whichever the slot is in
    exact ⟨_, rfl, .inr rfl⟩
  · exact ⟨_, rfl, .inl rfl⟩
  · rcases hh with he | he
    · exact absurd he.symm hf
    · exact absurd he.symm hs

theorem hop_eq {b : ℕ} (hb : evictBucket h t capacity p.1 p.2 = some b) :
    hop h capacity t p = match firstEmpty t b with
      | some i => ((b, i), true)
      | none => ((b, assocNum - 1), false) := by simp only [hop, hb]

theorem hop_last (he : hop h capacity t p = (q, true)) : content capacity t q = none := by
  unfold hop at he
  split at he
  · cases he
  · rename_i evict _
    split at he
    · rename_i i hi
      cases he
      have hinv := (firstEmpty_some hi).2
      simp only [content, Entry.view, hinv]
      split_ifs <;> rfl
    · cases he

/-- One hop from an occupied slot. -/
theorem Homed.hop_spec (ht : Homed h capacity t) (hc : 0 < capacity)
    (hp : content capacity t p = some (k, v)) :
    home h capacity k (hop h capacity t p).1 ∧
      ((hop h capacity t p).2 = false → content capacity t (hop h capacity t p).1 ≠ none) := by
  obtain ⟨b, hb, hbk⟩ := ht.evictBucket hp
  have hlt : b < capacity := by
    rcases hbk with rfl | rfl
    · exact h.first_lt k hc
    · exact h.second_lt k hc
  rw [hop_eq hb]
  split
  · rename_i i hi
    exact ⟨⟨hbk, (firstEmpty_some hi).1⟩, fun hf => by cases hf⟩
  · rename_i hnone
    refine ⟨⟨hbk, by norm_num⟩, fun _ => ?_⟩
    exact content_ne_none.mpr ⟨⟨hlt, by norm_num⟩, firstEmpty_none.mp hnone _ (by norm_num)⟩

/-- Along a walk every source is occupied, and its key may live in its target. -/
theorem Homed.walk_sources (ht : Homed h capacity t) (hc : 0 < capacity)
    {path : List (Slot × Slot)} (hw : Walk (hop h capacity t) p path)
    (hp : content capacity t p ≠ none) :
    ∀ r s, (r, s) ∈ path → ∃ k v, content capacity t r = some (k, v) ∧ home h capacity k s := by
  induction hw with
  | @last p q hq =>
    intro r s hrs
    cases List.mem_singleton.mp hrs
    obtain ⟨⟨k, v⟩, hkv⟩ := Option.ne_none_iff_exists'.mp hp
    have hspec := (ht.hop_spec hc hkv).1
    rw [hq] at hspec
    exact ⟨k, v, hkv, hspec⟩
  | @cons p q path hq hw ih =>
    obtain ⟨⟨k, v⟩, hkv⟩ := Option.ne_none_iff_exists'.mp hp
    have hspec := ht.hop_spec hc hkv
    rw [hq] at hspec
    intro r s hrs
    -- the walk goes on, so that this hop has ended in an occupied slot
    rcases List.mem_cons.mp hrs with he | hmem
    · cases he
      exact ⟨k, v, hkv, hspec.1⟩
    · exact ih (hspec.2 rfl) r s hmem

/-- The loop of `find_path` either gives up with zero or appends the nodes of a walk. -/
theorem Homed.findPathLoop (ht : Homed h capacity t) (hc : 0 < capacity) (fuel : ℕ) (p : Slot)
    (paths : List PathNode) (counter : BitVec 64) (hp : content capacity t p ≠ none) :
    (Cuckoo.findPathLoop h t capacity fuel p.1 p.2 paths counter).len = 0 ∨
    ∃ path, Walk (hop h capacity t) p path ∧ path.length ≤ fuel ∧
      (Cuckoo.findPathLoop h t capacity fuel p.1 p.2 paths counter).len =
        BitVec.ofNat 64 (paths.length + path.length) ∧
      (Cuckoo.findPathLoop h t capacity fuel p.1 p.2 paths counter).paths =
        paths ++ path.map node := by
  induction fuel generalizing p paths counter with
  | zero => exact .inl rfl
  | succ fuel ih =>
    obtain ⟨⟨k, v⟩, hkv⟩ := Option.ne_none_iff_exists'.mp hp
    obtain ⟨b, hb, -⟩ := ht.evictBucket hkv
    have hhop := hop_eq hb
    cases hfe : firstEmpty t b with
    | some i =>
      rw [hfe] at hhop
      refine .inr ⟨_, .last hhop, by simp, ?_, ?_⟩ <;>
        simp [Cuckoo.findPathLoop, hb, hfe, node]
    | none =>
      rw [hfe] at hhop
      have hnext : content capacity t (b, assocNum - 1) ≠ none := by
        have := (ht.hop_spec hc hkv).2
        rw [hhop] at this
        exact this rfl
      simp only [Cuckoo.findPathLoop, hb, hfe]
      -- the bucket is full, and its last slot is the next one to be moved
      rcases ih (b, assocNum - 1) (paths ++ [node (p, (b, assocNum - 1))]) (counter + 1) hnext with
        hz | ⟨path, hw, hle, hlen, hpaths⟩
      · exact .inl hz
      · refine .inr ⟨_, .cons hhop hw, by simpa using hle, ?_, ?_⟩
        · refine hlen.trans (congrArg _ ?_)
          simp
          omega
        · refine hpaths.trans ?_
          simp

/-- `find_path` from an occupied slot of a homed table: it answers zero, or the length of a
walk to an empty slot whose nodes it has recorded. -/
theorem Homed.findPath {c : CuckooHash} (ht : Homed h c.capacity c.table) (hc : 0 < c.capacity)
    {p : Slot} (hp : content c.capacity c.table p ≠ none)
    (hne : (Cuckoo.findPath h c p.1 p.2).len ≠ 0) :
    ∃ path, Walk (hop h c.capacity c.table) p path ∧ path.length ≤ maxEviction ∧
      (Cuckoo.findPath h c p.1 p.2).len = BitVec.ofNat 64 path.length ∧
      (Cuckoo.findPath h c p.1 p.2).paths = path.map node := by
  rcases ht.findPathLoop hc maxEviction p [] c.findPath hp with hz | ⟨path, hw, hle, hlen, hpaths⟩
  · exact absurd hz hne
  · rw [List.length_nil, Nat.zero_add] at hlen
    exact ⟨path, hw, hle, hlen, hpaths⟩

theorem foldr_copyHop (t : Table) (path : List (Slot × Slot)) :
    (path.map node).foldr copyHop t = moveAlong t path := by
  induction path with
  | nil => rfl
  | cons pq path ih =>
    rw [List.map_cons, List.foldr_cons, ih]
    rfl

theorem executePath_eq (t : Table) {path : List (Slot × Slot)} (hle : path.length ≤ maxEviction)
    (hpos : 0 < path.length) :
    executePath t (path.map node) (BitVec.ofNat 64 path.length) = moveAlong t path := by
  have hcount : ((BitVec.ofNat 64 path.length - 1).toInt + 1).toNat = path.length := by
    have h16 : path.length ≤ 16 := hle
    generalize path.length = n at hpos h16
    -- at most 16 hops: the signed loop counter does not wrap
    interval_cases n <;> decide
  rw [executePath, hcount, List.take_of_length_le (by simp), foldr_copyHop]

theorem content_moveAlong {path : List (Slot × Slot)}
    (hin : ∀ r s, (r, s) ∈ path → (r.1 < capacity ∧ r.2 < assocNum) ∧
      (s.1 < capacity ∧ s.2 < assocNum)) :
    content capacity (moveAlong t path) = moveAlong (content capacity t) path := by
  induction path with
  | nil => rfl
  | cons pq path ih =>
    obtain ⟨p, q⟩ := pq
    obtain ⟨hp, hq⟩ := hin p q List.mem_cons_self
    have ih := ih fun r s hrs => hin r s (List.mem_cons_of_mem _ hrs)
    rw [moveAlong, content_update hq, ih, moveAlong, ← ih]
    rw [content, if_pos hp]

/-- Executing a found path frees its start and keeps every binding. -/
theorem holds_executePath {m : CStr → Option Value}
    (hm : Holds (home h capacity) (content capacity t) m) (hc : 0 < capacity)
    {path : List (Slot × Slot)} (hp : content capacity t p ≠ none)
    (hw : Walk (hop h capacity t) p path) (hle : path.length ≤ maxEviction) :
    Holds (home h capacity) (update (content capacity
      (executePath t (path.map node) (BitVec.ofNat 64 path.length))) p none) m := by
  have ht : Homed h capacity t := fun _ _ _ => hm.homed
  have hsrc := ht.walk_sources hc hw hp
  rw [executePath_eq t hle hw.length_pos, content_moveAlong]
  · exact hm.moveAlong hw (fun _ _ => hop_last) hsrc
  · intro r s hrs
    obtain ⟨k, v, hr, hh⟩ := hsrc r s hrs
    exact ⟨(content_eq_some.mp hr).1, hh.lt hc, hh.2⟩

end FlatFS.Cuckoo
