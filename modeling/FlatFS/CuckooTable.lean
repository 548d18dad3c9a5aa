import FlatFS.CuckooMap

namespace FlatFS.Cuckoo
open Lib Function

variable {h : Hashes} {c : CuckooHash}

/-- Every key of the table is in one of its two buckets. -/
def KeysHome (h : Hashes) (c : CuckooHash) : Prop :=
  ∀ p ∈ occupied c, p.1 = h.first (keyStr (c.table p).key) c.capacity ∨
    p.1 = h.second (keyStr (c.table p).key) c.capacity

instance (h : Hashes) (c : CuckooHash) : Decidable (KeysHome h c) :=
  inferInstanceAs (Decidable (∀ p ∈ occupied c, _))

theorem occupied_content {p : Slot} (hp : p ∈ occupied c) :
    content c.capacity c.table p = some (keyStr (c.table p).key, (c.table p).value) := by
  obtain ⟨hin, hinv⟩ := content_ne_none.mp (mem_occupied.mp hp)
  exact content_eq_some.mpr ⟨hin, hinv, rfl, rfl⟩

theorem mem_occupied_of_content {p : Slot} {k : CStr} {v : Value}
    (hp : content c.capacity c.table p = some (k, v)) :
    p ∈ occupied c ∧ keyStr (c.table p).key = k ∧ (c.table p).value = v := by
  obtain ⟨-, -, hkey, hvalue⟩ := content_eq_some.mp hp
  exact ⟨mem_occupied.mpr (by simp [hp]), hkey, hvalue⟩

theorem KeysHome.homed (hk : KeysHome h c) : Homed h c.capacity c.table := by
  intro p k v hp
  obtain ⟨hocc, hkey, -⟩ := mem_occupied_of_content hp
  have hb := hk p hocc
  rw [hkey] at hb
  exact ⟨hb, (content_eq_some.mp hp).1.2⟩

def Alternate (h : Hashes) (capacity : ℕ) (k : CStr) (b b' : ℕ) : Prop :=
  (b = h.first k capacity ∧ b' = h.second k capacity) ∨
    (b = h.second k capacity ∧ b' = h.first k capacity)

theorem evictBucket_alternate {t : Table} {capacity b i b' : ℕ}
    (he : evictBucket h t capacity b i = some b') :
    Alternate h capacity (keyStr (t (b, i)).key) b b' := by
  unfold evictBucket at he
  dsimp only at he
  split_ifs at he with hf hs
  · cases he
    exact .inl ⟨hf.symm, rfl⟩
  · cases he
    exact .inr ⟨hs.symm, rfl⟩

/-- The hops that `find_path` records from a slot when it finds a path. -/
structure EvictionPath (h : Hashes) (c : CuckooHash) (start : Slot) (path : List (Slot × Slot)) :
    Prop where
  start : path.head?.map Prod.fst = some start
  length_pos : 1 ≤ path.length
  length_le : path.length ≤ maxEviction
  nodup : (path.map Prod.fst).Nodup
  chain : path.IsChain fun a b => a.2 = b.1
  alternate : ∀ r s, (r, s) ∈ path → r ∈ occupied c ∧ s.2 < assocNum ∧
    Alternate h c.capacity (keyStr (c.table r).key) r.1 s.1
  last_empty : ∀ a ∈ path.getLast?, (c.table a.2).invalid = true

/-- The table `t` has every source entry of the path one hop further. An entry that is overwritten
has itself moved on, and the start is not written. -/
structure MovedAlong (c : CuckooHash) (start : Slot) (path : List (Slot × Slot)) (t : Table) :
    Prop where
  moved : ∀ r s, (r, s) ∈ path → t s = c.table r
  frame : ∀ r, r ∉ path.map Prod.snd → t r = c.table r
  targets_nodup : (path.map Prod.snd).Nodup
  overwritten : ∀ r ∈ occupied c, r ∈ path.map Prod.snd → r ∈ path.map Prod.fst
  start_free : start ∉ path.map Prod.snd

section walk

variable {start : Slot} {path : List (Slot × Slot)}

theorem hop_ne_occupied {r : Slot} (hr : r ∈ occupied c) (s : Slot) :
    hop h c.capacity c.table s ≠ (r, true) := by
  intro hs
  exact mem_occupied.mp hr (hop_last hs)

theorem KeysHome.sources (hk : KeysHome h c) (hs : start ∈ occupied c)
    (hw : Walk (hop h c.capacity c.table) start path) :
    ∀ r ∈ path.map Prod.fst, r ∈ occupied c := by
  obtain ⟨hin, -⟩ := content_ne_none.mp (mem_occupied.mp hs)
  have hsrc := hk.homed.walk_sources (Nat.zero_lt_of_lt hin.1) hw (mem_occupied.mp hs)
  intro r hr
  obtain ⟨⟨r, s⟩, hrs, rfl⟩ := List.mem_map.mp hr
  obtain ⟨k, v, hrk, -⟩ := hsrc r s hrs
  exact (mem_occupied_of_content hrk).1

theorem KeysHome.evictionPath (hk : KeysHome h c) (hs : start ∈ occupied c)
    (hw : Walk (hop h c.capacity c.table) start path) (hle : path.length ≤ maxEviction) :
    EvictionPath h c start path := by
  obtain ⟨hin, -⟩ := content_ne_none.mp (mem_occupied.mp hs)
  have hc : 0 < c.capacity := Nat.zero_lt_of_lt hin.1
  have hsrc := hk.homed.walk_sources hc hw (mem_occupied.mp hs)
  constructor
  case start => exact hw.head
  case length_pos => exact hw.length_pos
  case length_le => exact hle
  case nodup => exact hw.nodup
  case chain => exact hw.isChain
  case alternate =>
    intro r s hrs
    obtain ⟨k, v, hrk, hh⟩ := hsrc r s hrs
    obtain ⟨b, hb, -⟩ := hk.homed.evictBucket hrk
    have hhop := hw.hop_mem r s hrs
    have hsb : s.1 = b := by
      rw [← hhop, hop_eq hb]
      split <;> rfl
    refine ⟨(mem_occupied_of_content hrk).1, hh.2, ?_⟩
    rw [hsb]
    exact evictBucket_alternate hb
  case last_empty =>
    intro a ha
    have hlast := hop_last (hw.getLast a ha)
    obtain ⟨k, v, -, hh⟩ := hsrc a.1 a.2 (List.mem_of_getLast? ha)
    exact (content_eq_none ⟨hh.lt hc, hh.2⟩).mp hlast

theorem KeysHome.movedAlong (hk : KeysHome h c) (hs : start ∈ occupied c)
    (hw : Walk (hop h c.capacity c.table) start path) :
    MovedAlong c start path (moveAlong c.table path) := by
  have hend : ∀ r ∈ path.map Prod.fst, ∀ s, hop h c.capacity c.table s ≠ (r, true) :=
    fun r hr => hop_ne_occupied (hk.sources hs hw r hr)
  constructor
  case moved => exact moveAlong_hop c.table hw hend
  case frame => exact fun r hr => moveAlong_of_notMem c.table hr
  case targets_nodup => exact hw.targets_nodup hend
  case overwritten =>
    intro r hr hmem
    rcases hw.target hmem with hsrc | ⟨s, hs⟩
    · exact hsrc
    · exact absurd hs (hop_ne_occupied hr s)
  case start_free => exact hw.start_notMem_targets (hop_ne_occupied hs)

end walk

/-- `find_path` from an occupied slot of a table with every key in one of its buckets: it answers
zero, or the length of a path to an empty slot that it has recorded hop by hop, and `execute_path`
moves the keys of that path one hop each. -/
theorem findPath_executePath (hk : KeysHome h c) {start : Slot} (hs : start ∈ occupied c) :
    let r := findPath h c start.1 start.2
    r.len = 0 ∨ ∃ path, r.paths = path.map node ∧ r.len = BitVec.ofNat 64 path.length ∧
      EvictionPath h c start path ∧
      MovedAlong c start path (executePath c.table r.paths r.len) := by
  intro r
  obtain ⟨hin, -⟩ := content_ne_none.mp (mem_occupied.mp hs)
  have hc : 0 < c.capacity := Nat.zero_lt_of_lt hin.1
  by_cases hne : r.len = 0
  · exact .inl hne
  · obtain ⟨path, hw, hle, hlen, hpaths⟩ := hk.homed.findPath hc (mem_occupied.mp hs) hne
    refine .inr ⟨path, hpaths, hlen, hk.evictionPath hs hw hle, ?_⟩
    change MovedAlong c start path (executePath c.table (findPath h c start.1 start.2).paths
      (findPath h c start.1 start.2).len)
    rw [hpaths, hlen, executePath_eq c.table hle hw.length_pos]
    exact hk.movedAlong hs hw

def fourKeys : CuckooHash :=
  { cuckooHashInit 2 with
    table := fun p =>
      if p.1 = 0 then ⟨#v[UInt8.ofNat (97 + p.2), 0, 0, 0], .replicate valueLen 1⟩ else zeroTable p
    entryNum := 4 }

theorem findPath_executePath_four : (findPath twoBuckets fourKeys 0 0).len = 1 ∧
    ∃ path, (findPath twoBuckets fourKeys 0 0).paths = path.map node ∧
      EvictionPath twoBuckets fourKeys (0, 0) path ∧
      MovedAlong fourKeys (0, 0) path (executePath fourKeys.table
        (findPath twoBuckets fourKeys 0 0).paths (findPath twoBuckets fourKeys 0 0).len) := by
  have hlen : (findPath twoBuckets fourKeys 0 0).len = 1 := by decide +kernel
  have hhome : KeysHome twoBuckets fourKeys := by decide +kernel
  have hocc : ((0, 0) : Slot) ∈ occupied fourKeys := by decide +kernel
  rcases findPath_executePath hhome hocc with hz | ⟨path, hpaths, -, hpath, hmoved⟩
  · rw [hlen] at hz
    exact absurd hz (by decide)
  · exact ⟨hlen, path, hpaths, hpath, hmoved⟩

/-- A table of valid keys, each of them in one slot of one of its two buckets. -/
structure WellPlaced (h : Hashes) (c : CuckooHash) : Prop where
  home : KeysHome h c
  valid : ∀ p ∈ occupied c, ValidKey (c.table p).key
  distinct : ∀ p ∈ occupied c, ∀ q ∈ occupied c,
    keyStr (c.table p).key = keyStr (c.table q).key → p = q

def SameBinding (e e' : Entry) : Prop := keyStr e.key = keyStr e'.key ∧ e.value = e'.value

theorem WellPlaced.isMap (hw : WellPlaced h c) : ∃ m, c.IsMap h m := by
  refine Holds.exists_map ?_ fun hp => hw.home.homed _ _ _ hp
  intro p q k v w hp hq
  obtain ⟨hpo, hpk, -⟩ := mem_occupied_of_content hp
  obtain ⟨hqo, hqk, -⟩ := mem_occupied_of_content hq
  exact hw.distinct p hpo q hqo (hpk.trans hqk.symm)

section isMap

variable {c' : CuckooHash} {m : CStr → Option Value}

theorem CuckooHash.IsMap.binding (hm : c.IsMap h m) (hm' : c'.IsMap h m) {p : Slot}
    (hp : p ∈ occupied c) : ∃ q ∈ occupied c', SameBinding (c.table p) (c'.table q) := by
  obtain ⟨q, hq⟩ := (hm'.mem_iff _ _).mp (hm.lookup (occupied_content hp))
  obtain ⟨hqo, hkey, hvalue⟩ := mem_occupied_of_content hq
  exact ⟨q, hqo, hkey.symm, hvalue.symm⟩

theorem CuckooHash.IsMap.wellPlaced (hm : c.IsMap h m)
    (hvalid : ∀ p ∈ occupied c, ValidKey (c.table p).key) : WellPlaced h c where
  home p hp := (hm.homed (occupied_content hp)).1
  valid := hvalid
  distinct p hp q hq he := by
    have hpc := occupied_content hp
    rw [he] at hpc
    exact hm.inj hpc (occupied_content hq)

end isMap

/-- `cuckoo_resize` of any such table succeeds once its allocation does, so that none of its error
branches is taken, and leaves such a table of twice the capacity with the same bindings. -/
theorem cuckooResize_wellPlaced (hw : WellPlaced h c) (hc : 1 ≤ c.capacity)
    (hfit : c.capacity * resizeFactor < 2 ^ 64) :
    let r := cuckooResize h true c
    r.1 = .success ∧ r.2.capacity = c.capacity * resizeFactor ∧ WellPlaced h r.2 ∧
      (∀ p ∈ occupied c, ∃ q ∈ occupied r.2, SameBinding (c.table p) (r.2.table q)) ∧
      ∀ q ∈ occupied r.2, ∃ p ∈ occupied c, SameBinding (r.2.table q) (c.table p) := by
  intro r
  obtain ⟨m, hm⟩ := hw.isMap
  obtain ⟨hok, hcap, -, hm'⟩ := hm.cuckooResize hc hfit
  have hback : ∀ q ∈ occupied r.2, ∃ p ∈ occupied c, SameBinding (r.2.table q) (c.table p) :=
    fun q hq => hm'.binding hm hq
  refine ⟨hok, hcap, hm'.wellPlaced fun q hq => ?_, fun p hp => hm.binding hm' hp, hback⟩
  obtain ⟨p, hp, hkey, -⟩ := hback q hq
  have hvalid := hw.valid p hp
  rw [ValidKey, ← hkey] at hvalid
  exact hvalid

theorem cuckooResize_wellPlaced_four : (cuckooResize twoBuckets true fourKeys).1 = .success ∧
    (cuckooResize twoBuckets true fourKeys).2.capacity = 4 ∧
    WellPlaced twoBuckets (cuckooResize twoBuckets true fourKeys).2 ∧
    ∀ p ∈ occupied fourKeys, ∃ q ∈ occupied (cuckooResize twoBuckets true fourKeys).2,
      SameBinding (fourKeys.table p) ((cuckooResize twoBuckets true fourKeys).2.table q) := by
  have hw : WellPlaced twoBuckets fourKeys :=
    ⟨by decide +kernel, by decide +kernel, by decide +kernel⟩
  obtain ⟨hok, hcap, hplaced, hkept, -⟩ :=
    cuckooResize_wellPlaced hw (by decide) (by decide)
  exact ⟨hok, hcap, hplaced, hkept⟩

end FlatFS.Cuckoo
