import FlatFS.CuckooPath

namespace FlatFS.Cuckoo
open Lib Function

theorem mem_slots {capacity : ℕ} {p : Slot} :
    p ∈ slots capacity ↔ p.1 < capacity ∧ p.2 < assocNum := by
  obtain ⟨b, i⟩ := p
  simp [slots]

theorem slots_succ (capacity : ℕ) :
    slots (capacity + 1) = slots capacity ++ (List.range assocNum).map (capacity, ·) := by
  simp [slots, List.range_succ]

theorem slots_nodup (capacity : ℕ) : (slots capacity).Nodup := by
  induction capacity with
  | zero => simp [slots]
  | succ n ih =>
    have hrow : ((List.range assocNum).map ((n, ·) : ℕ → Slot)).Nodup :=
      List.nodup_range.map fun i j hij => (Prod.mk.inj hij).2
    rw [slots_succ]
    refine ih.append hrow fun p hp hq => ?_
    obtain ⟨i, -, rfl⟩ := List.mem_map.mp hq
    exact lt_irrefl n (mem_slots.mp hp).1

theorem countP_slots {capacity b : ℕ} (hb : b < capacity) :
    (slots capacity).countP (·.1 = b) = assocNum := by
  induction capacity with
  | zero => cases hb
  | succ n ih =>
    have hrow : ((List.range assocNum).map ((n, ·) : ℕ → Slot)).countP (·.1 = b) =
        if n = b then assocNum else 0 := by
      split_ifs with he <;> simp [List.countP_map, comp_def, he]
    rw [slots_succ, List.countP_append, hrow]
    rcases Nat.lt_succ_iff_lt_or_eq.mp hb with hlt | rfl
    · rw [ih hlt, if_neg (by omega)]
    · have hzero : (slots b).countP (·.1 = b) = 0 := by
        refine List.countP_eq_zero.mpr fun p hp => ?_
        simpa using (mem_slots.mp hp).1.ne
      rw [hzero, if_pos rfl, Nat.zero_add]

def load (t : Table) (b : ℕ) : ℕ :=
  ((Finset.range assocNum).filter fun i => (t (b, i)).invalid = false).card

theorem load_zeroTable (b : ℕ) : load zeroTable b = 0 := by
  have hz : ∀ i, (zeroTable (b, i)).invalid = true := fun i => by
    simp [zeroTable, Entry.invalid, keyStr, List.replicate]
  simp [load, hz]

theorem exists_empty {t : Table} {b : ℕ} (hl : load t b < assocNum) :
    ∃ i < assocNum, (t (b, i)).invalid = true := by
  by_contra hall
  have hfull : ∀ i ∈ Finset.range assocNum, (t (b, i)).invalid = false := by
    intro i hi
    rw [← Bool.not_eq_true]
    exact fun hinv => hall ⟨i, Finset.mem_range.mp hi, hinv⟩
  rw [load, Finset.filter_true_of_mem hfull, Finset.card_range] at hl
  exact lt_irrefl _ hl

theorem load_update_of_ne {t : Table} {p : Slot} {b : ℕ} (hb : p.1 ≠ b) (e : Entry) :
    load (update t p e) b = load t b := by
  have hne : ∀ i, (b, i) ≠ p := fun i he => hb (by rw [← he])
  simp [load, update_of_ne, hne]

theorem load_update_le (t : Table) (p : Slot) (e : Entry) :
    load (update t p e) p.1 ≤ load t p.1 + 1 := by
  have hsub : ((Finset.range assocNum).filter fun i => (update t p e (p.1, i)).invalid = false) ⊆
      insert p.2 ((Finset.range assocNum).filter fun i => (t (p.1, i)).invalid = false) := by
    intro i hi
    rcases eq_or_ne i p.2 with rfl | hne
    · exact Finset.mem_insert_self _ _
    · have hp : (p.1, i) ≠ p := fun he => hne (congrArg Prod.snd he)
      rw [Finset.mem_filter, update_of_ne hp] at hi
      exact Finset.mem_insert_of_mem (Finset.mem_filter.mpr hi)
  exact (Finset.card_le_card hsub).trans (Finset.card_insert_le _ _)

theorem Hashes.first_double (h : Hashes) (k : CStr) (n : ℕ) :
    h.first k (n * resizeFactor) % n = h.first k n := Nat.mod_mul_right_mod _ _ _

theorem Hashes.second_double (h : Hashes) (k : CStr) (n : ℕ) :
    h.second k (n * resizeFactor) % n = h.second k n := Nat.mod_mul_right_mod _ _ _

/-- The state of the new table when the old slots of `done` have been rehashed: it holds
their bindings, and the buckets `b` and `b + n` have taken entries of bucket `b` alone. -/
structure Rehashed (h : Hashes) (n : ℕ) (old : Table) (done : List Slot) (new : Table) : Prop where
  holds : ∃ m, Holds (home h (n * resizeFactor)) (content (n * resizeFactor) new) m ∧
    ∀ k v, m k = some v ↔ ∃ p ∈ done, content n old p = some (k, v)
  load_le : ∀ b < n, load new b + load new (b + n) ≤ done.countP (·.1 = b)

theorem Rehashed.init (h : Hashes) (n : ℕ) (old : Table) : Rehashed h n old [] zeroTable where
  holds := by
    refine ⟨fun _ => none, ?_, by simp⟩
    rw [content_zero]
    exact Holds.empty
  load_le b _ := by simp [load_zeroTable]

variable {h : Hashes} {n : ℕ} {old new : Table} {m : CStr → Option Value} {done rest : List Slot}
  {cur : Slot} {k : CStr} {v : Value}

/-- The slots of `done` leave room in both new buckets of `cur`. -/
theorem Rehashed.room (hr : Rehashed h n old done new) (hsplit : done ++ cur :: rest = slots n)
    {b : ℕ} (hb : b < n * resizeFactor) (hbn : b % n = cur.1) : load new b < assocNum := by
  have hcur : cur.1 < n := (mem_slots.mp (hsplit ▸ by simp : cur ∈ slots n)).1
  have hcount := countP_slots hcur
  rw [← hsplit, List.countP_append, List.countP_cons_of_pos (by simp)] at hcount
  have hload := hr.load_le cur.1 hcur
  have htwo : n * resizeFactor = n + n := Nat.mul_two n
  -- `b` is one of the two buckets that the old one splits into
  rcases lt_or_ge b n with hlt | hge
  · rw [Nat.mod_eq_of_lt hlt] at hbn
    subst hbn
    omega
  · have hmod : b % n = b - n := by
      rw [Nat.mod_eq_sub_mod hge, Nat.mod_eq_of_lt (by omega)]
    have he : b = cur.1 + n := by omega
    rw [he]
    omega

/-- An entry of the old table finds an empty slot in a bucket of its own: no error branch of
`cuckoo_resize` is taken. -/
theorem Rehashed.rehashSlot (hr : Rehashed h n old done new) (hn : 0 < n)
    (hsplit : done ++ cur :: rest = slots n) (hcur : content n old cur = some (k, v))
    (hh : home h n k cur) :
    ∃ p, Cuckoo.rehashSlot h n (n * resizeFactor) new cur.1 (old cur) = some p ∧
      home h (n * resizeFactor) k p ∧ p.1 % n = cur.1 ∧ (new p).invalid = true := by
  obtain ⟨-, -, hkey, -⟩ := content_eq_some.mp hcur
  have hpos : 0 < n * resizeFactor := Nat.mul_pos hn (by norm_num)
  -- a bucket that the old one splits into has room, so that the search in it succeeds
  have hone : ∀ b, b < n * resizeFactor → b % n = cur.1 →
      (b = h.first k (n * resizeFactor) ∨ b = h.second k (n * resizeFactor)) →
      ∃ p, (firstEmpty new b).map (b, ·) = some p ∧
        home h (n * resizeFactor) k p ∧ p.1 % n = cur.1 ∧ (new p).invalid = true := by
    intro b hb hbn hbk
    obtain ⟨i, hi, hinv⟩ := exists_empty (hr.room hsplit hb hbn)
    cases hfe : firstEmpty new b with
    | none =>
      rw [firstEmpty_none.mp hfe i hi] at hinv
      cases hinv
    | some j =>
      obtain ⟨hj, hinv⟩ := firstEmpty_some hfe
      exact ⟨(b, j), rfl, ⟨hbk, hj⟩, hbn, hinv⟩
  have hfirst := h.first_double k n
  have hsecond := h.second_double k n
  simp only [Cuckoo.rehashSlot, hkey]
  split_ifs with hoff hf hs
  · -- both old buckets are the same one, and both new ones are searched
    have hcf : h.first k n = cur.1 := by rcases hh.1 with he | he <;> omega
    obtain ⟨i, hi, hinv⟩ := exists_empty
      (hr.room hsplit (h.first_lt k hpos) (hfirst.trans hcf))
    cases hsc : scanBoth new (h.first k (n * resizeFactor)) (h.second k (n * resizeFactor))
        Entry.invalid with
    | none =>
      rw [(scanBoth_none.mp hsc i hi).1] at hinv
      cases hinv
    | some p =>
      obtain ⟨hpb, hp, hinv⟩ := scanBoth_some hsc
      refine ⟨p, rfl, ⟨hpb, hp⟩, ?_, hinv⟩
      rcases hpb with he | he <;> rw [he] <;> omega
  · exact hone _ (h.first_lt k hpos) (hfirst.trans hf) (.inl rfl)
  · exact hone _ (h.second_lt k hpos) (hsecond.trans hs) (.inr rfl)
  · rcases hh.1 with he | he
    · exact absurd he.symm hf
    · exact absurd he.symm hs

theorem Rehashed.load_place (hr : Rehashed h n old done new) {b : ℕ} (hb : b < n) {p : Slot}
    (hpn : p.1 % n = cur.1) (e : Entry) :
    load (update new p e) b + load (update new p e) (b + n) ≤
      (done ++ [cur]).countP (·.1 = b) := by
  have hle := hr.load_le b hb
  have hcount : (done ++ [cur]).countP (·.1 = b) =
      done.countP (·.1 = b) + if cur.1 = b then 1 else 0 := by
    simp [List.countP_append, List.countP_singleton]
  rw [hcount]
  by_cases he : cur.1 = b
  · have hup := load_update_le new p e
    rw [if_pos he]
    rcases eq_or_ne p.1 b with hb' | hb'
    · rw [load_update_of_ne (b := b + n) (by omega)]
      rw [hb'] at hup
      omega
    · rw [load_update_of_ne hb']
      rcases eq_or_ne p.1 (b + n) with hbn | hbn
      · rw [hbn] at hup
        omega
      · rw [load_update_of_ne hbn]
        omega
  · -- the entry goes elsewhere
    have hb' : p.1 ≠ b := by
      rintro rfl
      exact he (by rw [← hpn, Nat.mod_eq_of_lt hb])
    have hbn : p.1 ≠ b + n := by
      intro hbn
      rw [hbn, Nat.add_mod_right, Nat.mod_eq_of_lt hb] at hpn
      exact he hpn.symm
    rw [load_update_of_ne hb', load_update_of_ne hbn, if_neg he]
    exact hle

theorem Rehashed.place (hr : Rehashed h n old done new) (hn : 0 < n)
    (hold : Holds (home h n) (content n old) m) (hcur : content n old cur = some (k, v))
    (hnot : cur ∉ done) {p : Slot} (hp : home h (n * resizeFactor) k p) (hpn : p.1 % n = cur.1)
    (hinv : (new p).invalid = true) :
    Rehashed h n old (done ++ [cur]) (update new p (old cur)) := by
  obtain ⟨m', hm', hdone⟩ := hr.holds
  obtain ⟨-, hvalid, hkey, hvalue⟩ := content_eq_some.mp hcur
  have hpos : 0 < n * resizeFactor := Nat.mul_pos hn (by norm_num)
  have hin : p.1 < n * resizeFactor ∧ p.2 < assocNum := ⟨hp.lt hpos, hp.2⟩
  -- a key of `done` stands in another old slot, and the old table has a key once
  have hfresh : m' k = none := by
    by_contra hne
    obtain ⟨w, hw⟩ := Option.ne_none_iff_exists'.mp hne
    obtain ⟨q, hq, hqk⟩ := (hdone k w).mp hw
    exact hnot (hold.inj hqk hcur ▸ hq)
  refine ⟨⟨update m' k (some v), ?_, fun k' w => ?_⟩, fun b hb => ?_⟩
  · rw [content_update hin, view_of_valid hvalid, hkey, hvalue]
    exact hm'.put ((content_eq_none hin).mpr hinv) hfresh hp v
  · rcases eq_or_ne k' k with rfl | hne
    · rw [update_self]
      constructor
      · intro hw
        cases hw
        exact ⟨cur, by simp, hcur⟩
      · rintro ⟨q, -, hqk⟩
        rw [← hold.lookup hcur, hold.lookup hqk]
    · rw [update_of_ne hne, hdone]
      refine ⟨fun ⟨q, hq, hqk⟩ => ⟨q, List.mem_append_left _ hq, hqk⟩, fun ⟨q, hq, hqk⟩ => ?_⟩
      rcases List.mem_append.mp hq with hq | hq
      · exact ⟨q, hq, hqk⟩
      · rw [List.mem_singleton.mp hq, hcur] at hqk
        cases hqk
        exact absurd rfl hne
  · exact hr.load_place hb hpn (old cur)

theorem Rehashed.step (hr : Rehashed h n old done new) (hn : 0 < n)
    (hold : Holds (home h n) (content n old) m) (hsplit : done ++ cur :: rest = slots n) :
    ∃ new', rehash h old n (n * resizeFactor) new cur = some new' ∧
      Rehashed h n old (done ++ [cur]) new' := by
  have hin := mem_slots.mp (hsplit ▸ by simp : cur ∈ slots n)
  cases hinv : (old cur).invalid with
  | true =>
    -- an empty slot of the old table is skipped
    have hnone : content n old cur = none := (content_eq_none hin).mpr hinv
    obtain ⟨m', hm', hdone⟩ := hr.holds
    refine ⟨new, by simp [rehash, hinv], ⟨⟨m', hm', fun k v => ?_⟩, fun b hb => ?_⟩⟩
    · rw [hdone]
      simp [or_and_right, exists_or, hnone]
    · refine (hr.load_le b hb).trans ?_
      rw [List.countP_append]
      exact Nat.le_add_right _ _
  | false =>
    have hcur : content n old cur = some (keyStr (old cur).key, (old cur).value) :=
      content_eq_some.mpr ⟨hin, hinv, rfl, rfl⟩
    have hnot : cur ∉ done := by
      have hnd := slots_nodup n
      rw [← hsplit] at hnd
      exact fun hmem => (List.disjoint_of_nodup_append hnd) hmem List.mem_cons_self
    obtain ⟨p, hslot, hp, hpn, hpinv⟩ := hr.rehashSlot hn hsplit hcur (hold.homed hcur)
    exact ⟨_, by simp [rehash, hinv, hslot], hr.place hn hold hcur hnot hp hpn hpinv⟩

theorem Rehashed.run (hn : 0 < n) (hold : Holds (home h n) (content n old) m) (rest : List Slot) :
    ∀ {done : List Slot} {new : Table}, Rehashed h n old done new → done ++ rest = slots n →
      ∃ new', rest.foldlM (rehash h old n (n * resizeFactor)) new = some new' ∧
        Rehashed h n old (slots n) new' := by
  induction rest with
  | nil =>
    intro done new hr hsplit
    rw [List.append_nil] at hsplit
    exact ⟨new, rfl, hsplit ▸ hr⟩
  | cons cur rest ih =>
    intro done new hr hsplit
    obtain ⟨new₁, hone, hr₁⟩ := hr.step hn hold hsplit
    obtain ⟨new', hfold, hr'⟩ := ih hr₁ (by simpa using hsplit)
    exact ⟨new', by simp [List.foldlM_cons, hone, hfold], hr'⟩

theorem Rehashed.holds_all (hr : Rehashed h n old (slots n) new)
    (hold : Holds (home h n) (content n old) m) :
    Holds (home h (n * resizeFactor)) (content (n * resizeFactor) new) m := by
  obtain ⟨m', hm', hdone⟩ := hr.holds
  have he : m' = m := by
    funext k
    refine Option.ext fun v => ?_
    rw [hdone, hold.mem_iff]
    refine ⟨fun ⟨p, _, hp⟩ => ⟨p, hp⟩, fun ⟨p, hp⟩ => ⟨p, ?_, hp⟩⟩
    exact mem_slots.mpr (content_eq_some.mp hp).1
  rwa [he] at hm'

/-- `cuckoo_resize` of a table that holds a map succeeds once its allocation does, and the new
table holds the same map. -/
theorem CuckooHash.IsMap.cuckooResize {c : CuckooHash} (hm : c.IsMap h m) (hc : 0 < c.capacity)
    (hfit : c.capacity * resizeFactor < 2 ^ 64) :
    (cuckooResize h true c).1 = .success ∧
      (cuckooResize h true c).2.capacity = c.capacity * resizeFactor ∧
      (cuckooResize h true c).2.entryNum = c.entryNum ∧
      (cuckooResize h true c).2.IsMap h m := by
  obtain ⟨new, hfold, hr⟩ := Rehashed.run hc hm (slots c.capacity) (.init _ _ _) rfl
  have hmod := Nat.mod_eq_of_lt hfit
  have he : Cuckoo.cuckooResize h true c = (.success, { c with
      initWrite := c.initWrite + BitVec.ofNat 64 (c.capacity * resizeFactor * assocNum)
      capacity := c.capacity * resizeFactor
      table := new
      resizeWrite := c.resizeWrite + c.entryNum }) := by
    simp only [Cuckoo.cuckooResize, if_true, hmod, hfold]
  rw [he]
  exact ⟨rfl, rfl, rfl, hr.holds_all hm⟩

end FlatFS.Cuckoo
