import Mathlib.Data.Set.Card
import Mathlib.Tactic

namespace Lib
open Function

variable {P K V : Type*}

/-- Slots that store a map: a binding of the map is in one slot, and a key only in a
slot that `home` allows for it. -/
structure Holds (home : K → P → Prop) (c : P → Option (K × V)) (m : K → Option V) : Prop where
  mem_iff : ∀ k v, m k = some v ↔ ∃ p, c p = some (k, v)
  inj : ∀ {p q k v w}, c p = some (k, v) → c q = some (k, w) → p = q
  homed : ∀ {p k v}, c p = some (k, v) → home k p

namespace Holds

variable {home : K → P → Prop} {c : P → Option (K × V)} {m : K → Option V} {p q : P} {k : K}
  {v : V}

theorem empty : Holds home (fun _ : P => (none : Option (K × V))) fun _ => none where
  mem_iff := by simp
  inj h := by cases h
  homed h := by cases h

theorem lookup (h : Holds home c m) (hp : c p = some (k, v)) : m k = some v :=
  (h.mem_iff k v).mpr ⟨p, hp⟩

/-- Slots that repeat no key store the map of their bindings. -/
theorem exists_map (inj : ∀ {p q k v w}, c p = some (k, v) → c q = some (k, w) → p = q)
    (homed : ∀ {p k v}, c p = some (k, v) → home k p) : ∃ m, Holds home c m := by
  classical
  refine ⟨fun k => if h : ∃ v p, c p = some (k, v) then some h.choose else none, ?_, inj, homed⟩
  intro k v
  split_ifs with h
  · obtain ⟨q, hq⟩ := h.choose_spec
    rw [Option.some_inj]
    constructor
    · intro he
      exact ⟨q, he ▸ hq⟩
    · rintro ⟨p, hp⟩
      obtain rfl := inj hp hq
      rw [hp] at hq
      cases hq
      rfl
  · exact iff_of_false (by simp) fun ⟨p, hp⟩ => h ⟨v, p, hp⟩

theorem slot_ne (h : Holds home c m) (hk : m k = none) : c p ≠ some (k, v) := by
  intro hp
  rw [h.lookup hp] at hk
  cases hk

/-- There are as many occupied slots as keys. -/
theorem card_eq (h : Holds home c m) (s : Finset P) (hs : ∀ p, p ∈ s ↔ c p ≠ none) :
    s.card = {k | m k ≠ none}.ncard := by
  rw [← Set.ncard_coe_finset]
  refine Set.ncard_congr (fun p hp => ((c p).get (Option.isSome_iff_ne_none.mpr
    ((hs p).mp hp))).1) ?_ ?_ ?_
  · intro p hp
    obtain ⟨⟨k, v⟩, hkv⟩ := Option.ne_none_iff_exists'.mp ((hs p).mp hp)
    simp [hkv, h.lookup hkv]
  · intro p q hp hq heq
    obtain ⟨⟨k, v⟩, hkv⟩ := Option.ne_none_iff_exists'.mp ((hs p).mp hp)
    obtain ⟨⟨k', v'⟩, hkv'⟩ := Option.ne_none_iff_exists'.mp ((hs q).mp hq)
    simp only [hkv, hkv', Option.get_some] at heq
    subst heq
    exact h.inj hkv hkv'
  · intro k hk
    obtain ⟨v, hv⟩ := Option.ne_none_iff_exists'.mp hk
    obtain ⟨p, hp⟩ := (h.mem_iff k v).mp hv
    exact ⟨p, (hs p).mpr (by simp [hp]), by simp [hp]⟩

theorem finite_keys (h : Holds home c m) (s : Finset P) (hs : ∀ p, p ∈ s ↔ c p ≠ none) :
    {k | m k ≠ none}.Finite := by
  refine (s.finite_toSet.image fun p => (c p).map Prod.fst).preimage
    ((Option.some_injective K).injOn) |>.subset fun k hk => ?_
  obtain ⟨v, hv⟩ := Option.ne_none_iff_exists'.mp hk
  obtain ⟨p, hp⟩ := (h.mem_iff k v).mp hv
  exact ⟨p, (hs p).mpr (by simp [hp]), by simp [hp]⟩

variable [DecidableEq P] [DecidableEq K]

theorem put (h : Holds home c m) (hp : c p = none) (hk : m k = none) (hh : home k p) (v : V) :
    Holds home (update c p (some (k, v))) (update m k (some v)) := by
  refine ⟨fun k' w => ?_, ?_, ?_⟩
  · rcases eq_or_ne k' k with rfl | hne
    · rw [update_self]
      constructor
      · intro hw
        refine ⟨p, ?_⟩
        rw [update_self, Option.some.inj hw]
      · rintro ⟨q, hq⟩
        rcases eq_or_ne q p with rfl | hqp
        · rw [update_self] at hq
          cases hq
          rfl
        · rw [update_of_ne hqp] at hq
          exact absurd hq (h.slot_ne hk)
    · rw [update_of_ne hne, h.mem_iff]
      refine exists_congr fun q => ?_
      rcases eq_or_ne q p with rfl | hqp
      · simp [hp, hne.symm]
      · rw [update_of_ne hqp]
  · intro q r k' w w' hq hr
    rcases eq_or_ne q p with rfl | hqp <;> rcases eq_or_ne r q with rfl | hrq
    · rfl
    · rw [update_self] at hq
      rw [update_of_ne hrq] at hr
      cases hq
      exact absurd hr (h.slot_ne hk)
    · rfl
    · rw [update_of_ne hqp] at hq
      rcases eq_or_ne r p with rfl | hrp
      · rw [update_self] at hr
        cases hr
        exact absurd hq (h.slot_ne hk)
      · rw [update_of_ne hrp] at hr
        exact h.inj hq hr
  · intro q k' w hq
    rcases eq_or_ne q p with rfl | hqp
    · rw [update_self] at hq
      cases hq
      exact hh
    · rw [update_of_ne hqp] at hq
      exact h.homed hq

theorem drop (h : Holds home c m) (hp : c p = some (k, v)) :
    Holds home (update c p none) (update m k none) := by
  have hold : ∀ {q k' w}, update c p none q = some (k', w) → q ≠ p ∧ c q = some (k', w) := by
    intro q k' w hq
    rcases eq_or_ne q p with rfl | hqp
    · simp at hq
    · exact ⟨hqp, by rwa [update_of_ne hqp] at hq⟩
  refine ⟨fun k' w => ⟨fun hw => ?_, ?_⟩, fun hq hr => h.inj (hold hq).2 (hold hr).2,
    fun hq => h.homed (hold hq).2⟩
  · rcases eq_or_ne k' k with rfl | hne
    · simp at hw
    · rw [update_of_ne hne, h.mem_iff] at hw
      obtain ⟨q, hq⟩ := hw
      refine ⟨q, ?_⟩
      rw [update_of_ne, hq]
      rintro rfl
      rw [hp] at hq
      cases hq
      exact hne rfl
  · rintro ⟨q, hq⟩
    obtain ⟨hqp, hq⟩ := hold hq
    rw [update_of_ne, h.lookup hq]
    rintro rfl
    exact hqp (h.inj hq hp)

theorem set (h : Holds home c m) (hp : c p = some (k, v)) (w : V) :
    Holds home (update c p (some (k, w))) (update m k (some w)) := by
  have := (h.drop hp).put (update_self _ _ _) (update_self _ _ _) (h.homed hp) w
  rwa [update_idem, update_idem] at this

theorem move (h : Holds home c m) (hq : c q = none) (hp : c p = some (k, v)) (hh : home k q) :
    Holds home (update (update c q (some (k, v))) p none) m := by
  have hpq : q ≠ p := by
    rintro rfl
    rw [hp] at hq
    cases hq
  have := (h.drop hp).put (p := q) (by rwa [update_of_ne hpq]) (update_self _ _ _) hh v
  rwa [update_idem, update_comm hpq.symm, ← h.lookup hp, update_eq_self] at this

end Holds

/-- The walk of `hop` from a slot: every hop names its target and whether it is the last one. -/
inductive Walk (hop : P → P × Bool) : P → List (P × P) → Prop
  | last {p q : P} : hop p = (q, true) → Walk hop p [(p, q)]
  | cons {p q : P} {path : List (P × P)} :
      hop p = (q, false) → Walk hop q path → Walk hop p ((p, q) :: path)

namespace Walk

variable {hop : P → P × Bool} {p q : P} {path : List (P × P)}

theorem functional {path' : List (P × P)} (h : Walk hop p path) (h' : Walk hop p path') :
    path = path' := by
  induction h generalizing path' with
  | last hq =>
    cases h' with
    | last hq' => rw [hq] at hq'; cases hq'; rfl
    | cons hq' _ => rw [hq] at hq'; cases hq'
  | cons hq _ ih =>
    cases h' with
    | last hq' => rw [hq] at hq'; cases hq'
    | cons hq' hw => rw [hq] at hq'; cases hq'; rw [ih hw]

theorem length_pos (h : Walk hop p path) : 0 < path.length := by
  cases h <;> simp

theorem start_mem (h : Walk hop p path) : p ∈ path.map Prod.fst := by
  cases h <;> simp

/-- From every source the rest of the walk is the walk of that source. -/
theorem from_source (h : Walk hop p path) (hq : q ∈ path.map Prod.fst) :
    ∃ rest, Walk hop q rest ∧ rest.length ≤ path.length := by
  induction h with
  | last hr =>
    obtain rfl : q = _ := by simpa using hq
    exact ⟨_, .last hr, le_rfl⟩
  | cons hr hw ih =>
    rcases List.mem_cons.mp hq with rfl | hmem
    · exact ⟨_, .cons hr hw, le_rfl⟩
    · obtain ⟨rest, hrest, hle⟩ := ih hmem
      exact ⟨rest, hrest, hle.trans (Nat.le_succ _)⟩

/-- A walk that ends repeats no source: the second visit would go on as the first did. -/
theorem nodup (h : Walk hop p path) : (path.map Prod.fst).Nodup := by
  induction h with
  | last _ => simp
  | @cons p q path hr hw ih =>
    refine List.nodup_cons.mpr ⟨fun hmem => ?_, ih⟩
    obtain ⟨rest, hrest, hle⟩ := hw.from_source hmem
    have := congrArg List.length (hrest.functional (.cons hr hw))
    simp only [List.length_cons] at this
    omega

theorem isChain (h : Walk hop p path) : path.IsChain fun a b => a.2 = b.1 := by
  induction h with
  | last _ => exact .singleton _
  | cons _ hw ih =>
    refine ih.cons fun b hb => ?_
    cases hw with
    | last _ =>
      cases hb
      rfl
    | cons _ _ =>
      cases hb
      rfl

theorem head (h : Walk hop p path) : path.head?.map Prod.fst = some p := by
  cases h <;> rfl

theorem getLast (h : Walk hop p path) : ∀ a ∈ path.getLast?, hop a.1 = (a.2, true) := by
  induction h with
  | last hq =>
    intro a ha
    cases ha
    exact hq
  | cons _ hw ih =>
    intro a ha
    rw [List.getLast?_cons_of_ne_nil (List.length_pos_iff.mp hw.length_pos)] at ha
    exact ih a ha

theorem hop_mem (h : Walk hop p path) : ∀ r s, (r, s) ∈ path → (hop r).1 = s := by
  induction h with
  | last hq =>
    intro r s hrs
    cases List.mem_singleton.mp hrs
    rw [hq]
  | cons hq _ ih =>
    intro r s hrs
    rcases List.mem_cons.mp hrs with he | hmem
    · cases he
      rw [hq]
    · exact ih r s hmem

theorem target (h : Walk hop p path) {r : P} (hr : r ∈ path.map Prod.snd) :
    r ∈ path.map Prod.fst ∨ ∃ s, hop s = (r, true) := by
  induction h with
  | last hq =>
    obtain rfl : r = _ := by simpa using hr
    exact .inr ⟨_, hq⟩
  | cons hq hw ih =>
    rcases List.mem_cons.mp hr with rfl | hmem
    · exact .inl (List.mem_cons_of_mem _ hw.start_mem)
    · exact (ih hmem).imp_left (List.mem_cons_of_mem _)

/-- A walk comes back neither to its start nor to what lies before it, when the last hop of a walk
does not end there. -/
theorem notMem_targets (h : Walk hop q path) (hp : p ∉ path.map Prod.fst)
    (hend : ∀ s, hop s ≠ (p, true)) : p ∉ path.map Prod.snd := by
  intro hmem
  rcases h.target hmem with hsrc | ⟨s, hs⟩
  · exact hp hsrc
  · exact hend s hs

theorem start_notMem_targets (h : Walk hop p path) (hend : ∀ s, hop s ≠ (p, true)) :
    p ∉ path.map Prod.snd := by
  cases h with
  | last hq =>
    rw [List.map_singleton, List.mem_singleton]
    rintro rfl
    exact hend _ hq
  | cons hq hw =>
    obtain ⟨hnot, -⟩ := List.nodup_cons.mp (cons hq hw).nodup
    rw [List.map_cons, List.mem_cons, not_or]
    refine ⟨?_, hw.notMem_targets hnot hend⟩
    rintro rfl
    exact hnot hw.start_mem

theorem targets_nodup (h : Walk hop p path)
    (hend : ∀ r ∈ path.map Prod.fst, ∀ s, hop s ≠ (r, true)) : (path.map Prod.snd).Nodup := by
  induction h with
  | last _ => simp
  | cons _ hw ih =>
    have hrest : ∀ r ∈ _, ∀ s, _ := fun r hr => hend r (List.mem_cons_of_mem _ hr)
    exact List.nodup_cons.mpr
      ⟨hw.start_notMem_targets (hrest _ hw.start_mem), ih hrest⟩

end Walk

variable [DecidableEq P] {E : Type*}

def moveAlong (c : P → E) : List (P × P) → P → E
  | [] => c
  | (p, q) :: path => update (moveAlong c path) q (moveAlong c path p)

theorem moveAlong_of_notMem (c : P → E) {path : List (P × P)} {r : P}
    (hr : r ∉ path.map Prod.snd) : moveAlong c path r = c r := by
  induction path with
  | nil => rfl
  | cons pq path ih =>
    rw [List.map_cons, List.mem_cons, not_or] at hr
    obtain ⟨hne, hr⟩ := hr
    rw [moveAlong, update_of_ne hne, ih hr]

/-- Copying along a walk that does not end in one of its sources moves what every source had by one
hop. -/
theorem moveAlong_hop (c : P → E) {hop : P → P × Bool} {p : P} {path : List (P × P)}
    (hw : Walk hop p path) (hend : ∀ r ∈ path.map Prod.fst, ∀ s, hop s ≠ (r, true)) :
    ∀ r s, (r, s) ∈ path → moveAlong c path s = c r := by
  induction hw with
  | last _ =>
    intro r s hrs
    cases List.mem_singleton.mp hrs
    rw [moveAlong, update_self, moveAlong]
  | @cons p q path hq hw ih =>
    obtain ⟨hnot, -⟩ := List.nodup_cons.mp (Walk.cons hq hw).nodup
    have hrest : ∀ r ∈ path.map Prod.fst, ∀ s, hop s ≠ (r, true) :=
      fun r hr => hend r (List.mem_cons_of_mem _ hr)
    intro r s hrs
    rcases List.mem_cons.mp hrs with he | hmem
    · cases he
      rw [moveAlong, update_self]
      exact moveAlong_of_notMem c (hw.notMem_targets hnot (hend p List.mem_cons_self))
    · -- the rest of the walk does not come back to where it starts
      have hsq : s ≠ q := by
        rintro rfl
        exact hw.start_notMem_targets (hrest s hw.start_mem) (List.mem_map_of_mem hmem)
      rw [moveAlong, update_of_ne hsq]
      exact ih hrest r s hmem

/-- Copying along a walk to an empty slot leaves only the start of the walk to be
overwritten: without it the map is the same. -/
theorem Holds.moveAlong [DecidableEq K] {home : K → P → Prop} {c : P → Option (K × V)}
    {m : K → Option V} {hop : P → P × Bool} {p : P} {path : List (P × P)} (h : Holds home c m)
    (hw : Walk hop p path) (hlast : ∀ p q, hop p = (q, true) → c q = none)
    (hsrc : ∀ p q, (p, q) ∈ path → ∃ k v, c p = some (k, v) ∧ home k q) :
    Holds home (update (Lib.moveAlong c path) p none) m := by
  induction hw with
  | @last p q hq =>
    obtain ⟨k, v, hp, hh⟩ := hsrc p q (List.mem_singleton.mpr rfl)
    simpa [Lib.moveAlong, hp] using h.move (hlast p q hq) hp hh
  | @cons p q path hq hw ih =>
    obtain ⟨k, v, hp, hh⟩ := hsrc p q List.mem_cons_self
    have hrest := ih fun p q hpq => hsrc p q (List.mem_cons_of_mem _ hpq)
    have hnodup := (Walk.cons hq hw).nodup
    obtain ⟨hnot, -⟩ := List.nodup_cons.mp hnodup
    have hsame : Lib.moveAlong c path p = c p := by
      refine moveAlong_of_notMem c (hw.notMem_targets hnot fun s hs => ?_)
      rw [hlast s p hs] at hp
      cases hp
    have hpq : p ≠ q := by
      rintro rfl
      exact hnot hw.start_mem
    have hmove := hrest.move (p := p) (q := q) (update_self _ _ _)
      (by rw [update_of_ne hpq, hsame, hp]) hh
    rw [update_idem] at hmove
    rwa [Lib.moveAlong, hsame, hp]

end Lib
