import Mathlib.Tactic

namespace Lib
open Function

/-- Values kept under keys, some of them in memory (with a mark when the memory is ahead), all of
them in places of a device. -/
@[ext]
structure WriteBack (κ L V : Type*) where
  cache : κ → Option (V × Bool)
  dev : L → V

namespace WriteBack

section
variable {κ L V : Type*} (loc : κ → L) (c : WriteBack κ L V)

def view (k : κ) : V := (c.cache k).elim (c.dev (loc k)) Prod.fst

/-- What is unmarked in memory is the value of the device, for the keys of a set. -/
def Coherent (K : Set κ) : Prop :=
  ∀ k ∈ K, ∀ v, c.cache k = some (v, false) → c.dev (loc k) = v

end

section
variable {κ L V : Type*} [DecidableEq κ] (loc : κ → L) (c : WriteBack κ L V)

def put (k : κ) (p : Option (V × Bool)) : WriteBack κ L V :=
  { c with cache := update c.cache k p }

def write (k : κ) (v : V) : WriteBack κ L V := c.put k (some (v, true))

def load (k : κ) : WriteBack κ L V := c.put k (some (c.dev (loc k), false))

def drop (k : κ) : WriteBack κ L V := c.put k none

def flush [DecidableEq L] (k : κ) (v : V) : WriteBack κ L V :=
  { c with dev := update c.dev (loc k) v }.put k (some (v, false))

theorem put_cache (k : κ) (p : Option (V × Bool)) :
    (c.put k p).cache = update c.cache k p := rfl

theorem put_dev (k : κ) (p : Option (V × Bool)) : (c.put k p).dev = c.dev := rfl

theorem flush_cache [DecidableEq L] (k : κ) (v : V) :
    (c.flush loc k v).cache = update c.cache k (some (v, false)) := rfl

theorem flush_dev [DecidableEq L] (k : κ) (v : V) :
    (c.flush loc k v).dev = update c.dev (loc k) v := rfl

variable {loc c} {K : Set κ} {k : κ} {v : V}

theorem view_put (p : Option (V × Bool)) :
    (c.put k p).view loc = update (c.view loc) k (p.elim (c.dev (loc k)) Prod.fst) := by
  funext k'
  by_cases h : k' = k
  · rw [h, update_self, view, put_cache, put_dev, update_self]
  · rw [update_of_ne h, view, view, put_cache, put_dev, update_of_ne h]

theorem view_load (h : c.cache k = none) : (c.load loc k).view loc = c.view loc := by
  have hk : c.view loc k = c.dev (loc k) := by rw [view, h, Option.elim_none]
  rw [load, view_put, Option.elim_some, ← hk, update_eq_self]

/-- What is given up is found again on the device. -/
theorem Coherent.view_drop (hc : Coherent loc c K) (hk : k ∈ K) (h : c.cache k = some (v, false)) :
    (c.drop k).view loc = c.view loc := by
  have hv : c.view loc k = c.dev (loc k) := by
    rw [view, h, Option.elim_some, hc k hk v h]
  rw [drop, view_put, Option.elim_none, ← hv, update_eq_self]

theorem view_flush [DecidableEq L] (hloc : Set.InjOn loc K) (hk : k ∈ K) {k' : κ} (hk' : k' ∈ K) :
    (c.flush loc k v).view loc k' = update (c.view loc) k v k' := by
  rw [view, flush_cache, flush_dev]
  by_cases he : k' = k
  · rw [he, update_self, Option.elim_some, update_self]
  · have hne : loc k' ≠ loc k := fun h => he (hloc hk' hk h)
    rw [update_of_ne he, update_of_ne he, update_of_ne hne, view]

/-- A change of one entry is harmless when it leaves no unmarked value that the device lacks. -/
theorem Coherent.put (hc : Coherent loc c K) {p : Option (V × Bool)}
    (hp : ∀ v, p = some (v, false) → c.dev (loc k) = v) : Coherent loc (c.put k p) K := by
  intro k' hk' v' h
  rw [put_cache, update_apply] at h
  split_ifs at h with he
  · rw [he]
    exact hp v' h
  · exact hc k' hk' v' h

theorem Coherent.write (hc : Coherent loc c K) : Coherent loc (c.write k v) K := by
  apply hc.put
  intro v' h
  cases h

theorem Coherent.load (hc : Coherent loc c K) : Coherent loc (c.load loc k) K := by
  apply hc.put
  intro v' h
  cases h
  rfl

theorem Coherent.drop (hc : Coherent loc c K) : Coherent loc (c.drop k) K := by
  apply hc.put
  intro v' h
  cases h

theorem Coherent.flush [DecidableEq L] (hloc : Set.InjOn loc K) (hc : Coherent loc c K)
    (hk : k ∈ K) : Coherent loc (c.flush loc k v) K := by
  intro k' hk' v' h
  rw [flush_cache, update_apply] at h
  rw [flush_dev]
  split_ifs at h with he
  · cases h
    rw [he, update_self]
  · have hne : loc k' ≠ loc k := fun hl => he (hloc hk' hk hl)
    rw [update_of_ne hne]
    exact hc k' hk' v' h

end

end WriteBack

end Lib
