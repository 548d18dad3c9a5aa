import FlatFS.Defs
import FlatFS.Lib.Run
import FlatFS.Lib.SlotStore

namespace FlatFS.Cuckoo
open Lib Function

abbrev keyLen : ℕ := 4
abbrev valueLen : ℕ := 8
abbrev assocNum : ℕ := 4
abbrev resizeFactor : ℕ := 2
abbrev maxEviction : ℕ := 16

abbrev bucketSize : ℕ := assocNum * (keyLen + valueLen)

/-- `status_t`, with the negative error number that some paths return in its place. -/
inductive Status
  | success
  | fail
  | noSpace
deriving DecidableEq

abbrev Key := Vector UInt8 keyLen
abbrev Value := Vector UInt8 valueLen

structure Entry where
  key : Key
  value : Value
deriving DecidableEq

abbrev Slot := ℕ × ℕ

abbrev Table := Slot → Entry

/-- The string in a key field, as `strlen` and `strcmp` read it. -/
def keyStr (key : Key) : CStr := key.toList.takeWhile (· ≠ 0)

def Entry.invalid (e : Entry) : Bool := keyStr e.key == []

def zeroTable : Table := fun _ => ⟨.replicate keyLen 0, .replicate valueLen 0⟩

structure Hashes where
  fHash : CStr → BitVec 64
  sHash : CStr → BitVec 64

def fIdx (hashKey : BitVec 64) (capacity : ℕ) : ℕ := hashKey.toNat % capacity

def sIdx (hashKey : BitVec 64) (capacity : ℕ) : ℕ := hashKey.toNat % capacity

namespace Hashes

def first (h : Hashes) (k : CStr) (capacity : ℕ) : ℕ := fIdx (h.fHash k) capacity

def second (h : Hashes) (k : CStr) (capacity : ℕ) : ℕ := sIdx (h.sHash k) capacity

end Hashes

/-- `cuckoo_hash_t`. The eviction paths are results of `findPath`, the seeds are in `Hashes`. -/
structure CuckooHash where
  table : Table
  capacity : ℕ
  entryNum : BitVec 64
  evictLen : BitVec 64
  findPath : BitVec 64
  resizeWrite : BitVec 64
  initWrite : BitVec 64

def cuckooHashInit (capacity : ℕ) : CuckooHash :=
  ⟨zeroTable, capacity, 0, 0, 0, 0, BitVec.ofNat 64 (capacity * assocNum)⟩

structure PathNode where
  preBucket : ℕ
  preSlot : ℕ
  nextBucket : ℕ
  nextSlot : ℕ

def firstEmpty (table : Table) (bucket : ℕ) : Option ℕ :=
  (List.range assocNum).find? fun i => (table (bucket, i)).invalid

/-- The loop over two buckets at once: slot `i` of the first before slot `i` of the second. -/
def scanBoth (table : Table) (fIdx sIdx : ℕ) (test : Entry → Bool) : Option Slot :=
  (List.range assocNum).findSome? fun i =>
    if test (table (fIdx, i)) then some (fIdx, i)
    else if test (table (sIdx, i)) then some (sIdx, i)
    else none

/-- What `find_path` returns, writes to the path array and leaves in its counter. -/
structure PathResult where
  len : BitVec 64
  paths : List PathNode
  counter : BitVec 64

/-- The other bucket of the key in a slot; `none` is the branch "find path error". -/
def evictBucket (h : Hashes) (table : Table) (capacity curBucket curSlot : ℕ) : Option ℕ :=
  let key := keyStr (table (curBucket, curSlot)).key
  let fIdx := h.first key capacity
  let sIdx := h.second key capacity
  if fIdx = curBucket then some sIdx
  else if sIdx = curBucket then some fIdx
  else none

/-- The loop of `find_path`; `used_node_number` is the length of `paths`. -/
def findPathLoop (h : Hashes) (table : Table) (capacity : ℕ) :
    ℕ → ℕ → ℕ → List PathNode → BitVec 64 → PathResult
  | 0, _, _, paths, counter => ⟨0, paths, counter⟩
  | fuel + 1, curBucket, curSlot, paths, counter =>
    match evictBucket h table capacity curBucket curSlot with
    | none => ⟨-28, paths, counter + 1⟩
    | some evict =>
      match firstEmpty table evict with
      | some i =>
        ⟨BitVec.ofNat 64 (paths.length + 1), paths ++ [⟨curBucket, curSlot, evict, i⟩], counter + 1⟩
      | none =>
        findPathLoop h table capacity fuel evict (assocNum - 1)
          (paths ++ [⟨curBucket, curSlot, evict, assocNum - 1⟩]) (counter + 1)

def findPath (h : Hashes) (cuckoo : CuckooHash) (bucket slot : ℕ) : PathResult :=
  findPathLoop h cuckoo.table cuckoo.capacity maxEviction bucket slot [] cuckoo.findPath

def copyHop (node : PathNode) (table : Table) : Table :=
  update table (node.nextBucket, node.nextSlot) (table (node.preBucket, node.preSlot))

/-- `execute_path`: `i` is signed, and the nodes are taken from the last one to the first. -/
def executePath (table : Table) (paths : List PathNode) (pathLen : BitVec 64) : Table :=
  (paths.take ((pathLen - 1).toInt + 1).toNat).foldr copyHop table

def CuckooHash.place (cuckoo : CuckooHash) (p : Slot) (key : Key) (value : Value) : CuckooHash :=
  { cuckoo with
    table := update cuckoo.table p ⟨key, value⟩
    entryNum := cuckoo.entryNum + 1 }

/-- The choice between the two paths of a round: the shorter one, and the second one on a tie. -/
def choosePath (r₁ r₂ : PathResult) (fIdx sIdx : ℕ) : PathResult × ℕ :=
  if r₁.len = 0 then (r₂, sIdx)
  else if r₂.len = 0 then (r₁, fIdx)
  else if r₁.len < r₂.len then (r₁, fIdx)
  else (r₂, sIdx)

/-- The eviction loop of `cuckoo_insert` over the start slots that are left. -/
def evictLoop (h : Hashes) (key : Key) (value : Value) (fIdx sIdx : ℕ) :
    CuckooHash → List ℕ → Status × CuckooHash
  | cuckoo, [] => (.fail, cuckoo)
  | cuckoo, i :: is =>
    let r₁ := findPath h cuckoo fIdx i
    let cuckoo := { cuckoo with findPath := r₁.counter }
    let r₂ := findPath h cuckoo sIdx i
    let cuckoo := { cuckoo with findPath := r₂.counter }
    if r₁.len = 0 ∧ r₂.len = 0 then evictLoop h key value fIdx sIdx cuckoo is
    else
      let (r, tmpIdx) := choosePath r₁ r₂ fIdx sIdx
      let cuckoo := { cuckoo with
        table := executePath cuckoo.table r.paths r.len
        evictLen := cuckoo.evictLen + r.len }
      (.success, cuckoo.place (tmpIdx, i) key value)

def cuckooInsert (h : Hashes) (cuckoo : CuckooHash) (key : Key) (value : Value) :
    Status × CuckooHash :=
  let fIdx := h.first (keyStr key) cuckoo.capacity
  let sIdx := h.second (keyStr key) cuckoo.capacity
  match scanBoth cuckoo.table fIdx sIdx Entry.invalid with
  | some p => (.success, cuckoo.place p key value)
  | none => evictLoop h key value fIdx sIdx cuckoo (List.range assocNum)

def findKey (h : Hashes) (cuckoo : CuckooHash) (key : Key) : Option Slot :=
  scanBoth cuckoo.table (h.first (keyStr key) cuckoo.capacity)
    (h.second (keyStr key) cuckoo.capacity) fun e => keyStr e.key == keyStr key

def cuckooUpdate (h : Hashes) (cuckoo : CuckooHash) (key : Key) (value : Value) :
    Status × CuckooHash :=
  match findKey h cuckoo key with
  | some p =>
    (.success, { cuckoo with table := update cuckoo.table p ⟨(cuckoo.table p).key, value⟩ })
  | none => (.fail, cuckoo)

/-- `cuckoo_query`; `value` is the buffer of the caller. -/
def cuckooQuery (h : Hashes) (cuckoo : CuckooHash) (key : Key) (value : Value) : Status × Value :=
  match findKey h cuckoo key with
  | some p => (.success, (cuckoo.table p).value)
  | none => (.fail, value)

/-- The slot of the new table for the entry in slot `cur` of the old one; `none` is one of
the branches "resize fail" and "offset error". -/
def rehashSlot (h : Hashes) (oldCapacity newCapacity : ℕ) (newTable : Table) (curIdx : ℕ)
    (e : Entry) : Option Slot :=
  let key := keyStr e.key
  let fIdx := h.first key newCapacity
  let sIdx := h.second key newCapacity
  let fOff := h.first key oldCapacity
  let sOff := h.second key oldCapacity
  if fOff = sOff then scanBoth newTable fIdx sIdx Entry.invalid
  else if fOff = curIdx then (firstEmpty newTable fIdx).map (fIdx, ·)
  else if sOff = curIdx then (firstEmpty newTable sIdx).map (sIdx, ·)
  else none

def rehash (h : Hashes) (oldTable : Table) (oldCapacity newCapacity : ℕ) (newTable : Table)
    (cur : Slot) : Option Table :=
  let e := oldTable cur
  if e.invalid then some newTable
  else (rehashSlot h oldCapacity newCapacity newTable cur.1 e).map (update newTable · e)

def slots (capacity : ℕ) : List Slot :=
  (List.range capacity).flatMap fun cur => (List.range assocNum).map (cur, ·)

/-- `cuckoo_resize`; `alloc` says whether `kzalloc` has returned a table. -/
def cuckooResize (h : Hashes) (alloc : Bool) (cuckoo : CuckooHash) : Status × CuckooHash :=
  if alloc then
    let newCapacity := cuckoo.capacity * resizeFactor % 2 ^ 64
    let counted := { cuckoo with
      initWrite := cuckoo.initWrite + BitVec.ofNat 64 (newCapacity * assocNum) }
    match (slots cuckoo.capacity).foldlM
        (rehash h cuckoo.table cuckoo.capacity newCapacity) zeroTable with
    | some newTable =>
      (.success, { counted with
        capacity := newCapacity
        table := newTable
        resizeWrite := counted.resizeWrite + counted.entryNum })
    | none => (.noSpace, counted)
  else (.noSpace, cuckoo)

end FlatFS.Cuckoo
