import FlatFS.Blocks
import FlatFS.Lib.Run

namespace FlatFS
open Lib Function

@[ext]
structure CachedPage (β : Type*) where
  bytes : ℕ → β
  dirty : Bool

/-- The data of a file: the `size` of its inode info, its `i_size`, its pages in memory, and the
blocks of the device. The code moves bytes and never looks at them; their type is left open. -/
@[ext]
structure FileData (β : Type*) where
  size : ℕ
  iSize : ℕ
  cache : ℕ → Option (CachedPage β)
  dev : BitVec 64 → ℕ → β

/-- What happens to a file. A write stays inside one page, as `generic_perform_write` cuts it; a
clean page may be given back at any time. -/
inductive FileOp
  | write (pos : ℕ) (data : List UInt8)
  | readpage (k : ℕ)
  | writepage (k : ℕ)
  | releasepage (k : ℕ)

def newFile {β : Type*} (dev : BitVec 64 → ℕ → β) : FileData β := ⟨0, 0, fun _ => none, dev⟩

def FileData.setPage {β : Type*} (s : FileData β) (k : ℕ) (page : Option (CachedPage β)) :
    FileData β :=
  { s with cache := update s.cache k page }

def CachedPage.copyIn {β : Type*} (inj : UInt8 → β) (page : CachedPage β) (offset : ℕ)
    (data : List UInt8) : CachedPage β where
  bytes i := if offset ≤ i ∧ i < offset + data.length then inj (data.getD (i - offset) 0)
    else page.bytes i
  dirty := true

section operations

variable {β : Type*} (inj : UInt8 → β) (fi : FfsInodeInfo) (s : FileData β)

/-- What `block_write_begin` finds or puts in the page of `pos`. A page in memory stays as it is. A
buffer that is flagged new is zeroed around the bytes to be written, a block that is written whole
is not read, and any other block is read from the device. -/
def blockWriteBegin (pos len : ℕ) : CachedPage β :=
  match s.cache (pos / 4096) with
  | some page => page
  | none =>
    let bh := ffsGetBlockPrep fi s.size (BitVec.ofNat 64 (pos / 4096))
    if bh.isNew = true ∨ len = 4096 then ⟨fun _ => inj 0, false⟩ else ⟨s.dev bh.pblk, false⟩

def ffsWriteBegin (pos len : ℕ) : FileData β :=
  { s.setPage (pos / 4096) (some (blockWriteBegin inj fi s pos len)) with
    size := if pos + len ≥ s.size then pos + len else s.size }

def genericWriteEnd (pos : ℕ) (data : List UInt8) : FileData β :=
  { s.setPage (pos / 4096) ((s.cache (pos / 4096)).map (·.copyIn inj (pos % 4096) data)) with
    iSize := max s.iSize (pos + data.length) }

/-- `ffs_readpage`: the block that `ffs_get_block_prep` maps is read, new or not. -/
def ffsReadpage (k : ℕ) : FileData β :=
  match s.cache k with
  | some _ => s
  | none => s.setPage k (some ⟨s.dev (ffsGetBlockPrep fi s.size (BitVec.ofNat 64 k)).pblk, false⟩)

/-- `ffs_writepage`: what is behind `i_size` is zeroed in the page, and the page is written to the
block that `ffs_get_block_prep` maps. -/
def ffsWritepage (k : ℕ) (page : CachedPage β) : FileData β :=
  let bytes := fun i => if k * 4096 + i < s.iSize then page.bytes i else inj 0
  let bh := ffsGetBlockPrep fi s.size (BitVec.ofNat 64 k)
  { s.setPage k (some ⟨bytes, false⟩) with
    dev := update s.dev bh.pblk bytes }

def fileStep (op : FileOp) : Option (FileData β) :=
  match op with
  | .write pos data =>
    if 0 < data.length ∧ pos % 4096 + data.length ≤ 4096 ∧ pos + data.length < 2 ^ 63 then
      some (genericWriteEnd inj (ffsWriteBegin inj fi s pos data.length) pos data)
    else none
  | .readpage k => if k * 4096 < s.iSize then some (ffsReadpage fi s k) else none
  | .writepage k => (s.cache k).bind fun page =>
    if page.dirty = true then some (ffsWritepage inj fi s k page) else none
  | .releasepage k => (s.cache k).bind fun page =>
    if page.dirty = true then none else some (s.setPage k none)

end operations

def dataBlock (fi : FfsInodeInfo) (k : ℕ) : BitVec 64 :=
  (ffsGetBlockPrep fi 0 (BitVec.ofNat 64 k)).pblk

/-- The byte that a read of position `p` returns: from the page in memory, or from the block that
`ffs_readpage` brings in. -/
def FileData.byteAt {β : Type*} (fi : FfsInodeInfo) (s : FileData β) (p : ℕ) : β :=
  match s.cache (p / 4096) with
  | some page => page.bytes (p % 4096)
  | none => s.dev (dataBlock fi (p / 4096)) (p % 4096)

def SameOutside (fi : FfsInodeInfo) (dev dev' : BitVec 64 → ℕ → UInt8) : Prop :=
  ∀ pblk, (∀ k, pblk ≠ dataBlock fi k) → dev pblk = dev' pblk

/-- After the operations, reads below `i_size` do not depend on what the data blocks of the slot
held when the file was created. -/
def Isolated (fi : FfsInodeInfo) (ops : List FileOp) : Prop :=
  ∀ dev dev', SameOutside fi dev dev' → ∃ s s',
    run (fileStep id fi) anyStep (newFile dev) ops = some s ∧
    run (fileStep id fi) anyStep (newFile dev') ops = some s' ∧
    s.iSize = s'.iSize ∧ ∀ p < s.iSize, s.byteAt fi p = s'.byteAt fi p

/-- Where a byte comes from: it stood in a block of the device when the file was created, or it is
one that the file has written, or a zero of its own. -/
inductive Traced
  | old (pblk : BitVec 64) (i : ℕ)
  | own (b : UInt8)
deriving DecidableEq

namespace Traced

def eval (dev : BitVec 64 → ℕ → UInt8) : Traced → UInt8
  | old pblk i => dev pblk i
  | own b => b

def isOwn : Traced → Bool
  | old _ _ => false
  | own _ => true

end Traced

def tracedFile : FileData Traced := newFile .old

/-- A write that starts behind `i_size` leaves no byte in between that the file has not put there:
it has done so before, or the write brings in a new block and zeroes it. -/
def GapOwn (fi : FfsInodeInfo) (t : FileData Traced) : FileOp → Prop
  | .write pos _ => ∀ p < pos, t.iSize ≤ p → (t.byteAt fi p).isOwn = true ∨
      p / 4096 = pos / 4096 ∧ (t.cache (pos / 4096)).isNone = true ∧
        (ffsGetBlockPrep fi t.size (BitVec.ofNat 64 (pos / 4096))).isNew = true
  | _ => True

instance (fi : FfsInodeInfo) (t : FileData Traced) : (op : FileOp) → Decidable (GapOwn fi t op)
  | .write pos _ => inferInstanceAs (Decidable (∀ p < pos, _))
  | .readpage _ => .isTrue trivial
  | .writepage _ => .isTrue trivial
  | .releasepage _ => .isTrue trivial

section map

variable {β γ : Type*} (f : β → γ) (inj : UInt8 → β) (fi : FfsInodeInfo) (s : FileData β)

def CachedPage.map (page : CachedPage β) : CachedPage γ := ⟨f ∘ page.bytes, page.dirty⟩

def FileData.map : FileData γ where
  size := s.size
  iSize := s.iSize
  cache k := (s.cache k).map (CachedPage.map f)
  dev pblk := f ∘ s.dev pblk

theorem map_cache (k : ℕ) : (s.map f).cache k = (s.cache k).map (CachedPage.map f) := rfl

theorem map_setPage (k : ℕ) (page : Option (CachedPage β)) :
    (s.map f).setPage k (page.map (CachedPage.map f)) = (s.setPage k page).map f := by
  refine FileData.ext rfl rfl ?_ rfl
  funext j
  dsimp only [FileData.setPage, FileData.map]
  rw [update_apply, update_apply]
  split_ifs <;> rfl

theorem byteAt_map (p : ℕ) : (s.map f).byteAt fi p = f (s.byteAt fi p) := by
  rw [FileData.byteAt, FileData.byteAt, map_cache]
  cases s.cache (p / 4096) <;> rfl

theorem blockWriteBegin_map (pos len : ℕ) :
    blockWriteBegin (f ∘ inj) fi (s.map f) pos len =
      (blockWriteBegin inj fi s pos len).map f := by
  rw [blockWriteBegin, blockWriteBegin, map_cache]
  cases s.cache (pos / 4096) with
  | some page => rfl
  | none =>
    dsimp only [Option.map_none, FileData.map]
    split_ifs <;> rfl

theorem ffsWriteBegin_map (pos len : ℕ) :
    ffsWriteBegin (f ∘ inj) fi (s.map f) pos len = (ffsWriteBegin inj fi s pos len).map f := by
  have hpage := map_setPage f s (pos / 4096) (some (blockWriteBegin inj fi s pos len))
  rw [Option.map_some, ← blockWriteBegin_map] at hpage
  rw [ffsWriteBegin, ffsWriteBegin, hpage]
  rfl

theorem copyIn_map (page : CachedPage β) (offset : ℕ) (data : List UInt8) :
    (page.map f).copyIn (f ∘ inj) offset data = (page.copyIn inj offset data).map f := by
  refine CachedPage.ext ?_ rfl
  funext i
  exact (apply_ite f _ _ _).symm

theorem genericWriteEnd_map (pos : ℕ) (data : List UInt8) :
    genericWriteEnd (f ∘ inj) (s.map f) pos data = (genericWriteEnd inj s pos data).map f := by
  have hcopy : ((s.map f).cache (pos / 4096)).map (·.copyIn (f ∘ inj) (pos % 4096) data) =
      ((s.cache (pos / 4096)).map (·.copyIn inj (pos % 4096) data)).map (CachedPage.map f) := by
    rw [map_cache, Option.map_map, Option.map_map]
    congr 1
    funext page
    exact copyIn_map f inj page _ data
  rw [genericWriteEnd, genericWriteEnd, hcopy, map_setPage]
  rfl

theorem ffsReadpage_map (k : ℕ) : ffsReadpage fi (s.map f) k = (ffsReadpage fi s k).map f := by
  rw [ffsReadpage, ffsReadpage, map_cache]
  cases s.cache k with
  | some page => rfl
  | none =>
    dsimp only [Option.map_none]
    rw [← map_setPage]
    rfl

theorem ffsWritepage_map (k : ℕ) (page : CachedPage β) :
    ffsWritepage (f ∘ inj) fi (s.map f) k (page.map f) =
      (ffsWritepage inj fi s k page).map f := by
  have hbytes : (fun i => if k * 4096 + i < (s.map f).iSize then (page.map f).bytes i
      else (f ∘ inj) 0) = f ∘ fun i => if k * 4096 + i < s.iSize then page.bytes i else inj 0 := by
    funext i
    exact (apply_ite f _ _ _).symm
  have hpage := map_setPage f s k
    (some ⟨fun i => if k * 4096 + i < s.iSize then page.bytes i else inj 0, false⟩)
  rw [Option.map_some, CachedPage.map] at hpage
  rw [ffsWritepage, ffsWritepage, hbytes, hpage]
  refine FileData.ext rfl rfl rfl ?_
  funext pblk
  dsimp only [FileData.map]
  rw [update_apply, update_apply]
  split_ifs <;> rfl

/-- Every operation commutes with a map of the bytes. -/
theorem fileStep_map (op : FileOp) :
    fileStep (f ∘ inj) fi (s.map f) op = (fileStep inj fi s op).map (FileData.map f) := by
  cases op with
  | write pos data =>
    rw [fileStep, fileStep, ffsWriteBegin_map, genericWriteEnd_map]
    split_ifs <;> rfl
  | readpage k =>
    rw [fileStep, fileStep, ffsReadpage_map]
    change (if k * 4096 < s.iSize then _ else _) = _
    split_ifs <;> rfl
  | writepage k =>
    rw [fileStep, fileStep, map_cache]
    cases s.cache k with
    | none => rfl
    | some page =>
      rw [Option.map_some, Option.bind_some, Option.bind_some, ffsWritepage_map]
      change (if page.dirty = true then _ else _) = _
      split_ifs <;> rfl
  | releasepage k =>
    rw [fileStep, fileStep, map_cache]
    cases s.cache k with
    | none => rfl
    | some page =>
      rw [Option.map_some, Option.bind_some, Option.bind_some]
      change (if page.dirty = true then _ else _) = _
      split_ifs
      · rfl
      · rw [Option.map_some, ← map_setPage]
        rfl

end map

section byteAt

variable {β : Type*} (inj : UInt8 → β) (fi : FfsInodeInfo) (s : FileData β)

theorem byteAt_setPage (k : ℕ) (page : Option (CachedPage β)) (p : ℕ) :
    (s.setPage k page).byteAt fi p =
      if p / 4096 = k then page.elim (s.dev (dataBlock fi k) (p % 4096)) (·.bytes (p % 4096))
      else s.byteAt fi p := by
  rw [FileData.byteAt, FileData.setPage]
  dsimp only
  split_ifs with hp
  · rw [hp, update_self]
    cases page <;> rfl
  · rw [update_of_ne hp]
    rfl

/-- Around the bytes to be written the page shows zeros of the file, or what reads saw there. -/
theorem blockWriteBegin_bytes {pos p : ℕ} (len : ℕ) (hp : p / 4096 = pos / 4096) :
    (blockWriteBegin inj fi s pos len).bytes (p % 4096) =
      if s.cache (pos / 4096) = none ∧
        ((ffsGetBlockPrep fi s.size (BitVec.ofNat 64 (pos / 4096))).isNew = true ∨ len = 4096)
      then inj 0 else s.byteAt fi p := by
  rw [blockWriteBegin, FileData.byteAt, hp]
  cases s.cache (pos / 4096) with
  | some page => rfl
  | none =>
    simp only [true_and]
    split_ifs <;> rfl

theorem write_byteAt {pos : ℕ} {data : List UInt8} (hlen : pos % 4096 + data.length ≤ 4096)
    (p : ℕ) :
    (genericWriteEnd inj (ffsWriteBegin inj fi s pos data.length) pos data).byteAt fi p =
      if pos ≤ p ∧ p < pos + data.length then inj (data.getD (p - pos) 0)
      else if p / 4096 = pos / 4096 then
        (blockWriteBegin inj fi s pos data.length).bytes (p % 4096)
      else s.byteAt fi p := by
  have hcache : (ffsWriteBegin inj fi s pos data.length).cache (pos / 4096) =
      some (blockWriteBegin inj fi s pos data.length) := update_self _ _ _
  refine (byteAt_setPage fi (ffsWriteBegin inj fi s pos data.length) _ _ p).trans ?_
  rw [hcache]
  by_cases hp : p / 4096 = pos / 4096
  · rw [if_pos hp, if_pos hp]
    change (if pos % 4096 ≤ p % 4096 ∧ p % 4096 < pos % 4096 + data.length then
      inj (data.getD (p % 4096 - pos % 4096) 0) else _) = _
    have hin : (pos % 4096 ≤ p % 4096 ∧ p % 4096 < pos % 4096 + data.length) ↔
        (pos ≤ p ∧ p < pos + data.length) := by omega
    have hsub : p % 4096 - pos % 4096 = p - pos := by omega
    simp only [hin, hsub]
  · have hout : ¬ (pos ≤ p ∧ p < pos + data.length) := by omega
    rw [if_neg hp, if_neg hp, if_neg hout]
    exact (byteAt_setPage fi s _ _ p).trans (if_neg hp)

theorem write_cache (pos : ℕ) (data : List UInt8) (k : ℕ) :
    (genericWriteEnd inj (ffsWriteBegin inj fi s pos data.length) pos data).cache k =
      if k = pos / 4096 then
        some ((blockWriteBegin inj fi s pos data.length).copyIn inj (pos % 4096) data)
      else s.cache k := by
  dsimp only [genericWriteEnd, ffsWriteBegin, FileData.setPage]
  rw [update_self, Option.map_some, update_apply]
  split_ifs with hk
  · rfl
  · exact update_of_ne hk _ _

def writtenBytes (k : ℕ) (page : CachedPage β) (i : ℕ) : β :=
  if k * 4096 + i < s.iSize then page.bytes i else inj 0

theorem writepage_dev (k : ℕ) (page : CachedPage β) :
    (ffsWritepage inj fi s k page).dev =
      update s.dev (dataBlock fi k) (writtenBytes inj s k page) := rfl

theorem writepage_cache (k : ℕ) (page : CachedPage β) :
    (ffsWritepage inj fi s k page).cache =
      update s.cache k (some ⟨writtenBytes inj s k page, false⟩) := rfl

theorem readpage_byteAt (k p : ℕ) : (ffsReadpage fi s k).byteAt fi p = s.byteAt fi p := by
  rw [ffsReadpage]
  cases hk : s.cache k with
  | some page => rfl
  | none =>
    dsimp only
    rw [byteAt_setPage]
    split_ifs with hp
    · rw [FileData.byteAt, hp, hk]
      rfl
    · rfl

end byteAt

def ReadsOwn (fi : FfsInodeInfo) (t : FileData Traced) : Prop :=
  ∀ p < t.iSize, (t.byteAt fi p).isOwn = true

/-- A clean page may go: what it holds of the file, the device holds of it too. Two blocks of a
large file can be one block of the device, so the page and the block need not be equal. -/
structure OwnInv (fi : FfsInodeInfo) (t : FileData Traced) : Prop where
  reads : ReadsOwn fi t
  clean : ∀ k page, t.cache k = some page → page.dirty = false → ∀ i < 4096,
    (page.bytes i).isOwn = true → (t.dev (dataBlock fi k) i).isOwn = true

variable {fi : FfsInodeInfo} {t t' : FileData Traced}

theorem ownInv_new (fi : FfsInodeInfo) : OwnInv fi tracedFile := by
  constructor
  · intro p hp
    exact absurd hp (Nat.not_lt_zero p)
  · intro k page hpage
    cases hpage

theorem byteAt_cached {k i : ℕ} {page : CachedPage Traced} (hk : t.cache k = some page)
    (hi : i < 4096) : t.byteAt fi (k * 4096 + i) = page.bytes i := by
  have hdiv : (k * 4096 + i) / 4096 = k := by omega
  have hmod : (k * 4096 + i) % 4096 = i := by omega
  rw [FileData.byteAt, hdiv, hmod, hk]

/-- A write keeps reads to the file's own bytes exactly when it leaves no foreign gap. -/
theorem OwnInv.write_iff (h : OwnInv fi t) {pos : ℕ} {data : List UInt8}
    (hstep : fileStep .own fi t (.write pos data) = some t') :
    ReadsOwn fi t' ↔ GapOwn fi t (.write pos data) := by
  simp only [fileStep] at hstep
  split_ifs at hstep with hg
  cases hstep
  obtain ⟨hpos, hpage, -⟩ := hg
  have hbyte := write_byteAt Traced.own fi t hpage
  have hbegin : ∀ p, p / 4096 = pos / 4096 → _ := fun p =>
    blockWriteBegin_bytes Traced.own fi t data.length
  constructor
  · intro hreads p hp hge
    have hown := hreads p (lt_of_lt_of_le (by omega) (le_max_right _ _))
    rw [hbyte, if_neg (by omega)] at hown
    by_cases hblk : p / 4096 = pos / 4096
    · rw [if_pos hblk, hbegin p hblk] at hown
      split_ifs at hown with hz
      · -- the byte in front of the data lies in the same block, so that it is not written whole
        obtain ⟨hnone, hnew⟩ := hz
        refine .inr ⟨hblk, by rw [hnone]; rfl, hnew.resolve_right ?_⟩
        omega
      · exact .inl hown
    · rw [if_neg hblk] at hown
      exact .inl hown
  · intro hgap p hp
    rw [hbyte]
    have hlt : p < t.iSize ∨ p < pos + data.length := lt_max_iff.mp hp
    by_cases hin : pos ≤ p ∧ p < pos + data.length
    · rw [if_pos hin]
      rfl
    · rw [if_neg hin]
      -- the byte was readable before, or it is in the gap
      have hcase : (t.byteAt fi p).isOwn = true ∨ p / 4096 = pos / 4096 ∧
          (t.cache (pos / 4096)).isNone = true ∧
          (ffsGetBlockPrep fi t.size (BitVec.ofNat 64 (pos / 4096))).isNew = true := by
        by_cases hold : p < t.iSize
        · exact .inl (h.reads p hold)
        · exact hgap p (by omega) (by omega)
      by_cases hblk : p / 4096 = pos / 4096
      · rw [if_pos hblk, hbegin p hblk]
        split_ifs with hz
        · rfl
        · refine hcase.resolve_right fun hnew => hz ⟨?_, .inl hnew.2.2⟩
          exact Option.isNone_iff_eq_none.mp hnew.2.1
      · rw [if_neg hblk]
        exact hcase.resolve_right fun hnew => hblk hnew.1

theorem OwnInv.write (h : OwnInv fi t) {pos : ℕ} {data : List UInt8}
    (hgap : GapOwn fi t (.write pos data))
    (hstep : fileStep .own fi t (.write pos data) = some t') : OwnInv fi t' := by
  refine ⟨(h.write_iff hstep).mpr hgap, ?_⟩
  simp only [fileStep] at hstep
  split_ifs at hstep
  cases hstep
  intro k page hpage hclean
  rw [write_cache] at hpage
  split_ifs at hpage with hk
  · cases hpage
    cases hclean
  · exact h.clean k page hpage hclean

theorem OwnInv.readpage (h : OwnInv fi t) {k : ℕ}
    (hstep : fileStep .own fi t (.readpage k) = some t') : OwnInv fi t' := by
  simp only [fileStep] at hstep
  split_ifs at hstep
  cases hstep
  have hsize : (ffsReadpage fi t k).iSize = t.iSize := by
    rw [ffsReadpage]
    cases t.cache k <;> rfl
  refine ⟨fun p hp => ?_, ?_⟩
  · rw [readpage_byteAt]
    exact h.reads p (hsize ▸ hp)
  · rw [ffsReadpage]
    cases hk : t.cache k with
    | some page => exact h.clean
    | none =>
      intro j page hpage hclean i hi hown
      dsimp only [FileData.setPage] at hpage
      rw [update_apply] at hpage
      split_ifs at hpage with hj
      · cases hpage
        rw [hj]
        exact hown
      · exact h.clean j page hpage hclean i hi hown

/-- A page that is written back brings own bytes into its block, with zeros behind `i_size`. -/
theorem OwnInv.writepage (h : OwnInv fi t) {k : ℕ}
    (hstep : fileStep .own fi t (.writepage k) = some t') : OwnInv fi t' := by
  simp only [fileStep] at hstep
  obtain ⟨page, hk, hstep⟩ := Option.bind_eq_some_iff.mp hstep
  split_ifs at hstep
  cases hstep
  have hbytes : ∀ i < 4096, (writtenBytes .own t k page i).isOwn = true := by
    intro i hi
    rw [writtenBytes]
    split_ifs with hlt
    · rw [← byteAt_cached hk hi]
      exact h.reads _ hlt
    · rfl
  have hdev : ∀ j i, i < 4096 → (t.dev (dataBlock fi j) i).isOwn = true →
      ((ffsWritepage .own fi t k page).dev (dataBlock fi j) i).isOwn = true := by
    intro j i hi hown
    rw [writepage_dev, update_apply]
    split_ifs
    · exact hbytes i hi
    · exact hown
  constructor
  · intro p hp
    have hmod : p % 4096 < 4096 := Nat.mod_lt _ (by norm_num)
    have hown := h.reads p hp
    rw [FileData.byteAt] at hown ⊢
    rw [writepage_cache, update_apply]
    split_ifs with hblk
    · exact hbytes _ hmod
    · cases hj : t.cache (p / 4096) with
      | some pg =>
        rw [hj] at hown
        exact hown
      | none =>
        rw [hj] at hown
        exact hdev _ _ hmod hown
  · intro j pg hpg hclean i hi hown
    rw [writepage_cache, update_apply] at hpg
    split_ifs at hpg with hj
    · rw [writepage_dev, hj, update_self]
      exact hbytes i hi
    · exact hdev j i hi (h.clean j pg hpg hclean i hi hown)

theorem OwnInv.releasepage (h : OwnInv fi t) {k : ℕ}
    (hstep : fileStep .own fi t (.releasepage k) = some t') : OwnInv fi t' := by
  simp only [fileStep] at hstep
  obtain ⟨page, hk, hstep⟩ := Option.bind_eq_some_iff.mp hstep
  split_ifs at hstep with hdirty
  cases hstep
  constructor
  · intro p hp
    have hown := h.reads p hp
    rw [byteAt_setPage]
    split_ifs with hblk
    · rw [FileData.byteAt, hblk, hk] at hown
      exact h.clean k page hk (Bool.eq_false_iff.mpr hdirty) _ (Nat.mod_lt _ (by norm_num)) hown
    · exact hown
  · intro j pg hpg hclean
    dsimp only [FileData.setPage] at hpg
    rw [update_apply] at hpg
    split_ifs at hpg with hj
    exact h.clean j pg hpg hclean

theorem OwnInv.readsOwn_iff (h : OwnInv fi t) {op : FileOp}
    (hstep : fileStep .own fi t op = some t') : ReadsOwn fi t' ↔ GapOwn fi t op := by
  cases op with
  | write pos data => exact h.write_iff hstep
  | readpage k => exact iff_of_true (h.readpage hstep).reads trivial
  | writepage k => exact iff_of_true (h.writepage hstep).reads trivial
  | releasepage k => exact iff_of_true (h.releasepage hstep).reads trivial

theorem OwnInv.step (h : OwnInv fi t) {op : FileOp} (hgap : GapOwn fi t op)
    (hstep : fileStep .own fi t op = some t') : OwnInv fi t' := by
  cases op with
  | write pos data => exact h.write hgap hstep
  | readpage k => exact h.readpage hstep
  | writepage k => exact h.writepage hstep
  | releasepage k => exact h.releasepage hstep

structure Holds {β : Type*} (fi : FfsInodeInfo) (P : β → Prop) (s : FileData β) : Prop where
  cache : ∀ k page, s.cache k = some page → ∀ i, P (page.bytes i)
  dev : ∀ k i, P (s.dev (dataBlock fi k) i)

section holds

variable {β : Type*} {P : β → Prop} {s s' : FileData β} {inj : UInt8 → β}

theorem Holds.setPage (h : Holds fi P s) {k : ℕ} {page : Option (CachedPage β)}
    (hpage : ∀ pg, page = some pg → ∀ i, P (pg.bytes i)) : Holds fi P (s.setPage k page) := by
  refine ⟨fun j pg hpg => ?_, h.dev⟩
  dsimp only [FileData.setPage] at hpg
  rw [update_apply] at hpg
  split_ifs at hpg
  · exact hpage pg hpg
  · exact h.cache j pg hpg

theorem Holds.byteAt (h : Holds fi P s) (p : ℕ) : P (s.byteAt fi p) := by
  rw [FileData.byteAt]
  cases hk : s.cache (p / 4096) with
  | some page => exact h.cache _ page hk _
  | none => exact h.dev _ _

theorem Holds.blockWriteBegin (h : Holds fi P s) (hinj : ∀ b, P (inj b)) (pos len i : ℕ) :
    P ((blockWriteBegin inj fi s pos len).bytes i) := by
  rw [FlatFS.blockWriteBegin]
  cases hk : s.cache (pos / 4096) with
  | some page => exact h.cache _ page hk i
  | none =>
    dsimp only
    split_ifs
    · exact hinj 0
    · exact h.dev _ i

theorem Holds.step (h : Holds fi P s) (hinj : ∀ b, P (inj b)) {op : FileOp}
    (hstep : fileStep inj fi s op = some s') : Holds fi P s' := by
  cases op with
  | write pos data =>
    simp only [fileStep] at hstep
    split_ifs at hstep
    cases hstep
    refine ⟨fun k page hpage i => ?_, h.dev⟩
    rw [write_cache] at hpage
    split_ifs at hpage
    · cases hpage
      dsimp only [CachedPage.copyIn]
      split_ifs
      · exact hinj _
      · exact h.blockWriteBegin hinj _ _ i
    · exact h.cache k page hpage i
  | readpage k =>
    simp only [fileStep] at hstep
    split_ifs at hstep
    cases hstep
    rw [ffsReadpage]
    cases s.cache k with
    | some page => exact h
    | none =>
      refine h.setPage fun pg hpg i => ?_
      cases hpg
      exact h.dev k i
  | writepage k =>
    simp only [fileStep] at hstep
    obtain ⟨page, hk, hstep⟩ := Option.bind_eq_some_iff.mp hstep
    split_ifs at hstep
    cases hstep
    have hbytes : ∀ i, P (writtenBytes inj s k page i) := by
      intro i
      rw [writtenBytes]
      split_ifs
      · exact h.cache k page hk i
      · exact hinj 0
    refine ⟨fun j pg hpg => ?_, fun j i => ?_⟩
    · rw [writepage_cache, update_apply] at hpg
      split_ifs at hpg
      · cases hpg
        exact hbytes
      · exact h.cache j pg hpg
    · rw [writepage_dev, update_apply]
      split_ifs
      · exact hbytes i
      · exact h.dev j i
  | releasepage k =>
    simp only [fileStep] at hstep
    obtain ⟨page, -, hstep⟩ := Option.bind_eq_some_iff.mp hstep
    split_ifs at hstep
    cases hstep
    refine h.setPage fun pg hpg => ?_
    cases hpg

end holds

def FromSlot (fi : FfsInodeInfo) (x : Traced) : Prop :=
  ∀ pblk i, x = .old pblk i → ∃ k, pblk = dataBlock fi k

theorem fromSlot_new (fi : FfsInodeInfo) : Holds fi (FromSlot fi) tracedFile := by
  constructor
  · intro k page hpage
    cases hpage
  · intro k i pblk j he
    cases he
    exact ⟨k, rfl⟩

section runs

variable {ok : FileData Traced → FileOp → Prop} [∀ t op, Decidable (ok t op)] {ops : List FileOp}

theorem sameOutside_update (dev : BitVec 64 → ℕ → UInt8) (k : ℕ) (block : ℕ → UInt8) :
    SameOutside fi dev (update dev (dataBlock fi k) block) := by
  intro pblk hne
  rw [update_of_ne (hne k)]

/-- On every device the code runs as it does on traced bytes. -/
theorem run_eval (h : run (fileStep .own fi) ok tracedFile ops = some t)
    (dev : BitVec 64 → ℕ → UInt8) :
    run (fileStep id fi) anyStep (newFile dev) ops = some (t.map (Traced.eval dev)) :=
  run_map (FileData.map (Traced.eval dev)) (fun s op => fileStep_map (Traced.eval dev) .own fi s op)
    h

/-- Reads depend on what was in the slot exactly when one of them sees a byte from there. -/
theorem isolated_iff (h : run (fileStep .own fi) ok tracedFile ops = some t)
    (hslot : Holds fi (FromSlot fi) t) : Isolated fi ops ↔ ReadsOwn fi t := by
  constructor
  · intro hiso p hp
    cases hbyte : t.byteAt fi p with
    | own b => rfl
    | old pblk i =>
      -- two devices that differ in this one block
      obtain ⟨k, hk⟩ := hslot.byteAt p pblk i hbyte
      obtain ⟨s, s', hs, hs', -, hread⟩ := hiso _ _ (sameOutside_update (fun _ _ => 0) k fun _ => 1)
      obtain rfl := Option.some.inj ((run_eval h _).symm.trans hs)
      obtain rfl := Option.some.inj ((run_eval h _).symm.trans hs')
      have hdiff := hread p hp
      rw [byteAt_map, byteAt_map, hbyte, hk, Traced.eval, Traced.eval, update_self] at hdiff
      exact absurd hdiff (by decide)
  · intro hown dev dev' _
    refine ⟨_, _, run_eval h dev, run_eval h dev', rfl, fun p hp => ?_⟩
    rw [byteAt_map, byteAt_map]
    have hp' := hown p hp
    cases hbyte : t.byteAt fi p with
    | own b => rfl
    | old pblk i =>
      rw [hbyte] at hp'
      cases hp'

end runs

/-- In every run in which no write leaves a gap with bytes that the file has not put there, reads
are isolated from what the slot held before; and a further operation keeps that exactly when it
leaves no such gap. -/
theorem isolation_run {fi : FfsInodeInfo} {ops : List FileOp} {t : FileData Traced}
    (h : run (fileStep .own fi) (GapOwn fi) tracedFile ops = some t) :
    Isolated fi ops ∧ ∀ op t', fileStep .own fi t op = some t' →
      (Isolated fi (ops ++ [op]) ↔ GapOwn fi t op) := by
  obtain ⟨hinv, hslot⟩ : OwnInv fi t ∧ Holds fi (FromSlot fi) t := by
    refine (Reach.of_run h).invariant (fun t => OwnInv fi t ∧ Holds fi (FromSlot fi) t)
      ⟨ownInv_new fi, fromSlot_new fi⟩ ?_
    intro t op t' hi hgap hstep
    exact ⟨hi.1.step hgap hstep, hi.2.step (fun b pblk i he => by cases he) hstep⟩
  refine ⟨(isolated_iff h hslot).mpr hinv.reads, fun op t' hstep => ?_⟩
  rw [isolated_iff (run_concat h hstep) (hslot.step (fun b pblk i he => by cases he) hstep)]
  exact hinv.readsOwn_iff hstep

/-- The first file of the root in bucket 1123: two writes into its first block with a gap between
them, and one more behind the page that was written back and given up. -/
theorem isolation_run_one_block : ∃ t, run (fileStep .own (fileAt 2 1123 0 0))
    (GapOwn (fileAt 2 1123 0 0)) tracedFile [.write 0 [1], .write 10 [2], .writepage 0,
      .releasepage 0, .write 20 [3]] = some t ∧ t.iSize = 21 ∧
    Isolated (fileAt 2 1123 0 0) [.write 0 [1], .write 10 [2], .writepage 0, .releasepage 0,
      .write 20 [3]] := by
  obtain ⟨t, hrun, hsize⟩ := exists_of_check
    (r := run (fileStep .own (fileAt 2 1123 0 0)) (GapOwn (fileAt 2 1123 0 0)) tracedFile
      [.write 0 [1], .write 10 [2], .writepage 0, .releasepage 0, .write 20 [3]])
    (p := fun t => t.iSize = 21) (by decide +kernel)
  exact ⟨t, hrun, hsize, (isolation_run hrun).1⟩

/-- After two bytes at the front, a byte at offset 5 of block 1 shows what block 1 held before:
the block number 1 is less than the size 2, and the block is not taken for a new one. -/
theorem gap_shows_old_data : ∃ s s',
    run (fileStep id (fileAt 2 1123 0 0)) anyStep (newFile fun _ _ => 0)
      [.write 0 [1, 1], .write 4101 [2]] = some s ∧
    run (fileStep id (fileAt 2 1123 0 0)) anyStep
      (newFile (update (fun _ _ => 0) (dataBlock (fileAt 2 1123 0 0) 1) fun _ => 1))
      [.write 0 [1, 1], .write 4101 [2]] = some s' ∧
    s.iSize = 4102 ∧ s.byteAt (fileAt 2 1123 0 0) 4096 = 0 ∧
    s'.byteAt (fileAt 2 1123 0 0) 4096 = 1 ∧
    ¬ Isolated (fileAt 2 1123 0 0) [.write 0 [1, 1], .write 4101 [2]] := by
  obtain ⟨s, hs, hsize, h0⟩ := exists_of_check
    (r := run (fileStep id (fileAt 2 1123 0 0)) anyStep (newFile fun _ _ => 0)
      [.write 0 [1, 1], .write 4101 [2]])
    (p := fun s => s.iSize = 4102 ∧ s.byteAt (fileAt 2 1123 0 0) 4096 = 0) (by decide +kernel)
  obtain ⟨s', hs', h1⟩ := exists_of_check
    (r := run (fileStep id (fileAt 2 1123 0 0)) anyStep
      (newFile (update (fun _ _ => 0) (dataBlock (fileAt 2 1123 0 0) 1) fun _ => 1))
      [.write 0 [1, 1], .write 4101 [2]])
    (p := fun s => s.byteAt (fileAt 2 1123 0 0) 4096 = 1) (by decide +kernel)
  refine ⟨s, s', hs, hs', hsize, h0, h1, fun hiso => ?_⟩
  obtain ⟨u, u', hu, hu', -, hread⟩ := hiso _ _ (sameOutside_update (fun _ _ => 0) 1 fun _ => 1)
  obtain rfl := Option.some.inj (hs.symm.trans hu)
  obtain rfl := Option.some.inj (hs'.symm.trans hu')
  have hsee := hread 4096 (by omega)
  rw [h0, h1] at hsee
  exact absurd hsee (by decide)

end FlatFS
