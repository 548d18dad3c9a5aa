import FlatFS.FileData
import FlatFS.Lib.WriteBack

namespace FlatFS
open Lib Function

/-- The files of a mount over one device: of each the `size` of its inode info, its `i_size` and its
pages in memory. -/
@[ext]
structure Files (ι β : Type*) where
  size : ι → ℕ
  iSize : ι → ℕ
  cache : ι → ℕ → Option (CachedPage β)
  dev : BitVec 64 → ℕ → β

def Files.file {ι β : Type*} (w : Files ι β) (i : ι) : FileData β :=
  ⟨w.size i, w.iSize i, w.cache i, w.dev⟩

section steps
variable {ι β : Type*} [DecidableEq ι]

def Files.putFile (w : Files ι β) (i : ι) (s : FileData β) : Files ι β :=
  ⟨update w.size i s.size, update w.iSize i s.iSize, update w.cache i s.cache, s.dev⟩

def filesStep (inj : UInt8 → β) (fi : ι → FfsInodeInfo) (w : Files ι β) (a : ι × FileOp) :
    Option (Files ι β) :=
  (fileStep inj (fi a.1) (w.file a.1) a.2).map (w.putFile a.1)

end steps

/-- Writes end below four gigabytes, where the data blocks of a file lie apart. -/
def Below4G {ι β : Type*} (_ : Files ι β) : ι × FileOp → Prop
  | (_, .write pos data) => pos + data.length ≤ 2 ^ 32
  | _ => True

instance {ι β : Type*} (w : Files ι β) : (a : ι × FileOp) → Decidable (Below4G w a)
  | (_, .write pos data) => inferInstanceAs (Decidable (pos + data.length ≤ 2 ^ 32))
  | (_, .readpage _) => .isTrue trivial
  | (_, .writepage _) => .isTrue trivial
  | (_, .releasepage _) => .isTrue trivial

structure ByteFile where
  length : ℕ
  bytes : ℕ → Option UInt8

namespace ByteFile

def empty : ByteFile := ⟨0, fun _ => none⟩

def write (f : ByteFile) (pos : ℕ) (data : List UInt8) : ByteFile where
  length := max f.length (pos + data.length)
  bytes p := if pos ≤ p ∧ p < pos + data.length then some (data.getD (p - pos) 0) else f.bytes p

def op (f : ByteFile) : FileOp → ByteFile
  | .write pos data => f.write pos data
  | _ => f

end ByteFile

def place {ι : Type*} (fi : ι → FfsInodeInfo) (k : ι × ℕ) : BitVec 64 := dataBlock (fi k.1) k.2

def lowBlocks (ι : Type*) : Set (ι × ℕ) := {k | k.2 < 2 ^ 20}

section store
variable {ι β : Type*}

def Files.store (w : Files ι β) : WriteBack (ι × ℕ) (BitVec 64) (ℕ → β) where
  cache k := (w.cache k.1 k.2).map fun page => (page.bytes, page.dirty)
  dev := w.dev

theorem byteAt_view (fi : ι → FfsInodeInfo) (w : Files ι β) (i : ι) (p : ℕ) :
    (w.file i).byteAt (fi i) p = w.store.view (place fi) (i, p / 4096) (p % 4096) := by
  rw [FileData.byteAt, WriteBack.view]
  dsimp only [Files.file, Files.store]
  cases w.cache i (p / 4096) <;> rfl

variable [DecidableEq ι]

theorem store_putFile {w : Files ι β} {i : ι} {s : FileData β} {k : ℕ}
    {page : Option (CachedPage β)} (hcache : s.cache = update (w.cache i) k page) :
    (w.putFile i s).store = WriteBack.put { w.store with dev := s.dev } (i, k)
      (page.map fun pg => (pg.bytes, pg.dirty)) := by
  refine WriteBack.ext ?_ rfl
  funext x
  obtain ⟨j, l⟩ := x
  show (update w.cache i s.cache j l).map _ = update w.store.cache (i, k) _ (j, l)
  by_cases hj : j = i
  · subst hj
    rw [update_self, hcache]
    by_cases hl : l = k
    · rw [hl, update_self, update_self]
    · have hne : (j, l) ≠ (j, k) := fun he => hl (Prod.mk.inj he).2
      rw [update_of_ne hl, update_of_ne hne]
      rfl
  · have hne : (j, l) ≠ (i, k) := fun he => hj (Prod.mk.inj he).1
    rw [update_of_ne hj, update_of_ne hne]
    rfl

variable (inj : UInt8 → β) (fi : ι → FfsInodeInfo) (w : Files ι β) (i : ι)

def pageAfterWrite (pos : ℕ) (data : List UInt8) : ℕ → β :=
  ((blockWriteBegin inj (fi i) (w.file i) pos data.length).copyIn inj (pos % 4096) data).bytes

theorem store_write (pos : ℕ) (data : List UInt8) :
    (w.putFile i (genericWriteEnd inj (ffsWriteBegin inj (fi i) (w.file i) pos data.length)
      pos data)).store = w.store.write (i, pos / 4096) (pageAfterWrite inj fi w i pos data) := by
  have hcache : (genericWriteEnd inj (ffsWriteBegin inj (fi i) (w.file i) pos data.length)
      pos data).cache = update (w.cache i) (pos / 4096)
        (some ((blockWriteBegin inj (fi i) (w.file i) pos data.length).copyIn inj (pos % 4096)
          data)) := by
    funext k
    rw [write_cache, update_apply]
    rfl
  exact store_putFile hcache

theorem store_readpage {k : ℕ} (h : w.cache i k = none) :
    (w.putFile i (ffsReadpage (fi i) (w.file i) k)).store = w.store.load (place fi) (i, k) := by
  have hs : ffsReadpage (fi i) (w.file i) k = (w.file i).setPage k
      (some ⟨w.dev (dataBlock (fi i) k), false⟩) := by
    rw [ffsReadpage, show (w.file i).cache k = none from h]
    rfl
  have hcache : ((w.file i).setPage k (some ⟨w.dev (dataBlock (fi i) k), false⟩)).cache =
      update (w.cache i) k (some ⟨w.dev (dataBlock (fi i) k), false⟩) := rfl
  rw [hs]
  exact store_putFile hcache

theorem store_writepage (k : ℕ) (page : CachedPage β) :
    (w.putFile i (ffsWritepage inj (fi i) (w.file i) k page)).store =
      w.store.flush (place fi) (i, k) (writtenBytes inj (w.file i) k page) :=
  store_putFile (writepage_cache inj (fi i) (w.file i) k page)

theorem store_releasepage (k : ℕ) :
    (w.putFile i ((w.file i).setPage k none)).store = w.store.drop (i, k) := by
  have hcache : ((w.file i).setPage k none).cache = update (w.cache i) k none := rfl
  exact store_putFile hcache

end store

section inv
variable {ι β : Type*}

/-- The byte a read returns where `b` was written; where nothing was written it is a zero, or what
the device held there at first. -/
def ByteOk (inj : UInt8 → β) (old : β) : Option UInt8 → β → Prop
  | some b, x => x = inj b
  | none, x => x = inj 0 ∨ x = old

def oldByte (fi : ι → FfsInodeInfo) (dev : BitVec 64 → ℕ → β) (i : ι) (p : ℕ) : β :=
  dev (dataBlock (fi i) (p / 4096)) (p % 4096)

/-- The files over the device `dev` hold the contents `f`. -/
structure FilesInv (inj : UInt8 → β) (fi : ι → FfsInodeInfo) (dev : BitVec 64 → ℕ → β)
    (f : ι → ByteFile) (w : Files ι β) : Prop where
  iSize : ∀ i, w.iSize i = (f i).length
  size : ∀ i, w.size i = (f i).length
  small : ∀ i, (f i).length ≤ 2 ^ 32
  cached : ∀ i k, w.cache i k ≠ none → k < 2 ^ 20
  inside : ∀ i p, (f i).bytes p ≠ none → p < (f i).length
  reads : ∀ i p, p < 2 ^ 32 →
    ByteOk inj (oldByte fi dev i p) ((f i).bytes p) ((w.file i).byteAt (fi i) p)
  coherent : w.store.Coherent (place fi) (lowBlocks ι)
  outside : ∀ pblk, (∀ k ∈ lowBlocks ι, pblk ≠ place fi k) → w.dev pblk = dev pblk

variable [DecidableEq ι] {inj : UInt8 → β} {fi : ι → FfsInodeInfo} {dev : BitVec 64 → ℕ → β}
  {f : ι → ByteFile} {w : Files ι β} {i : ι}

theorem file_putFile_self (w : Files ι β) (i : ι) (s : FileData β) :
    (w.putFile i s).file i = s := by
  refine FileData.ext ?_ ?_ ?_ rfl <;> exact update_self _ _ _

theorem byteAt_putFile_of_ne {j : ι} (h : j ≠ i) {s : FileData β} (hdev : s.dev = w.dev) (p : ℕ) :
    ((w.putFile i s).file j).byteAt (fi j) p = (w.file j).byteAt (fi j) p := by
  have hf : (w.putFile i s).file j = w.file j :=
    FileData.ext (update_of_ne h _ _) (update_of_ne h _ _) (update_of_ne h _ _) hdev
  rw [hf]

theorem cache_putFile_of_ne {j : ι} (h : j ≠ i) (s : FileData β) :
    (w.putFile i s).cache j = w.cache j := update_of_ne h _ _

omit [DecidableEq ι] in
/-- A block that is taken for a new one has no written byte in it. -/
theorem FilesInv.new_block (hi : FilesInv inj fi dev f w) {k : ℕ}
    (hnew : (ffsGetBlockPrep (fi i) (w.size i) (BitVec.ofNat 64 k)).isNew = true) {q : ℕ}
    (hq : q / 4096 = k) : (f i).bytes q = none := by
  by_contra hne
  have hlt := hi.inside i q hne
  have hsmall := hi.small i
  have hle : BitVec.ofInt 64 (w.size i : ℤ) ≤ BitVec.ofNat 64 k := of_decide_eq_true hnew
  rw [BitVec.ofInt_natCast, BitVec.le_def, BitVec.toNat_ofNat, BitVec.toNat_ofNat, hi.size i] at hle
  omega

omit [DecidableEq ι] in
theorem FilesInv.reads_written (hi : FilesInv inj fi dev f w) {pos : ℕ} {data : List UInt8}
    (hpage : pos % 4096 + data.length ≤ 4096) {p : ℕ} (hp : p < 2 ^ 32) :
    ByteOk inj (oldByte fi dev i p) (((f i).write pos data).bytes p)
      ((genericWriteEnd inj (ffsWriteBegin inj (fi i) (w.file i) pos data.length)
        pos data).byteAt (fi i) p) := by
  rw [write_byteAt inj (fi i) (w.file i) hpage]
  dsimp only [ByteFile.write]
  by_cases hin : pos ≤ p ∧ p < pos + data.length
  · rw [if_pos hin, if_pos hin]
    rfl
  · rw [if_neg hin, if_neg hin]
    by_cases hblk : p / 4096 = pos / 4096
    · rw [if_pos hblk, blockWriteBegin_bytes inj (fi i) (w.file i) data.length hblk]
      split_ifs with hz
      · -- the block was not written before: it is new, or all of it is written now
        have hnone : (f i).bytes p = none := by
          rcases hz.2 with hnew | hwhole
          · exact hi.new_block hnew hblk
          · omega
        rw [hnone]
        exact .inl rfl
      · exact hi.reads i p hp
    · rw [if_neg hblk]
      exact hi.reads i p hp

theorem FilesInv.write (hi : FilesInv inj fi dev f w) {pos : ℕ} {data : List UInt8}
    (hpos : 0 < data.length) (hpage : pos % 4096 + data.length ≤ 4096)
    (hend : pos + data.length ≤ 2 ^ 32) :
    FilesInv inj fi dev (update f i ((f i).write pos data))
      (w.putFile i (genericWriteEnd inj (ffsWriteBegin inj (fi i) (w.file i) pos data.length)
        pos data)) := by
  have hlen : ∀ j, (update f i ((f i).write pos data) j).length =
      update (fun j => (f j).length) i (max (f i).length (pos + data.length)) j := by
    intro j
    rw [update_apply, update_apply]
    split_ifs <;> rfl
  constructor
  case iSize =>
    intro j
    rw [hlen, ← hi.iSize i, ← funext hi.iSize]
    rfl
  case size =>
    intro j
    have hs : (if pos + data.length ≥ w.size i then pos + data.length else w.size i) =
        max (f i).length (pos + data.length) := by
      rw [hi.size i]
      split_ifs <;> omega
    rw [hlen, ← hs, ← funext hi.size]
    rfl
  case small =>
    intro j
    rw [hlen, update_apply]
    split_ifs
    · exact max_le (hi.small i) hend
    · exact hi.small j
  case cached =>
    intro j k h
    by_cases hj : j = i
    · subst hj
      have hc : (w.putFile j (genericWriteEnd inj (ffsWriteBegin inj (fi j) (w.file j) pos
          data.length) pos data)).cache j = _ := update_self j _ _
      rw [hc, write_cache] at h
      split_ifs at h with hk
      · omega
      · exact hi.cached j k h
    · rw [cache_putFile_of_ne hj] at h
      exact hi.cached j k h
  case inside =>
    intro j p h
    rw [hlen]
    by_cases hj : j = i
    · subst hj
      rw [update_self] at h ⊢
      dsimp only [ByteFile.write] at h
      split_ifs at h with hin
      · exact lt_max_of_lt_right hin.2
      · exact lt_max_of_lt_left (hi.inside j p h)
    · rw [update_of_ne hj] at h ⊢
      exact hi.inside j p h
  case reads =>
    intro j p hp
    by_cases hj : j = i
    · subst hj
      rw [file_putFile_self, update_self]
      exact hi.reads_written hpage hp
    · rw [byteAt_putFile_of_ne hj rfl, update_of_ne hj]
      exact hi.reads j p hp
  case coherent =>
    rw [store_write]
    exact hi.coherent.write
  case outside => exact hi.outside

/-- An operation that is no write: sizes stay, pages below the limit come or go, and no written
byte reads otherwise. -/
theorem FilesInv.same_contents (hi : FilesInv inj fi dev f w) {s : FileData β}
    (hsize : s.size = w.size i) (hiSize : s.iSize = w.iSize i)
    (hcached : ∀ k, s.cache k ≠ none → k < 2 ^ 20)
    (hreads : ∀ j p, p < 2 ^ 32 → ByteOk inj (oldByte fi dev j p) ((f j).bytes p)
      ((w.putFile i s).store.view (place fi) (j, p / 4096) (p % 4096)))
    (hcoherent : (w.putFile i s).store.Coherent (place fi) (lowBlocks ι))
    (houtside : ∀ pblk, (∀ k ∈ lowBlocks ι, pblk ≠ place fi k) → s.dev pblk = dev pblk) :
    FilesInv inj fi dev f (w.putFile i s) := by
  have hs : (w.putFile i s).size = w.size := by
    rw [Files.putFile, hsize, update_eq_self]
  have hs' : (w.putFile i s).iSize = w.iSize := by
    rw [Files.putFile, hiSize, update_eq_self]
  refine ⟨fun j => ?_, fun j => ?_, hi.small, fun j k h => ?_, hi.inside, fun j p hp => ?_,
    hcoherent, houtside⟩
  · rw [hs']
    exact hi.iSize j
  · rw [hs]
    exact hi.size j
  · by_cases hj : j = i
    · subst hj
      apply hcached k
      rwa [show (w.putFile j s).cache j = s.cache from update_self _ _ _] at h
    · rw [cache_putFile_of_ne hj] at h
      exact hi.cached j k h
  · rw [byteAt_view]
    exact hreads j p hp

theorem FilesInv.readpage (hi : FilesInv inj fi dev f w) {k : ℕ} (hk : k * 4096 < w.iSize i) :
    FilesInv inj fi dev f (w.putFile i (ffsReadpage (fi i) (w.file i) k)) := by
  cases hc : w.cache i k with
  | some page =>
    have hs : w.putFile i (ffsReadpage (fi i) (w.file i) k) = w := by
      rw [ffsReadpage, show (w.file i).cache k = some page from hc]
      refine Files.ext ?_ ?_ ?_ rfl <;> exact update_eq_self _ _
    rw [hs]
    exact hi
  | none =>
    have hstore := store_readpage fi w i hc
    have hempty : w.store.cache (i, k) = none := by
      show (w.cache i k).map _ = none
      rw [hc, Option.map_none]
    have hview : (w.store.load (place fi) (i, k)).view (place fi) = w.store.view (place fi) :=
      WriteBack.view_load hempty
    rw [← hstore] at hview
    have hcoherent := hi.coherent.load (k := (i, k))
    rw [← hstore] at hcoherent
    rw [ffsReadpage, show (w.file i).cache k = none from hc] at hview hcoherent ⊢
    refine hi.same_contents rfl rfl (fun l h => ?_) (fun j p hp => ?_) hcoherent hi.outside
    · by_cases hl : l = k
      · have hsmall := hi.small i
        rw [hi.iSize i] at hk
        omega
      · dsimp only [FileData.setPage] at h
        rw [update_of_ne hl] at h
        exact hi.cached i l h
    · rw [hview, ← byteAt_view]
      exact hi.reads j p hp

/-- A page that is written back keeps what is below the length of the file, and zeroes what is
behind it, where nothing was written. -/
theorem FilesInv.writepage (hi : FilesInv inj fi dev f w)
    (hloc : Set.InjOn (place fi) (lowBlocks ι)) {k : ℕ} {page : CachedPage β}
    (hc : w.cache i k = some page) :
    FilesInv inj fi dev f (w.putFile i (ffsWritepage inj (fi i) (w.file i) k page)) := by
  have hk : (i, k) ∈ lowBlocks ι := hi.cached i k (by rw [hc]; exact Option.some_ne_none page)
  have hstore := store_writepage inj fi w i k page
  refine hi.same_contents rfl rfl (fun l h => ?_) (fun j p hp => ?_) ?_ fun pblk h => ?_
  · rw [writepage_cache] at h
    by_cases hl : l = k
    · rw [hl]
      exact hk
    · rw [update_of_ne hl] at h
      exact hi.cached i l h
  · have hp' : (j, p / 4096) ∈ lowBlocks ι := show p / 4096 < 2 ^ 20 by omega
    have hread := hi.reads j p hp
    rw [hstore, WriteBack.view_flush hloc hk hp']
    by_cases hj : (j, p / 4096) = (i, k)
    · obtain ⟨rfl, hblk⟩ := Prod.mk.inj hj
      rw [hj, update_self, writtenBytes]
      have hpos : k * 4096 + p % 4096 = p := by omega
      rw [hpos]
      split_ifs with hlt
      · have hbyte : (w.file j).byteAt (fi j) p = page.bytes (p % 4096) := by
          rw [FileData.byteAt, hblk, show (w.file j).cache k = some page from hc]
        rwa [hbyte] at hread
      · have hnone : (f j).bytes p = none := by
          by_contra hne
          apply hlt
          show p < w.iSize j
          rw [hi.iSize j]
          exact hi.inside j p hne
        rw [hnone]
        exact .inl rfl
    · rw [update_of_ne hj, ← byteAt_view]
      exact hread
  · rw [hstore]
    exact hi.coherent.flush hloc hk
  · have hne : pblk ≠ dataBlock (fi i) k := h (i, k) hk
    rw [writepage_dev, update_of_ne hne]
    exact hi.outside pblk h

theorem FilesInv.releasepage (hi : FilesInv inj fi dev f w) {k : ℕ} {page : CachedPage β}
    (hc : w.cache i k = some page) (hclean : page.dirty = false) :
    FilesInv inj fi dev f (w.putFile i ((w.file i).setPage k none)) := by
  have hk : (i, k) ∈ lowBlocks ι := hi.cached i k (by rw [hc]; exact Option.some_ne_none page)
  have hstore := store_releasepage w i k
  have hpage : w.store.cache (i, k) = some (page.bytes, false) := by
    show (w.cache i k).map _ = _
    rw [hc, Option.map_some, hclean]
  refine hi.same_contents rfl rfl (fun l h => ?_) (fun j p hp => ?_) ?_ hi.outside
  · dsimp only [FileData.setPage] at h
    by_cases hl : l = k
    · rw [hl, update_self] at h
      exact absurd rfl h
    · rw [update_of_ne hl] at h
      exact hi.cached i l h
  · rw [hstore, hi.coherent.view_drop hk hpage, ← byteAt_view]
    exact hi.reads j p hp
  · rw [hstore]
    exact hi.coherent.drop

theorem FilesInv.step (hi : FilesInv inj fi dev f w) (hloc : Set.InjOn (place fi) (lowBlocks ι))
    {a : ι × FileOp} {w' : Files ι β} (hok : Below4G w a)
    (hstep : filesStep inj fi w a = some w') :
    FilesInv inj fi dev (update f a.1 ((f a.1).op a.2)) w' := by
  obtain ⟨i, op⟩ := a
  obtain ⟨s, hs, rfl⟩ := Option.map_eq_some_iff.mp hstep
  have hsame : ∀ op, (f i).op op = f i → update f i ((f i).op op) = f := by
    intro op h
    rw [h, update_eq_self]
  show FilesInv inj fi dev (update f i ((f i).op op)) (w.putFile i s)
  cases op with
  | write pos data =>
    simp only [fileStep] at hs
    split_ifs at hs with hg
    cases hs
    exact hi.write hg.1 hg.2.1 hok
  | readpage k =>
    simp only [fileStep] at hs
    split_ifs at hs with hk
    cases hs
    rw [hsame _ rfl]
    exact hi.readpage hk
  | writepage k =>
    simp only [fileStep] at hs
    obtain ⟨page, hc, hs⟩ := Option.bind_eq_some_iff.mp hs
    split_ifs at hs
    cases hs
    rw [hsame _ rfl]
    exact hi.writepage hloc hc
  | releasepage k =>
    simp only [fileStep] at hs
    obtain ⟨page, hc, hs⟩ := Option.bind_eq_some_iff.mp hs
    split_ifs at hs with hdirty
    cases hs
    rw [hsame _ rfl]
    exact hi.releasepage hc (Bool.eq_false_iff.mpr hdirty)

end inv

section runs
variable {ι : Type*} [DecidableEq ι] {fi : ι → FfsInodeInfo} {x : ι → FilePlace}
  {ops : List (ι × FileOp)} {w : Files ι UInt8}

end runs

end FlatFS
