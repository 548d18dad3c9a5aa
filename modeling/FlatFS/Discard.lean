import FlatFS.Inode

namespace FlatFS.Discard
open Lib Function

inductive Pc
  | live
  | locked
  | unlocked
  | marked
  | submitted
  | returned
deriving DecidableEq

def Pc.Past (pc : Pc) : Prop := pc = .submitted ∨ pc = .returned

instance (pc : Pc) : Decidable pc.Past := inferInstanceAs (Decidable (_ ∨ _))

/-- A file of the directory. `completed` records that the I/O its unlink submitted has ended. -/
structure File where
  fi : FfsInodeInfo
  pc : Pc
  completed : Bool

/-- The holder of the lock of a buffer: the two critical sections of the code, or I/O in flight,
which ends in the callback of the unlink of a file or in the ordinary `end_io`. -/
inductive Holder
  | unlink (f : ℕ)
  | dirty (f : ℕ) (valid : ℤ)
  | io (f : Option ℕ)
deriving DecidableEq

/-- The buffer head of an inode page. `marks` counts the calls of `ffs_dirty_inode` that have
unlocked the buffer and not yet marked it dirty. -/
structure Buffer where
  page : FfsInodePage
  dirty : Bool
  lock : Option Holder
  ioEnd : FfsIoEnd
  marks : ℕ

/-- One small directory: the tables, a buffer for every bucket, and the files created so far in
the order of their creation. -/
structure State where
  sb : SbInfo
  buf : ℕ → Buffer
  count : ℕ
  file : ℕ → File

def init (d : ℕ) (sb : SbInfo) (ioEnd : ℕ → FfsIoEnd) : State where
  sb := { sb with hashtbl := update sb.hashtbl d (some initFileHt) }
  buf b := ⟨zeroPage, false, none, ioEnd b, 0⟩
  count := 0
  file _ := ⟨⟨0, 0, 0, 0, 0, 0, 0, 0, fun _ => 0⟩, .live, false⟩

namespace State

def bucket (s : State) (f : ℕ) : ℕ := (s.file f).fi.bucketId.toNat

def setBuf (s : State) (b : ℕ) (x : Buffer) : State := { s with buf := update s.buf b x }

def setFile (s : State) (f : ℕ) (x : File) : State := { s with file := update s.file f x }

def setPc (s : State) (f : ℕ) (pc : Pc) : State := s.setFile f { s.file f with pc := pc }

def addFile (s : State) (d : ℕ) (ht : HashTable) (x : File) : State :=
  { s.setFile s.count x with
    sb := { s.sb with hashtbl := update s.sb.hashtbl d (some ht) }
    count := s.count + 1 }

end State

/-- The atomic steps. The three steps of `ffs_dirty_inode` may be taken for any file at any time. -/
inductive Action
  | create (name : CStr) (mem : FfsName)
  | unlinkLock (f : ℕ)
  | unlinkUnlock (f : ℕ)
  | unlinkMark (f : ℕ)
  | unlinkSubmit (f : ℕ)
  | unlinkReturn (f : ℕ)
  | dirtyLock (f : ℕ)
  | dirtyWrite (f : ℕ)
  | dirtyMark (b : ℕ)
  | writeback (b : ℕ)
  | complete (b : ℕ)

/-- `submit_bio_for_discard` of one buffer: nothing happens when it is locked or clean. -/
def submitBioForDiscard (x : Buffer) (f : ℕ) : Buffer :=
  if x.lock = none ∧ x.dirty = true then { x with dirty := false, lock := some (.io (some f)) }
  else x

/-- `define_callback_for_discard`, for the I/O that the unlink of `f` submitted. -/
def completeDiscard (s : State) (b f : ℕ) : State :=
  { (s.setBuf b { s.buf b with lock := none }).setFile f { s.file f with completed := true } with
    sb := callbackForDiscard s.sb (s.buf b).ioEnd }

/-- The steps on directory `d`. A create that finds its bucket full promotes the directory and is
no step here. -/
def step (d : ℕ) (s : State) : Action → Option State
  | .create name mem =>
    (s.sb.hashtbl d).bind fun ht =>
      let r := flatfsFileSlotAllocByName ht d name
      if r.1 ≠ minusOne then
        some (s.addFile d r.2 ⟨smallFileInfo d r.1 mem name, .live, false⟩)
      else none
  | .unlinkLock f =>
    let x := s.buf (s.bucket f)
    if f < s.count ∧ (s.file f).pc = .live ∧ x.lock = none then
      let x := { x with
        page := clearPage (s.file f).fi x.page
        lock := some (.unlink f)
        ioEnd := initHandlerForDiscard x.ioEnd (s.file f).fi }
      some ((s.setBuf (s.bucket f) x).setPc f .locked)
    else none
  | .unlinkUnlock f =>
    let x := s.buf (s.bucket f)
    if f < s.count ∧ (s.file f).pc = .locked ∧ x.lock = some (.unlink f) then
      some ((s.setBuf (s.bucket f) { x with lock := none }).setPc f .unlocked)
    else none
  | .unlinkMark f =>
    if f < s.count ∧ (s.file f).pc = .unlocked then
      some ((s.setBuf (s.bucket f) { s.buf (s.bucket f) with dirty := true }).setPc f .marked)
    else none
  | .unlinkSubmit f =>
    if f < s.count ∧ (s.file f).pc = .marked then
      some ((s.setBuf (s.bucket f) (submitBioForDiscard (s.buf (s.bucket f)) f)).setPc f .submitted)
    else none
  | .unlinkReturn f =>
    if f < s.count ∧ (s.file f).pc = .submitted then
      some (s.setFile f { s.file f with fi := invalidate (s.file f).fi, pc := .returned })
    else none
  | .dirtyLock f =>
    let x := s.buf (s.bucket f)
    if f < s.count ∧ x.lock = none then
      some (s.setBuf (s.bucket f) { x with lock := some (.dirty f (s.file f).fi.valid) })
    else none
  | .dirtyWrite f =>
    let x := s.buf (s.bucket f)
    match x.lock with
    | some (.dirty g valid) =>
      if f < s.count ∧ g = f then
        some (s.setBuf (s.bucket f) { x with
          page := dirtyPage (s.file f).fi valid x.page
          lock := none
          marks := x.marks + 1 })
      else none
    | _ => none
  | .dirtyMark b =>
    if 0 < (s.buf b).marks then
      some (s.setBuf b { s.buf b with dirty := true, marks := (s.buf b).marks - 1 })
    else none
  | .writeback b =>
    if (s.buf b).lock = none ∧ (s.buf b).dirty = true then
      some (s.setBuf b { s.buf b with dirty := false, lock := some (.io none) })
    else none
  | .complete b =>
    match (s.buf b).lock with
    | some (.io none) => some (s.setBuf b { s.buf b with lock := none })
    | some (.io (some f)) => some (completeDiscard s b f)
    | _ => none

inductive Steps (d : ℕ) (s : State) : Action → State → Prop
  | create {name : CStr} {mem : FfsName} {ht : HashTable} (hht : s.sb.hashtbl d = some ht)
      (hne : (flatfsFileSlotAllocByName ht d name).1 ≠ minusOne) :
      Steps d s (.create name mem) (s.addFile d (flatfsFileSlotAllocByName ht d name).2
        ⟨smallFileInfo d (flatfsFileSlotAllocByName ht d name).1 mem name, .live, false⟩)
  | unlinkLock {f : ℕ} (hf : f < s.count) (hpc : (s.file f).pc = .live)
      (hl : (s.buf (s.bucket f)).lock = none) :
      Steps d s (.unlinkLock f) ((s.setBuf (s.bucket f) { s.buf (s.bucket f) with
        page := clearPage (s.file f).fi (s.buf (s.bucket f)).page
        lock := some (.unlink f)
        ioEnd := initHandlerForDiscard (s.buf (s.bucket f)).ioEnd (s.file f).fi }).setPc f .locked)
  | unlinkUnlock {f : ℕ} (hpc : (s.file f).pc = .locked)
      (hl : (s.buf (s.bucket f)).lock = some (.unlink f)) :
      Steps d s (.unlinkUnlock f)
        ((s.setBuf (s.bucket f) { s.buf (s.bucket f) with lock := none }).setPc f .unlocked)
  | unlinkMark {f : ℕ} (hpc : (s.file f).pc = .unlocked) :
      Steps d s (.unlinkMark f)
        ((s.setBuf (s.bucket f) { s.buf (s.bucket f) with dirty := true }).setPc f .marked)
  | unlinkSubmit {f : ℕ} (hf : f < s.count) (hpc : (s.file f).pc = .marked) :
      Steps d s (.unlinkSubmit f) ((s.setBuf (s.bucket f)
        (submitBioForDiscard (s.buf (s.bucket f)) f)).setPc f .submitted)
  | unlinkReturn {f : ℕ} (hpc : (s.file f).pc = .submitted) :
      Steps d s (.unlinkReturn f)
        (s.setFile f { s.file f with fi := invalidate (s.file f).fi, pc := .returned })
  | dirtyLock {f : ℕ} (hl : (s.buf (s.bucket f)).lock = none) :
      Steps d s (.dirtyLock f) (s.setBuf (s.bucket f)
        { s.buf (s.bucket f) with lock := some (.dirty f (s.file f).fi.valid) })
  | dirtyWrite {f : ℕ} {valid : ℤ} (hf : f < s.count)
      (hl : (s.buf (s.bucket f)).lock = some (.dirty f valid)) :
      Steps d s (.dirtyWrite f) (s.setBuf (s.bucket f) { s.buf (s.bucket f) with
        page := dirtyPage (s.file f).fi valid (s.buf (s.bucket f)).page
        lock := none
        marks := (s.buf (s.bucket f)).marks + 1 })
  | dirtyMark {b : ℕ} : Steps d s (.dirtyMark b)
      (s.setBuf b { s.buf b with dirty := true, marks := (s.buf b).marks - 1 })
  | writeback {b : ℕ} (hl : (s.buf b).lock = none) : Steps d s (.writeback b)
      (s.setBuf b { s.buf b with dirty := false, lock := some (.io none) })
  | written {b : ℕ} (hl : (s.buf b).lock = some (.io none)) :
      Steps d s (.complete b) (s.setBuf b { s.buf b with lock := none })
  | discarded {b f : ℕ} (hl : (s.buf b).lock = some (.io (some f))) :
      Steps d s (.complete b) (completeDiscard s b f)

theorem step_steps {d : ℕ} {s s' : State} {a : Action} (h : step d s a = some s') :
    Steps d s a s' := by
  cases a with
  | create name mem =>
    obtain ⟨ht, hht, h⟩ := Option.bind_eq_some_iff.mp h
    obtain ⟨hne, he⟩ := Option.ite_none_right_eq_some.mp h
    cases he
    exact .create hht hne
  | unlinkLock f =>
    obtain ⟨⟨hf, hpc, hl⟩, he⟩ := Option.ite_none_right_eq_some.mp h
    cases he
    exact .unlinkLock hf hpc hl
  | unlinkUnlock f =>
    obtain ⟨⟨-, hpc, hl⟩, he⟩ := Option.ite_none_right_eq_some.mp h
    cases he
    exact .unlinkUnlock hpc hl
  | unlinkMark f =>
    obtain ⟨⟨-, hpc⟩, he⟩ := Option.ite_none_right_eq_some.mp h
    cases he
    exact .unlinkMark hpc
  | unlinkSubmit f =>
    obtain ⟨⟨hf, hpc⟩, he⟩ := Option.ite_none_right_eq_some.mp h
    cases he
    exact .unlinkSubmit hf hpc
  | unlinkReturn f =>
    obtain ⟨⟨-, hpc⟩, he⟩ := Option.ite_none_right_eq_some.mp h
    cases he
    exact .unlinkReturn hpc
  | dirtyLock f =>
    obtain ⟨⟨-, hl⟩, he⟩ := Option.ite_none_right_eq_some.mp h
    cases he
    exact .dirtyLock hl
  | dirtyWrite f =>
    simp only [step] at h
    split at h
    · rename_i g valid hl
      obtain ⟨⟨hf, rfl⟩, he⟩ := Option.ite_none_right_eq_some.mp h
      cases he
      exact .dirtyWrite hf hl
    · cases h
  | dirtyMark b =>
    obtain ⟨-, he⟩ := Option.ite_none_right_eq_some.mp h
    cases he
    exact .dirtyMark
  | writeback b =>
    obtain ⟨⟨hl, -⟩, he⟩ := Option.ite_none_right_eq_some.mp h
    cases he
    exact .writeback hl
  | complete b =>
    simp only [step] at h
    split at h
    · rename_i hl
      cases h
      exact .written hl
    · rename_i f hl
      cases h
      exact .discarded hl
    · cases h

def File.At (x : File) (b i : ℕ) : Prop := x.fi.bucketId = b ∧ x.fi.slotId = i

instance (x : File) (b i : ℕ) : Decidable (x.At b i) := inferInstanceAs (Decidable (_ ∧ _))

theorem File.At.slot_eq {x : File} {b i b' i' : ℕ} (h : x.At b i) (h' : x.At b' i') :
    b = b' ∧ i = i' :=
  ⟨Int.ofNat.inj (h.1.symm.trans h'.1), Int.ofNat.inj (h.2.symm.trans h'.2)⟩

def Names (e : FfsIoEnd) (fi : FfsInodeInfo) : Prop :=
  e.dirId = fi.dirId ∧ e.bucketId = fi.bucketId ∧ e.slotId = fi.slotId

instance (e : FfsIoEnd) (fi : FfsInodeInfo) : Decidable (Names e fi) :=
  inferInstanceAs (Decidable (_ ∧ _))

/-- An unlink that does submit its buffer does so while the record still names its own file. -/
def SubmitsOwn (s : State) : Action → Prop
  | .unlinkSubmit f => (s.buf (s.bucket f)).lock = none → (s.buf (s.bucket f)).dirty = true →
    Names (s.buf (s.bucket f)).ioEnd (s.file f).fi
  | _ => True

structure InFlight (s : State) (b f : ℕ) : Prop where
  lt : f < s.count
  bucket : (s.file f).fi.bucketId = b
  names : Names (s.buf b).ioEnd (s.file f).fi
  past : (s.file f).pc.Past
  pending : (s.file f).completed = false

/-- The table has exactly the slots of the files that are not completed, and a slot is given to
a later file when the earlier one is completed. -/
structure Inv (d : ℕ) (s : State) : Prop where
  file : ∀ f < s.count, (s.file f).fi.dirId = d ∧ ∃ b < 2 ^ 12, ∃ i < 8, (s.file f).At b i
  table : ∃ ht, s.sb.hashtbl d = some ht ∧ ∀ b < 2 ^ 12, ∀ i < 8,
    ht.bit b i = true ↔ ∃ f < s.count, (s.file f).completed = false ∧ (s.file f).At b i
  reuse : ∀ f g, f < g → g < s.count → ∀ b i, (s.file f).At b i → (s.file g).At b i →
    (s.file f).completed = true
  past : ∀ f < s.count, (s.file f).completed = true → (s.file f).pc.Past
  small : ∀ b, (s.buf b).ioEnd.isBigDir = 0
  inFlight : ∀ b f, (s.buf b).lock = some (.io (some f)) → InFlight s b f

theorem Inv.slot_inj {d : ℕ} {s : State} (hi : Inv d s) {f g b i : ℕ} (hf : f < s.count)
    (hg : g < s.count) (hcf : (s.file f).completed = false) (hcg : (s.file g).completed = false)
    (hfa : (s.file f).At b i) (hga : (s.file g).At b i) : f = g := by
  rcases lt_trichotomy f g with hlt | he | hgt
  · rw [hi.reuse f g hlt hg b i hfa hga] at hcf
    cases hcf
  · exact he
  · rw [hi.reuse g f hgt hf b i hga hfa] at hcg
    cases hcg

theorem inv_init (d : ℕ) (sb : SbInfo) {ioEnd : ℕ → FfsIoEnd}
    (hio : ∀ b, (ioEnd b).isBigDir = 0) : Inv d (init d sb ioEnd) where
  file f hf := absurd hf (Nat.not_lt_zero f)
  table := by
    refine ⟨initFileHt, by simp [init], fun b _ i _ => ?_⟩
    simp [init, HashTable.bit, initFileHt, initBuckets, Bucket.empty]
  reuse f g _ hg := absurd hg (Nat.not_lt_zero g)
  past f hf := absurd hf (Nat.not_lt_zero f)
  small := hio
  inFlight b f hl := by simp [init] at hl

structure SameFile (x y : File) : Prop where
  dirId : y.fi.dirId = x.fi.dirId
  bucketId : y.fi.bucketId = x.fi.bucketId
  slotId : y.fi.slotId = x.fi.slotId
  completed : y.completed = x.completed
  past : x.pc.Past → y.pc.Past

theorem SameFile.refl (x : File) : SameFile x x := ⟨rfl, rfl, rfl, rfl, id⟩

theorem SameFile.at_iff {x y : File} (h : SameFile x y) (b i : ℕ) : y.At b i ↔ x.At b i := by
  rw [File.At, File.At, h.bucketId, h.slotId]

theorem SameFile.names {x y : File} (h : SameFile x y) {e : FfsIoEnd} (hn : Names e x.fi) :
    Names e y.fi := by
  rw [Names, h.dirId, h.bucketId, h.slotId]
  exact hn

theorem SameFile.update {s : State} {f : ℕ} {x : File} (h : SameFile (s.file f) x) (g : ℕ) :
    SameFile (s.file g) (update s.file f x g) := by
  rcases eq_or_ne g f with rfl | hne
  · rwa [update_self]
  · rw [update_of_ne hne]
    exact .refl _

/-- A step that rewrites one buffer, and of the files what `SameFile` leaves free. -/
theorem Inv.frame {d : ℕ} {s s' : State} (hi : Inv d s) (hsb : s'.sb = s.sb)
    (hcount : s'.count = s.count) (hfile : ∀ g, SameFile (s.file g) (s'.file g)) {b : ℕ}
    {x : Buffer} (hbuf : s'.buf = update s.buf b x)
    (hbig : x.ioEnd.isBigDir = (s.buf b).ioEnd.isBigDir)
    (hlock : ∀ f, x.lock = some (.io (some f)) →
      (x.lock = (s.buf b).lock ∧ x.ioEnd = (s.buf b).ioEnd) ∨ InFlight s' b f) : Inv d s' := by
  have hkeep : ∀ c f, InFlight s c f → (s'.buf c).ioEnd = (s.buf c).ioEnd → InFlight s' c f := by
    rintro c f ⟨hlt, hb, hn, hpast, hpend⟩ he
    exact ⟨hcount ▸ hlt, by rw [(hfile f).bucketId, hb], he ▸ (hfile f).names hn,
      (hfile f).past hpast, by rw [(hfile f).completed, hpend]⟩
  refine ⟨fun f hf => ?_, ?_, fun f g hlt hg b i hfa hga => ?_, fun f hf hc => ?_, fun c => ?_,
    fun c f hl => ?_⟩
  · rw [(hfile f).dirId]
    simp only [(hfile f).at_iff]
    exact hi.file f (hcount ▸ hf)
  · obtain ⟨ht, hht, hbit⟩ := hi.table
    refine ⟨ht, by rw [hsb, hht], fun b hb i hi' => ?_⟩
    simp only [hbit b hb i hi', hcount, (hfile _).completed, (hfile _).at_iff]
  · rw [(hfile f).completed]
    exact hi.reuse f g hlt (hcount ▸ hg) b i (((hfile f).at_iff b i).mp hfa)
      (((hfile g).at_iff b i).mp hga)
  · rw [(hfile f).completed] at hc
    exact (hfile f).past (hi.past f (hcount ▸ hf) hc)
  · rw [hbuf]
    rcases eq_or_ne c b with rfl | hne
    · rw [update_self, hbig]
      exact hi.small c
    · rw [update_of_ne hne]
      exact hi.small c
  · rcases eq_or_ne c b with rfl | hne
    · rw [hbuf, update_self] at hl
      -- I/O on the rewritten buffer was in flight before, or is issued by this step
      rcases hlock f hl with ⟨hsame, hio⟩ | hnew
      · exact hkeep c f (hi.inFlight c f (hsame ▸ hl)) (by rw [hbuf, update_self, hio])
      · exact hnew
    · rw [hbuf, update_of_ne hne] at hl
      exact hkeep c f (hi.inFlight c f hl) (by rw [hbuf, update_of_ne hne])

theorem Inv.addFile {d : ℕ} {s : State} (hi : Inv d s) {ht : HashTable}
    (hht : s.sb.hashtbl d = some ht) {b i : ℕ} (hb : b < 2 ^ 12) (hi' : i < 8)
    (hclear : ht.bit b i = false) {x : File} (hdir : x.fi.dirId = d) (hat : x.At b i)
    (hx : x.completed = false) : Inv d (s.addFile d (ht.modify b (·.take i)) x) := by
  have hold : ∀ {f}, f < s.count → (s.addFile d (ht.modify b (·.take i)) x).file f = s.file f :=
    fun hf => update_of_ne hf.ne _ _
  have hnew : (s.addFile d (ht.modify b (·.take i)) x).file s.count = x := update_self _ _ _
  have hcases : ∀ {f}, f < s.count + 1 → f < s.count ∨ f = s.count := Nat.lt_succ_iff_lt_or_eq.mp
  have hbit : ∀ b < 2 ^ 12, ∀ i < 8,
      ht.bit b i = true ↔ ∃ f < s.count, (s.file f).completed = false ∧ (s.file f).At b i := by
    obtain ⟨ht', hht', hbit⟩ := hi.table
    rw [hht] at hht'
    cases hht'
    exact hbit
  refine ⟨?_, ⟨_, update_self _ _ _, fun c hc j hj => ?_⟩, ?_, ?_, hi.small, ?_⟩
  · intro f hf
    rcases hcases hf with hlt | rfl
    · rw [hold hlt]
      exact hi.file f hlt
    · rw [hnew]
      exact ⟨hdir, b, hb, i, hi', hat⟩
  · rw [HashTable.bit_take, hbit c hc j hj]
    constructor
    · rintro (⟨rfl, rfl⟩ | ⟨f, hf, hfc, hfa⟩)
      · exact ⟨s.count, Nat.lt_succ_self _, by rwa [hnew], by rwa [hnew]⟩
      · exact ⟨f, Nat.lt_succ_of_lt hf, by rwa [hold hf], by rwa [hold hf]⟩
    · rintro ⟨f, hf, hfc, hfa⟩
      rcases hcases hf with hlt | rfl
      · rw [hold hlt] at hfc hfa
        exact .inr ⟨f, hlt, hfc, hfa⟩
      · rw [hnew] at hfa
        exact .inl (hfa.slot_eq hat)
  · intro f g hlt hg c j hfa hga
    have hf : f < s.count := lt_of_lt_of_le hlt (Nat.lt_succ_iff.mp hg)
    rw [hold hf] at hfa ⊢
    rcases hcases hg with hg | rfl
    · rw [hold hg] at hga
      exact hi.reuse f g hlt hg c j hfa hga
    · -- the slot was free, so every earlier file in it is completed
      rw [hnew] at hga
      obtain ⟨rfl, rfl⟩ := hga.slot_eq hat
      by_contra hc
      rw [Bool.not_eq_true] at hc
      rw [(hbit _ hb _ hi').mpr ⟨f, hf, hc, hfa⟩] at hclear
      cases hclear
  · intro f hf hc
    rcases hcases hf with hlt | rfl
    · rw [hold hlt] at hc ⊢
      exact hi.past f hlt hc
    · rw [hnew, hx] at hc
      cases hc
  · intro c f hl
    obtain ⟨hlt, hfb, hn, hpc, hpend⟩ := hi.inFlight c f hl
    refine ⟨Nat.lt_succ_of_lt hlt, ?_, ?_, ?_, ?_⟩ <;> rw [hold hlt] <;> assumption

theorem Inv.create {d : ℕ} (hd : d < 2 ^ 14) {s : State} (hi : Inv d s) {name : CStr}
    {mem : FfsName} {ht : HashTable} (hht : s.sb.hashtbl d = some ht)
    (hne : (flatfsFileSlotAllocByName ht d name).1 ≠ minusOne) :
    Inv d (s.addFile d (flatfsFileSlotAllocByName ht d name).2
      ⟨smallFileInfo d (flatfsFileSlotAllocByName ht d name).1 mem name, .live, false⟩) := by
  have hfree : ¬ (ht.buckets (smallBucket name)).Full := fun hfull =>
    hne (by rw [fileSlotAlloc_full _ hfull])
  obtain ⟨-, htab, hbkt, hslt⟩ := fileSlotAlloc_free hd hfree
  rw [htab]
  exact hi.addFile hht (smallBucket_lt name) (Bucket.freeSlot_lt hfree)
    (Bucket.freeSlot_clear hfree) rfl ⟨hbkt, hslt⟩ rfl

theorem completeDiscard_file (s : State) (b f g : ℕ) :
    ((completeDiscard s b f).file g).fi = (s.file g).fi ∧
      ((completeDiscard s b f).file g).pc = (s.file g).pc := by
  rcases eq_or_ne g f with rfl | hne
  · simp [completeDiscard, State.setFile, State.setBuf]
  · simp [completeDiscard, State.setFile, State.setBuf, hne]

/-- The completion of a discard frees the slot of its own file and no other. -/
theorem Inv.complete {d : ℕ} {s : State} (hi : Inv d s) {b f : ℕ}
    (hl : (s.buf b).lock = some (.io (some f))) : Inv d (completeDiscard s b f) := by
  obtain ⟨hlt, -, hn, hpast, hpend⟩ := hi.inFlight b f hl
  obtain ⟨hdir, c, hc, i, hi', hat⟩ := hi.file f hlt
  obtain ⟨ht, hht, hbit⟩ := hi.table
  have hset : ht.bit c i = true := (hbit c hc i hi').mpr ⟨f, hlt, hpend, hat⟩
  have hdel : deleteFile ht (s.buf b).ioEnd.bucketId (s.buf b).ioEnd.slotId =
      (1, ht.modify c (·.release i)) := by
    rw [hn.2.1, hn.2.2, hat.1, hat.2, deleteFile, deleteSlot_eq hc hi', if_pos hset]
  have hdn : (s.buf b).ioEnd.dirId.toNat = d := by rw [hn.1, hdir, Int.toNat_natCast]
  have hfile := completeDiscard_file s b f
  have hat' : ∀ g c i, ((completeDiscard s b f).file g).At c i ↔ (s.file g).At c i := by
    intro g c i
    rw [File.At, File.At, (hfile g).1]
  have hdone : ((completeDiscard s b f).file f).completed = true := by
    simp [completeDiscard, State.setFile]
  have hother : ∀ {g}, g ≠ f →
      ((completeDiscard s b f).file g).completed = (s.file g).completed := by
    intro g hne
    simp [completeDiscard, State.setFile, State.setBuf, hne]
  refine ⟨?_, ⟨ht.modify c (·.release i), ?_, fun c' hc' i' hi'' => ?_⟩, ?_, ?_, ?_, ?_⟩
  · intro g hg
    simp only [hat', (hfile g).1]
    exact hi.file g hg
  · simp [completeDiscard, callbackForDiscard, hi.small, hdn, hht, hdel]
  · -- the slot loses its only holder that is not completed
    rw [HashTable.bit_release, hbit c' hc' i' hi'']
    constructor
    · rintro ⟨hne, g, hg, hgc, hga⟩
      have hgf : g ≠ f := by
        rintro rfl
        exact hne (hga.slot_eq hat)
      exact ⟨g, hg, by rw [hother hgf, hgc], (hat' g c' i').mpr hga⟩
    · rintro ⟨g, hg, hgc, hga⟩
      have hgf : g ≠ f := by
        rintro rfl
        rw [hdone] at hgc
        cases hgc
      rw [hother hgf] at hgc
      rw [hat'] at hga
      refine ⟨?_, g, hg, hgc, hga⟩
      rintro ⟨rfl, rfl⟩
      exact hgf (hi.slot_inj hg hlt hgc hpend hga hat)
  · intro g g' hlt' hg' c i hga hga'
    rcases eq_or_ne g f with rfl | hne
    · exact hdone
    · rw [hother hne]
      exact hi.reuse g g' hlt' hg' c i ((hat' g c i).mp hga) ((hat' g' c i).mp hga')
  · intro g hg hgc
    rw [(hfile g).2]
    rcases eq_or_ne g f with rfl | hne
    · exact hpast
    · rw [hother hne] at hgc
      exact hi.past g hg hgc
  · intro c
    rcases eq_or_ne c b with rfl | hne <;>
      simp [completeDiscard, State.setFile, State.setBuf, *, hi.small]
  · intro c g hl'
    have hcb : c ≠ b := by
      rintro rfl
      simp [completeDiscard, State.setFile, State.setBuf] at hl'
    have hbufc : (completeDiscard s b f).buf c = s.buf c := by
      simp [completeDiscard, State.setFile, State.setBuf, hcb]
    rw [hbufc] at hl'
    obtain ⟨hglt, hgb, hgn, hgpc, hgpend⟩ := hi.inFlight c g hl'
    -- a file has one bucket, so that its unlink is in flight on one buffer
    have hgf : g ≠ f := by
      rintro rfl
      have hfb := (hi.inFlight b g hl).bucket
      exact hcb (Int.ofNat.inj (hgb.symm.trans hfb))
    refine ⟨hglt, by rw [(hfile g).1, hgb], ?_, by rwa [(hfile g).2], by rw [hother hgf, hgpend]⟩
    rw [hbufc, (hfile g).1]
    exact hgn

end FlatFS.Discard
