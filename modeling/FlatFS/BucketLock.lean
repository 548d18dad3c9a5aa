import FlatFS.ObjectInv

namespace FlatFS
open Lib

abbrev Locks := TableId → ℕ → Bool

/-- Why a call does not return: it waits for a lock that nobody will release, or it reads or
writes outside its tables. -/
inductive Stop
  | spins
  | faults
deriving DecidableEq

structure LockState where
  sb : SbInfo
  lock : Locks

def takeLock (l : Locks) (t : TableId) (b : ℕ) : Locks :=
  Function.update l t (Function.update (l t) b true)

def spinLock (l : Locks) (t : TableId) (b : ℕ) : Except Stop Locks :=
  if l t b = true then .error .spins else .ok (takeLock l t b)

/-- A slot allocation with the lock that `insert_file` or `insert_big_file` takes in it. None of
their return paths releases the lock. -/
def slotAllocLocked (alloc : HashTable → ℤ → CStr → BitVec 64 × HashTable) (bits : ℕ)
    (t : TableId) (s : LockState) (dirId : ℤ) (name : CStr) :
    Except Stop (BitVec 64 × LockState) :=
  match s.sb.table t with
  | none => .error .faults
  | some ht =>
    (spinLock s.lock t (bucketOf bits name).toNat).map fun l =>
      ((alloc ht dirId name).1, ⟨s.sb.setTable t (some (alloc ht dirId name).2), l⟩)

def mknodBigLocked (s : LockState) (dfi : FfsInodeInfo) (name : CStr) : Except Stop LockState :=
  (slotAllocLocked flatfsBigFileSlotAllocByName (minFileBucketBits + minDirBits)
    (.big dfi.bigDirId.toNat) s dfi.dirId name).map (·.2)

/-- `ffs_mknod` of a file; its own `spin_unlock` is commented out. The locks of a fresh big table
are free. -/
def mknodLocked (s : LockState) (dfi : FfsInodeInfo) (name : CStr) : Except Stop LockState :=
  if dfi.isBigDir = 0 then
    (slotAllocLocked flatfsFileSlotAllocByName minFileBucketBits (.small dfi.dirId.toNat) s
      dfi.dirId name).bind fun r =>
        if r.1 = minusOne then
          match resizeDir r.2.sb with
          | none => .error .faults
          | some (pos, sb) =>
            if pos = -1 then .ok ⟨sb, r.2.lock⟩
            else mknodBigLocked ⟨sb, Function.update r.2.lock (.big pos.toNat) fun _ => false⟩
              { dfi with isBigDir := 1, bigDirId := pos } name
        else .ok r.2
  else mknodBigLocked s dfi name

def Rejects (bits : ℕ) (bucketId slotId : ℤ) : Prop :=
  bucketId = -1 ∨ bucketId > 1 <<< bits ∨ slotId > 1 <<< fileSlotBits

instance (bits : ℕ) (bucketId slotId : ℤ) : Decidable (Rejects bits bucketId slotId) :=
  inferInstanceAs (Decidable (_ ∨ _ ∨ _))

/-- `delete_file` and `delete_big_file` with their lock. The bucket just behind the last one and
negative numbers pass the test and lead outside the table. -/
def deleteLocked (bits : ℕ) (t : TableId) (s : LockState) (bucketId slotId : ℤ) :
    Except Stop LockState :=
  if Rejects bits bucketId slotId then .ok s
  else if bucketId < 0 ∨ bucketId = 1 <<< bits ∨ slotId < 0 then .error .faults
  else
    match s.sb.table t with
    | none => .error .faults
    | some ht =>
      (spinLock s.lock t bucketId.toNat).map fun l =>
        ⟨s.sb.setTable t (some (deleteSlot bits ht bucketId slotId).2), l⟩

def callbackLocked (s : LockState) (e : FfsIoEnd) : Except Stop LockState :=
  if e.isBigDir = 0 then
    deleteLocked minFileBucketBits (.small e.dirId.toNat) s e.bucketId e.slotId
  else deleteLocked (minFileBucketBits + minDirBits) (.big e.bigDirId.toNat) s e.bucketId e.slotId

inductive LockOp
  | mknod (dfi : FfsInodeInfo) (name : CStr)
  | discard (ioEnd : FfsIoEnd)

def lockCall (s : LockState) : LockOp → Except Stop LockState
  | .mknod dfi name => mknodLocked s dfi name
  | .discard ioEnd => callbackLocked s ioEnd

def lockStep (s : LockState) (op : LockOp) : Option LockState := (lockCall s op).toOption

def AllFree (l : Locks) : Prop := ∀ t b, l t b = false

def RejectedDelete (_ : LockState) : LockOp → Prop
  | .mknod _ _ => False
  | .discard e =>
    if e.isBigDir = 0 then Rejects minFileBucketBits e.bucketId e.slotId
    else Rejects (minFileBucketBits + minDirBits) e.bucketId e.slotId

instance (s : LockState) : (op : LockOp) → Decidable (RejectedDelete s op)
  | .mknod _ _ => .isFalse id
  | .discard _ => inferInstanceAs (Decidable (ite _ _ _))

section

variable {l : Locks} {t : TableId} {b : ℕ} {s s' : LockState}

@[simp] theorem takeLock_self (l : Locks) (t : TableId) (b : ℕ) : takeLock l t b t b = true := by
  simp [takeLock]

theorem not_allFree_takeLock : ¬ AllFree (takeLock l t b) := by
  intro h
  have hself := h t b
  rw [takeLock_self] at hself
  cases hself

/-- The three ends of a slot allocation: where it returns, it holds the lock of its bucket. -/
theorem slotAllocLocked_cases (alloc : HashTable → ℤ → CStr → BitVec 64 × HashTable) (bits : ℕ)
    (t : TableId) (s : LockState) (dirId : ℤ) (name : CStr) :
    slotAllocLocked alloc bits t s dirId name = .error .faults ∨
    (s.lock t (bucketOf bits name).toNat = true ∧
      slotAllocLocked alloc bits t s dirId name = .error .spins) ∨
    ∃ ht, s.sb.table t = some ht ∧ slotAllocLocked alloc bits t s dirId name =
      .ok ((alloc ht dirId name).1, ⟨s.sb.setTable t (some (alloc ht dirId name).2),
        takeLock s.lock t (bucketOf bits name).toNat⟩) := by
  unfold slotAllocLocked
  cases s.sb.table t with
  | none => exact .inl rfl
  | some ht =>
    by_cases hl : s.lock t (bucketOf bits name).toNat = true
    · refine .inr (.inl ⟨hl, ?_⟩)
      simp [spinLock, hl, Except.map]
    · refine .inr (.inr ⟨ht, rfl, ?_⟩)
      simp [spinLock, hl, Except.map]

theorem deleteLocked_cases (bits : ℕ) (t : TableId) (s : LockState) (bucketId slotId : ℤ)
    (hr : ¬ Rejects bits bucketId slotId) :
    deleteLocked bits t s bucketId slotId = .error .faults ∨
    (s.lock t bucketId.toNat = true ∧ deleteLocked bits t s bucketId slotId = .error .spins) ∨
    ∃ sb, deleteLocked bits t s bucketId slotId = .ok ⟨sb, takeLock s.lock t bucketId.toNat⟩ := by
  unfold deleteLocked
  rw [if_neg hr]
  split_ifs with hout
  · exact .inl rfl
  · cases s.sb.table t with
    | none => exact .inl rfl
    | some ht =>
      by_cases hl : s.lock t bucketId.toNat = true
      · refine .inr (.inl ⟨hl, ?_⟩)
        simp [spinLock, hl, Except.map]
      · refine .inr (.inr ⟨s.sb.setTable t (some (deleteSlot bits ht bucketId slotId).2), ?_⟩)
        simp [spinLock, hl, Except.map]

theorem deleteLocked_allFree_iff {bits : ℕ} {bucketId slotId : ℤ} (hfree : AllFree s.lock)
    (h : deleteLocked bits t s bucketId slotId = .ok s') :
    AllFree s'.lock ↔ Rejects bits bucketId slotId := by
  by_cases hr : Rejects bits bucketId slotId
  · rw [deleteLocked, if_pos hr] at h
    cases h
    exact iff_of_true hfree hr
  · refine iff_of_false (fun hfree' => ?_) hr
    rcases deleteLocked_cases bits t s bucketId slotId hr with he | ⟨-, he⟩ | ⟨sb, he⟩ <;>
      rw [he] at h <;> cases h
    exact not_allFree_takeLock hfree'

theorem deleteLocked_no_spin {bits : ℕ} {bucketId slotId : ℤ} (hfree : AllFree s.lock) :
    deleteLocked bits t s bucketId slotId ≠ .error .spins := by
  intro h
  by_cases hr : Rejects bits bucketId slotId
  · rw [deleteLocked, if_pos hr] at h
    cases h
  · rcases deleteLocked_cases bits t s bucketId slotId hr with he | ⟨hl, he⟩ | ⟨sb, he⟩
    · rw [he] at h
      cases h
    · rw [hfree] at hl
      cases hl
    · rw [he] at h
      cases h

theorem setTable_table (sb : SbInfo) (t : TableId) : sb.setTable t (sb.table t) = sb := by
  cases t <;> simp [SbInfo.setTable, SbInfo.table, Function.update_eq_self]

theorem deleteLocked_sb {bits : ℕ} {bucketId slotId : ℤ}
    (h : deleteLocked bits t s bucketId slotId = .ok s') :
    s'.sb = s.sb.setTable t ((s.sb.table t).map fun ht =>
      (deleteSlot bits ht bucketId slotId).2) := by
  unfold deleteLocked at h
  split_ifs at h with hr hout
  · -- a delete that is turned away leaves every table as it is
    cases h
    have hsame : ∀ ht, (deleteSlot bits ht bucketId slotId).2 = ht := by
      intro ht
      exact congrArg Prod.snd (if_pos hr)
    simp only [hsame, Option.map_id']
    exact (setTable_table s.sb t).symm
  · split at h
    · cases h
    · rename_i ht hht
      by_cases hl : s.lock t bucketId.toNat = true
      · simp [spinLock, hl, Except.map] at h
      · simp only [spinLock, hl, Bool.false_eq_true, if_false, Except.map, Except.ok.injEq] at h
        subst h
        rw [hht, Option.map_some]

/-- Where `callback_for_discard` returns, it does to the tables what it does without the locks. -/
theorem callbackLocked_sb {e : FfsIoEnd} (h : callbackLocked s e = .ok s') :
    s'.sb = callbackForDiscard s.sb e := by
  unfold callbackLocked at h
  unfold callbackForDiscard
  split_ifs at h ⊢
  · exact deleteLocked_sb h
  · exact deleteLocked_sb h

variable {dfi : FfsInodeInfo} {name : CStr}

theorem mknodBigLocked_cases (s : LockState) (dfi : FfsInodeInfo) (name : CStr) :
    mknodBigLocked s dfi name = .error .faults ∨
    (s.lock (.big dfi.bigDirId.toNat) (bigBucket name) = true ∧
      mknodBigLocked s dfi name = .error .spins) ∨
    ∃ ht, s.sb.bigDirHashtbl dfi.bigDirId.toNat = some ht ∧ mknodBigLocked s dfi name =
      .ok ⟨s.sb.setTable (.big dfi.bigDirId.toNat)
        (some (flatfsBigFileSlotAllocByName ht dfi.dirId name).2),
        takeLock s.lock (.big dfi.bigDirId.toNat) (bigBucket name)⟩ := by
  unfold mknodBigLocked
  rcases slotAllocLocked_cases flatfsBigFileSlotAllocByName (minFileBucketBits + minDirBits)
    (.big dfi.bigDirId.toNat) s dfi.dirId name with he | ⟨hl, he⟩ | ⟨ht, hht, he⟩
  · rw [he]
    exact .inl rfl
  · rw [he]
    exact .inr (.inl ⟨hl, rfl⟩)
  · rw [he]
    exact .inr (.inr ⟨ht, hht, rfl⟩)

theorem mknodBigLocked_sb (mem : FfsName) (h : mknodBigLocked s dfi name = .ok s') :
    ∃ r, mknodBigFile s.sb dfi mem name = some r ∧ r.sb = s'.sb := by
  rcases mknodBigLocked_cases s dfi name with he | ⟨-, he⟩ | ⟨ht, hht, he⟩ <;>
    rw [he] at h <;> cases h
  simp only [mknodBigFile, hht, Option.map_some]
  exact ⟨_, rfl, rfl⟩

theorem mknodLocked_sb (mem : FfsName) (h : mknodLocked s dfi name = .ok s') :
    ∃ r, ffsMknodFile s.sb dfi mem name = some r ∧ r.sb = s'.sb := by
  unfold mknodLocked at h
  unfold ffsMknodFile mknodFileBy
  split_ifs at h ⊢ with hsmall
  · rcases slotAllocLocked_cases flatfsFileSlotAllocByName minFileBucketBits
      (.small dfi.dirId.toNat) s dfi.dirId name with he | ⟨-, he⟩ | ⟨ht, hht, he⟩
    · rw [he] at h
      cases h
    · rw [he] at h
      cases h
    · have hht' : s.sb.hashtbl dfi.dirId.toNat = some ht := hht
      rw [he] at h
      rw [hht', Option.bind_some]
      simp only [Except.bind] at h
      dsimp only
      split_ifs at h ⊢ with hfull
      · -- the table after the failed insert is searched for a position
        change ∃ r, (resizeDir (s.sb.setTable (.small dfi.dirId.toNat)
          (some (flatfsFileSlotAllocByName ht dfi.dirId name).2))).bind _ = some r ∧ _
        cases hres : resizeDir (s.sb.setTable (.small dfi.dirId.toNat)
            (some (flatfsFileSlotAllocByName ht dfi.dirId name).2)) with
        | none =>
          rw [hres] at h
          cases h
        | some r =>
          rw [hres] at h
          simp only [Option.bind_some]
          dsimp only at h
          split_ifs at h ⊢ with hpos
          · cases h
            exact ⟨_, rfl, rfl⟩
          · exact mknodBigLocked_sb mem h
      · cases h
        exact ⟨_, rfl, rfl⟩
  · exact mknodBigLocked_sb mem h

/-- Starting with every lock free, `ffs_mknod` of a file faults or returns with a lock held. -/
theorem mknodLocked_cases (hfree : AllFree s.lock) (dfi : FfsInodeInfo) (name : CStr) :
    mknodLocked s dfi name = .error .faults ∨
      ∃ s', mknodLocked s dfi name = .ok s' ∧ ¬ AllFree s'.lock := by
  -- the big branch, from locks that are free in its own table
  have hbig : ∀ (s : LockState) (dfi : FfsInodeInfo),
      s.lock (.big dfi.bigDirId.toNat) (bigBucket name) = false →
      mknodBigLocked s dfi name = .error .faults ∨
        ∃ s', mknodBigLocked s dfi name = .ok s' ∧ ¬ AllFree s'.lock := by
    intro s dfi hl
    rcases mknodBigLocked_cases s dfi name with he | ⟨hl', -⟩ | ⟨ht, -, he⟩
    · exact .inl he
    · rw [hl] at hl'
      cases hl'
    · exact .inr ⟨_, he, not_allFree_takeLock⟩
  unfold mknodLocked
  split_ifs with hsmall
  · rcases slotAllocLocked_cases flatfsFileSlotAllocByName minFileBucketBits
      (.small dfi.dirId.toNat) s dfi.dirId name with he | ⟨hl, -⟩ | ⟨ht, -, he⟩
    · rw [he]
      exact .inl rfl
    · rw [hfree] at hl
      cases hl
    · rw [he]
      simp only [Except.bind]
      split_ifs with hfull
      · split
        · exact .inl rfl
        · rename_i pos sb hres
          split_ifs with hpos
          · exact .inr ⟨_, rfl, not_allFree_takeLock⟩
          · apply hbig
            simp
      · exact .inr ⟨_, rfl, not_allFree_takeLock⟩
  · exact hbig s dfi (hfree _ _)

end

/-- Every call, from a state with all locks free: it does not wait for a lock, and it returns with
all locks free exactly when it is a delete that is turned away. -/
theorem lockCall_allFree {s : LockState} (hfree : AllFree s.lock) (op : LockOp) :
    lockCall s op ≠ .error .spins ∧
      ∀ s', lockCall s op = .ok s' → (AllFree s'.lock ↔ RejectedDelete s op) := by
  cases op with
  | mknod dfi name =>
    simp only [lockCall]
    rcases mknodLocked_cases hfree dfi name with he | ⟨s', he, hheld⟩ <;> rw [he]
    · exact ⟨by simp, fun s' h => by cases h⟩
    · refine ⟨by simp, fun s'' h => ?_⟩
      cases h
      exact iff_of_false hheld id
  | discard e =>
    simp only [lockCall, callbackLocked, RejectedDelete]
    split_ifs
    · exact ⟨deleteLocked_no_spin hfree, fun s' h => deleteLocked_allFree_iff hfree h⟩
    · exact ⟨deleteLocked_no_spin hfree, fun s' h => deleteLocked_allFree_iff hfree h⟩

/-- While every call has been a delete that is turned away, all locks are free and no call waits;
and the next call keeps that exactly when it is such a delete again. -/
theorem bucketLocks_run {sb : SbInfo} {s : LockState}
    (h : Reach lockStep RejectedDelete ⟨sb, fun _ _ => false⟩ s) :
    AllFree s.lock ∧ ∀ op, lockCall s op ≠ .error .spins ∧
      ∀ s', lockCall s op = .ok s' → (AllFree s'.lock ↔ RejectedDelete s op) := by
  have hfree : AllFree s.lock := by
    apply h.invariant (fun s => AllFree s.lock) fun _ _ => rfl
    intro s op s' hfree hok hstep
    have hcall : lockCall s op = .ok s' := by
      unfold lockStep at hstep
      cases hc : lockCall s op with
      | error e =>
        rw [hc] at hstep
        cases hstep
      | ok s'' =>
        rw [hc] at hstep
        cases hstep
        rfl
    exact ((lockCall_allFree hfree op).2 s' hcall).mpr hok
  exact ⟨hfree, lockCall_allFree hfree⟩

def zeroLocks : LockState := ⟨fillSuper (fun _ _ => 0) (fun _ => ⟨0, 0, 0⟩), fun _ _ => false⟩

/-- The discard of a big file of directory 3: the bucket number stored for it has bits of the
directory id above it and is turned away. -/
theorem bucketLocks_run_rejected : ∃ s,
    run lockStep RejectedDelete zeroLocks [.discard ⟨3, 3 * 2 ^ 18 + 97, 0, 1, 0⟩] = some s ∧
    AllFree s.lock := by
  obtain ⟨s, hrun, -⟩ := exists_of_check
    (r := run lockStep RejectedDelete zeroLocks [.discard ⟨3, 3 * 2 ^ 18 + 97, 0, 1, 0⟩])
    (p := fun _ => True) (by decide +kernel)
  exact ⟨s, hrun, (bucketLocks_run (.of_run hrun)).1⟩

/-- The create of `a` returns with the lock of its bucket held, and the create of `jz9` in the
same bucket waits for it for ever. -/
theorem mknod_keeps_lock : ∃ s,
    run lockStep anyStep zeroLocks [.mknod (rootInfo ⟨0, fun _ => 0⟩) [97]] = some s ∧
    s.lock (.small 2) 97 = true ∧
    lockCall s (.mknod (rootInfo ⟨0, fun _ => 0⟩) [106, 122, 57]) = .error .spins := by
  obtain ⟨s, hrun, hheld, hspins⟩ := exists_of_check
    (r := run lockStep anyStep zeroLocks [.mknod (rootInfo ⟨0, fun _ => 0⟩) [97]])
    (p := fun s => s.lock (.small 2) 97 = true ∧
      (match lockCall s (.mknod (rootInfo ⟨0, fun _ => 0⟩) [106, 122, 57]) with
        | .error e => decide (e = .spins)
        | .ok _ => false) = true) (by decide +kernel)
  refine ⟨s, hrun, hheld, ?_⟩
  split at hspins
  · rename_i e he
    rw [he, of_decide_eq_true hspins]
  · cases hspins

end FlatFS
