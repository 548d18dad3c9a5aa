import FlatFS.FileData

namespace FlatFS
open Lib

/-- The two sizes of a file: `size` of its inode info, and the `i_size` of the kernel. -/
@[ext]
structure FileSizes where
  size : ℕ
  iSize : ℕ
deriving DecidableEq

def FileData.sizes {β : Type*} (s : FileData β) : FileSizes := ⟨s.size, s.iSize⟩

namespace FileSizes

/-- The end of `ffs_write_begin`. It does not look at what `block_write_begin` has returned. -/
def writeBegin (s : FileSizes) (pos len : ℕ) : FileSizes :=
  { s with size := if pos + len ≥ s.size then pos + len else s.size }

def writeEnd (s : FileSizes) (pos copied : ℕ) : FileSizes :=
  { s with iSize := max s.iSize (pos + copied) }

section

variable (s : FileSizes) (pos n : ℕ)

theorem size_writeBegin : (s.writeBegin pos n).size = max s.size (pos + n) := by
  show (if pos + n ≥ s.size then pos + n else s.size) = _
  split_ifs <;> omega

theorem iSize_writeBegin : (s.writeBegin pos n).iSize = s.iSize := rfl

theorem size_writeEnd : (s.writeEnd pos n).size = s.size := rfl

theorem iSize_writeEnd : (s.writeEnd pos n).iSize = max s.iSize (pos + n) := rfl

end

end FileSizes

/-- A write of `len` bytes at `pos`: `block_write_begin` fails, or a part of the bytes is copied. -/
inductive WriteAttempt
  | fails (pos len : ℕ)
  | copies (pos len copied : ℕ)

def attemptStep (s : FileSizes) : WriteAttempt → Option FileSizes
  | .fails pos len => if pos + len < 2 ^ 63 then some (s.writeBegin pos len) else none
  | .copies pos len copied =>
    if pos + len < 2 ^ 63 ∧ copied ≤ len then some ((s.writeBegin pos len).writeEnd pos copied)
    else none

section sizes

variable {β : Type*} (inj : UInt8 → β) (fi : FfsInodeInfo)

theorem sizes_writeBegin (s : FileData β) (pos len : ℕ) :
    (ffsWriteBegin inj fi s pos len).sizes = s.sizes.writeBegin pos len := rfl

theorem sizes_writeEnd (s : FileData β) (pos : ℕ) (data : List UInt8) :
    (genericWriteEnd inj s pos data).sizes = s.sizes.writeEnd pos data.length := rfl

/-- A write of a file with its data is an attempt that copies everything; no other operation
changes a size. -/
theorem fileStep_sizes {s s' : FileData β} {op : FileOp} (h : fileStep inj fi s op = some s') :
    (∃ pos data, op = .write pos data ∧
      attemptStep s.sizes (.copies pos data.length data.length) = some s'.sizes) ∨
    s'.sizes = s.sizes := by
  cases op with
  | write pos data =>
    simp only [fileStep] at h
    split_ifs at h with hg
    cases h
    refine .inl ⟨pos, data, rfl, ?_⟩
    rw [attemptStep, if_pos ⟨hg.2.2, le_rfl⟩, sizes_writeEnd, sizes_writeBegin]
  | readpage k =>
    simp only [fileStep] at h
    split_ifs at h
    cases h
    rw [ffsReadpage]
    cases s.cache k <;> exact .inr rfl
  | writepage k =>
    simp only [fileStep] at h
    obtain ⟨page, -, h⟩ := Option.bind_eq_some_iff.mp h
    split_ifs at h
    cases h
    exact .inr rfl
  | releasepage k =>
    simp only [fileStep] at h
    obtain ⟨page, -, h⟩ := Option.bind_eq_some_iff.mp h
    split_ifs at h
    cases h
    exact .inr rfl

end sizes

/-- The sizes agree after the attempt, and an attempt that fails has changed neither. -/
def AttemptRight (s s' : FileSizes) : WriteAttempt → Prop
  | .fails _ _ => s'.size = s'.iSize ∧ s' = s
  | .copies _ _ _ => s'.size = s'.iSize

/-- The attempt copies everything, or it ends inside the file. -/
def FullOrInside (s : FileSizes) : WriteAttempt → Prop
  | .fails pos len => pos + len ≤ s.size
  | .copies pos len copied => copied = len ∨ pos + len ≤ s.size

instance (s : FileSizes) : (a : WriteAttempt) → Decidable (FullOrInside s a)
  | .fails _ _ => inferInstanceAs (Decidable (_ ≤ _))
  | .copies _ _ _ => inferInstanceAs (Decidable (_ ∨ _))

theorem attemptRight_iff {s s' : FileSizes} (heq : s.size = s.iSize) {a : WriteAttempt}
    (h : attemptStep s a = some s') : AttemptRight s s' a ↔ FullOrInside s a := by
  cases a with
  | fails pos len =>
    obtain ⟨-, he⟩ := Option.ite_none_right_eq_some.mp h
    cases he
    rw [AttemptRight, FullOrInside, FileSizes.ext_iff, FileSizes.size_writeBegin,
      FileSizes.iSize_writeBegin]
    omega
  | copies pos len copied =>
    obtain ⟨⟨-, hle⟩, he⟩ := Option.ite_none_right_eq_some.mp h
    cases he
    rw [AttemptRight, FullOrInside, FileSizes.size_writeEnd, FileSizes.iSize_writeEnd,
      FileSizes.size_writeBegin, FileSizes.iSize_writeBegin]
    omega

/-- In every run of attempts on a new file that copy everything or end inside the file, the two
sizes agree; and the next attempt leaves them right exactly when it does so too. -/
theorem attempts_run {s : FileSizes} (h : Reach attemptStep FullOrInside ⟨0, 0⟩ s) :
    s.size = s.iSize ∧
      ∀ a s', attemptStep s a = some s' → (AttemptRight s s' a ↔ FullOrInside s a) := by
  have heq : s.size = s.iSize := by
    refine h.invariant (fun s => s.size = s.iSize) rfl ?_
    intro s a s' hs hok hstep
    have hright := (attemptRight_iff hs hstep).mpr hok
    cases a with
    | fails pos len => exact hright.1
    | copies pos len copied => exact hright
  exact ⟨heq, fun a s' hstep => attemptRight_iff heq hstep⟩

theorem attempts_run_inside : ∃ s, run attemptStep FullOrInside ⟨0, 0⟩
      [.copies 0 100 100, .copies 10 20 5, .fails 50 50] = some s ∧
    s.size = 100 ∧ s.size = s.iSize := by
  obtain ⟨s, hrun, hsize⟩ := exists_of_check
    (r := run attemptStep FullOrInside ⟨0, 0⟩
      [.copies 0 100 100, .copies 10 20 5, .fails 50 50])
    (p := fun s => s.size = 100) (by decide +kernel)
  exact ⟨s, hrun, hsize, (attempts_run (.of_run hrun)).1⟩

/-- A write of one byte fails in `block_write_begin`, and the inode info has the size 1. -/
theorem failed_write_grows : ∃ s', attemptStep ⟨0, 0⟩ (.fails 0 1) = some s' ∧
    s'.size = 1 ∧ s'.iSize = 0 ∧ ¬ AttemptRight ⟨0, 0⟩ s' (.fails 0 1) :=
  ⟨⟨1, 0⟩, rfl, rfl, rfl, fun h => absurd h.1 (by decide)⟩

section flags

variable {β : Type*} (inj : UInt8 → β) (fi : FfsInodeInfo) (dev : BitVec 64 → ℕ → β)

/-- A new file after calls of `ffs_write_begin`, each given by its offset and its length. -/
def writeBegins (ws : List (ℕ × ℕ)) : FileData β :=
  ws.foldl (fun s w => ffsWriteBegin inj fi s w.1 w.2) (newFile dev)

def lastEnd (ws : List (ℕ × ℕ)) : ℕ := ws.foldl (fun e w => max e (w.1 + w.2)) 0

theorem size_writeBegins (ws : List (ℕ × ℕ)) : (writeBegins inj fi dev ws).size = lastEnd ws := by
  refine (List.foldl_hom FileData.size fun s w => ?_).symm
  change max s.size (w.1 + w.2) = if w.1 + w.2 ≥ s.size then w.1 + w.2 else s.size
  split_ifs <;> omega

theorem lastEnd_lt {ws : List (ℕ × ℕ)} {m : ℕ} (hm : 0 < m) (h : ∀ w ∈ ws, w.1 + w.2 < m) :
    lastEnd ws < m := by
  induction ws using List.reverseRecOn with
  | nil => exact hm
  | append_singleton ws w ih =>
    rw [lastEnd, List.foldl_append]
    exact max_lt (ih fun v hv => h v (List.mem_append_left _ hv)) (h w (by simp))

/-- The buffer of a block is flagged new exactly when the block begins at the end of the file or
behind it. -/
def FlagRight (s : FileData β) (iblock : BitVec 64) : Prop :=
  (ffsGetBlockPrep fi s.size iblock).isNew = true ↔ s.size ≤ iblock.toNat * 4096

theorem isNew_iff {size : ℕ} (h : size < 2 ^ 63) (iblock : BitVec 64) :
    (ffsGetBlockPrep fi size iblock).isNew = true ↔ size ≤ iblock.toNat := by
  rw [ffsGetBlockPrep, decide_eq_true_iff, BitVec.ofInt_natCast, BitVec.le_def, BitVec.toNat_ofNat,
    Nat.mod_eq_of_lt (by omega)]

/-- The flag is wrong exactly for the blocks that begin at the end of the file or behind it and have
a number less than the size in bytes. Only in a file of at most one byte there are none. -/
theorem flagRight_iff {ws : List (ℕ × ℕ)} (h : ∀ w ∈ ws, 1 ≤ w.2 ∧ w.1 + w.2 < 2 ^ 63) :
    (∀ iblock, FlagRight fi (writeBegins inj fi dev ws) iblock ↔
      ¬ (iblock.toNat < lastEnd ws ∧ lastEnd ws ≤ iblock.toNat * 4096)) ∧
    ((∀ iblock, FlagRight fi (writeBegins inj fi dev ws) iblock) ↔ lastEnd ws ≤ 1) := by
  have hlt : lastEnd ws < 2 ^ 63 := lastEnd_lt (by norm_num) fun w hw => (h w hw).2
  have hone : ∀ iblock, FlagRight fi (writeBegins inj fi dev ws) iblock ↔
      ¬ (iblock.toNat < lastEnd ws ∧ lastEnd ws ≤ iblock.toNat * 4096) := by
    intro iblock
    rw [FlagRight, size_writeBegins, isNew_iff fi hlt]
    omega
  refine ⟨hone, ?_⟩
  simp only [hone]
  constructor
  · intro hall
    by_contra hgt
    -- the first block behind the end of the file
    have hblk : (BitVec.ofNat 64 ((lastEnd ws + 4095) / 4096)).toNat =
        (lastEnd ws + 4095) / 4096 := by
      rw [BitVec.toNat_ofNat, Nat.mod_eq_of_lt (by omega)]
    apply hall (BitVec.ofNat 64 ((lastEnd ws + 4095) / 4096))
    rw [hblk]
    omega
  · intro hle iblock hwrong
    omega

end flags

theorem flagRight_two_bytes : lastEnd [(0, 2)] = 2 ∧
    FlagRight (fileAt 2 1123 0 0) (writeBegins id (fileAt 2 1123 0 0) (fun _ _ => 0) [(0, 2)]) 0 :=
  ⟨rfl, ((flagRight_iff id (fileAt 2 1123 0 0) (fun _ _ => 0)
    (by decide : ∀ w ∈ [(0, 2)], 1 ≤ w.2 ∧ w.1 + w.2 < 2 ^ 63)).1 0).mpr (by decide)⟩

/-- Block 1 lies behind a file of two bytes and is not flagged new. -/
theorem block_one_not_new : ¬ FlagRight (fileAt 2 1123 0 0)
    (writeBegins id (fileAt 2 1123 0 0) (fun _ _ => 0) [(0, 2)]) 1 := by
  have hsize : (writeBegins id (fileAt 2 1123 0 0) (fun _ _ => 0) [(0, 2)]).size = 2 := rfl
  rw [FlagRight, hsize]
  decide +kernel

end FlatFS
