import FlatFS.CuckooHash
import FlatFS.Lib.Mix

namespace FlatFS.Cuckoo
open Lib Function

abbrev number64_1 : BitVec 64 := 11400714785074694791#64
abbrev number64_2 : BitVec 64 := 14029467366897019727#64
abbrev number64_3 : BitVec 64 := 1609587929392839161#64
abbrev number64_4 : BitVec 64 := 9650029242287828579#64
abbrev number64_5 : BitVec 64 := 2870177450012600261#64

def shiftingHash (x : BitVec 64) (r : ℕ) : BitVec 64 := x <<< r ||| x >>> (64 - r)

def leWord (w n : ℕ) (p : List UInt8) : BitVec w :=
  BitVec.ofNat w (Nat.ofDigits 256 ((p.take n).map UInt8.toNat))

def to64 (p : List UInt8) : BitVec 64 := leWord 64 8 p

def to32 (p : List UInt8) : BitVec 32 := leWord 32 4 p

def hashRead64Align (ptr : List UInt8) (align : BitVec 32) : BitVec 64 :=
  if align = 0 then to64 ptr else leWord 64 8 ptr

def hashRead32Align (ptr : List UInt8) (align : BitVec 32) : BitVec 32 :=
  if align = 0 then to32 ptr else leWord 32 4 ptr

structure Accumulators where
  v1 : BitVec 64
  v2 : BitVec 64
  v3 : BitVec 64
  v4 : BitVec 64

/-- `v += word * NUMBER64_2`, then a rotation and `v *= NUMBER64_1`. -/
def stripeRound (v word : BitVec 64) : BitVec 64 :=
  shiftingHash (v + word * number64_2) 31 * number64_1

def stripe (align : BitVec 32) (v : Accumulators) (p : List UInt8) : Accumulators :=
  ⟨stripeRound v.v1 (hashRead64Align p align),
    stripeRound v.v2 (hashRead64Align (p.drop 8) align),
    stripeRound v.v3 (hashRead64Align (p.drop 16) align),
    stripeRound v.v4 (hashRead64Align (p.drop 24) align)⟩

/-- `do .. while (p <= limitation)`: one more stripe while 32 bytes are left. -/
def stripeLoop (align : BitVec 32) (v : Accumulators) (p : List UInt8) :
    Accumulators × List UInt8 :=
  if 32 ≤ (p.drop 32).length then stripeLoop align (stripe align v p) (p.drop 32)
  else (stripe align v p, p.drop 32)
termination_by p.length
decreasing_by
  rw [List.length_drop] at *
  omega

/-- `hash ^= v` of a scrambled accumulator, then `hash * NUMBER64_1 + NUMBER64_4`. -/
def mergeRound (hash v : BitVec 64) : BitVec 64 :=
  (hash ^^^ shiftingHash (v * number64_2) 31 * number64_1) * number64_1 + number64_4

def merge (v : Accumulators) : BitVec 64 :=
  let hash := shiftingHash v.v1 1 + shiftingHash v.v2 7 + shiftingHash v.v3 12 +
    shiftingHash v.v4 18
  mergeRound (mergeRound (mergeRound (mergeRound hash v.v1) v.v2) v.v3) v.v4

def mixWord (hash k1 : BitVec 64) : BitVec 64 :=
  shiftingHash (hash ^^^ shiftingHash (k1 * number64_2) 31 * number64_1) 27 * number64_1 +
    number64_4

def mixHalf (hash : BitVec 64) (k : BitVec 32) : BitVec 64 :=
  shiftingHash (hash ^^^ k.setWidth 64 * number64_1) 23 * number64_2 + number64_3

def mixByte (hash : BitVec 64) (c : UInt8) : BitVec 64 :=
  shiftingHash (hash ^^^ c.toBitVec.setWidth 64 * number64_5) 11 * number64_1

/-- `while (p + 8 <= end)`. -/
def wordLoop (align : BitVec 32) (hash : BitVec 64) (p : List UInt8) : BitVec 64 × List UInt8 :=
  if 8 ≤ p.length then wordLoop align (mixWord hash (hashRead64Align p align)) (p.drop 8)
  else (hash, p)
termination_by p.length
decreasing_by
  rw [List.length_drop]
  omega

/-- `if (p + 4 <= end)`. -/
def halfStep (align : BitVec 32) (hash : BitVec 64) (p : List UInt8) : BitVec 64 × List UInt8 :=
  if 4 ≤ p.length then (mixHalf hash (hashRead32Align p align), p.drop 4) else (hash, p)

/-- The words, the half word and the bytes behind the last stripe, in this order. -/
def mixTail (align : BitVec 32) (hash : BitVec 64) (p : List UInt8) : BitVec 64 :=
  let words := wordLoop align hash p
  let half := halfStep align words.1 words.2
  half.2.foldl mixByte half.1

def avalanche (hash : BitVec 64) : BitVec 64 :=
  let hash := (hash ^^^ hash >>> 33) * number64_2
  let hash := (hash ^^^ hash >>> 29) * number64_3
  hash ^^^ hash >>> 32

/-- The first part: a hash of the full stripes, or of the seed alone, and what is left of the
data. -/
def startHash (align : BitVec 32) (data : List UInt8) (seed : BitVec 64) :
    BitVec 64 × List UInt8 :=
  if 32 ≤ data.length then
    let stripes := stripeLoop align
      ⟨seed + number64_1 + number64_2, seed + number64_2, seed + 0, seed - number64_1⟩ data
    (merge stripes.1, stripes.2)
  else (seed + number64_5, data)

def stringKeyHashComputation (data : List UInt8) (seed : BitVec 64) (align : BitVec 32) :
    BitVec 64 :=
  let start := startHash align data seed
  avalanche (mixTail align (start.1 + BitVec.ofNat 64 data.length) start.2)

def hash (addr : BitVec 64) (data : List UInt8) (seed : BitVec 64) : BitVec 64 :=
  if addr &&& 7 = 0 then stringKeyHashComputation data seed 1
  else stringKeyHashComputation data seed 0

structure Seeds where
  fSeed : BitVec 64
  sSeed : BitVec 64
deriving DecidableEq

/-- The bytes of a key that `strlen` counts. -/
def keyBytes (key : CStr) : List UInt8 := key.takeWhile (· ≠ 0)

def fHash (cuckoo : Seeds) (addr : BitVec 64) (key : CStr) : BitVec 64 :=
  hash addr (keyBytes key) cuckoo.fSeed

def sHash (cuckoo : Seeds) (addr : BitVec 64) (key : CStr) : BitVec 64 :=
  hash addr (keyBytes key) cuckoo.sSeed

/-- The words of `get_random_bytes` in one round of `generate_seeds`. -/
structure Draw where
  seed1 : BitVec 64
  seed2 : BitVec 64
  seed3 : BitVec 64
  seed4 : BitVec 64

def Draw.seeds (d : Draw) : Seeds :=
  ⟨d.seed1 <<< (d.seed3.toNat % 63), d.seed2 <<< (d.seed4.toNat % 63)⟩

/-- `generate_seeds` on the words that are drawn; `none` when the loop is not over behind them. -/
def generateSeeds : List Draw → Option Seeds
  | [] => none
  | d :: draws => if d.seeds.fSeed = d.seeds.sSeed then generateSeeds draws else some d.seeds

theorem shiftingHash_injective {r : ℕ} (hr : r ≤ 64) : Injective (shiftingHash · r) :=
  rotate_injective hr

theorem mul1_injective : Injective fun x : BitVec 64 => x * number64_1 :=
  mul_odd_injective (by decide)

theorem mul2_injective : Injective fun x : BitVec 64 => x * number64_2 :=
  mul_odd_injective (by decide)

theorem mul3_injective : Injective fun x : BitVec 64 => x * number64_3 :=
  mul_odd_injective (by decide)

theorem mul5_injective : Injective fun x : BitVec 64 => x * number64_5 :=
  mul_odd_injective (by decide)

theorem scramble_injective :
    Injective fun k1 : BitVec 64 => shiftingHash (k1 * number64_2) 31 * number64_1 :=
  mul1_injective.comp ((shiftingHash_injective (by decide)).comp mul2_injective)

theorem mixWord_spread_injective : Injective fun x : BitVec 64 =>
    shiftingHash x 27 * number64_1 + number64_4 :=
  (add_word_injective number64_4).comp
    (mul1_injective.comp (shiftingHash_injective (by decide)))

theorem mixHalf_spread_injective : Injective fun x : BitVec 64 =>
    shiftingHash x 23 * number64_2 + number64_3 :=
  (add_word_injective number64_3).comp
    (mul2_injective.comp (shiftingHash_injective (by decide)))

theorem mixByte_spread_injective : Injective fun x : BitVec 64 =>
    shiftingHash x 11 * number64_1 :=
  mul1_injective.comp (shiftingHash_injective (by decide))

theorem mixWord_injective (k1 : BitVec 64) : Injective (mixWord · k1) :=
  mixWord_spread_injective.comp (xor_word_injective _)

theorem mixHalf_injective (k : BitVec 32) : Injective (mixHalf · k) :=
  mixHalf_spread_injective.comp (xor_word_injective _)

theorem mixByte_injective (c : UInt8) : Injective (mixByte · c) :=
  mixByte_spread_injective.comp (xor_word_injective _)

theorem avalanche_injective : Injective avalanche :=
  (xorShift_injective (by decide)).comp (mul3_injective.comp
    ((xorShift_injective (by decide)).comp (mul2_injective.comp
      (xorShift_injective (by decide)))))

theorem mixWord_lane_injective (hash : BitVec 64) : Injective (mixWord hash) :=
  mixWord_spread_injective.comp ((word_xor_injective hash).comp scramble_injective)

theorem mixHalf_lane_injective (hash : BitVec 64) : Injective (mixHalf hash) :=
  mixHalf_spread_injective.comp ((word_xor_injective hash).comp
    (mul1_injective.comp (zeroExtend_injective (by decide))))

theorem mixByte_lane_injective (hash : BitVec 64) : Injective (mixByte hash) := by
  have hbyte : Injective fun c : UInt8 => c.toBitVec.setWidth 64 * number64_5 :=
    mul5_injective.comp ((zeroExtend_injective (by decide)).comp fun _ _ => UInt8.toBitVec_inj.mp)
  exact mixByte_spread_injective.comp ((word_xor_injective hash).comp hbyte)

theorem leWord_injective {w n : ℕ} (hw : 8 * n = w) {x y : List UInt8} (hx : x.length = n)
    (hy : y.length = n) (s t : List UInt8) (h : leWord w n (x ++ s) = leWord w n (y ++ t)) :
    x = y := by
  have hlt : ∀ z : List UInt8, ∀ d ∈ z.map UInt8.toNat, d < 256 := by
    intro z d hd
    obtain ⟨c, -, rfl⟩ := List.mem_map.mp hd
    exact c.toNat_lt
  have hbound : ∀ z : List UInt8, z.length = n → Nat.ofDigits 256 (z.map UInt8.toNat) < 2 ^ w := by
    intro z hz
    have hz' := Nat.ofDigits_lt_base_pow_length (by norm_num) (hlt z)
    rwa [List.length_map, hz, show 256 = 2 ^ 8 by norm_num, ← pow_mul, hw] at hz'
  have he := congrArg BitVec.toNat h
  rw [leWord, leWord, List.take_left' hx, List.take_left' hy, BitVec.toNat_ofNat,
    BitVec.toNat_ofNat, Nat.mod_eq_of_lt (hbound x hx), Nat.mod_eq_of_lt (hbound y hy)] at he
  have hdigits := Nat.ofDigits_inj_of_len_eq (by norm_num) (by simp [hx, hy]) (hlt x) (hlt y) he
  exact List.map_injective_iff.mpr (fun _ _ => UInt8.toNat_inj.mp) hdigits

theorem leWord_append {w n : ℕ} {x : List UInt8} (h : n ≤ x.length) (t : List UInt8) :
    leWord w n (x ++ t) = leWord w n x := by
  rw [leWord, leWord, List.take_append_of_le_length h]

theorem hashRead64Align_eq (ptr : List UInt8) (align : BitVec 32) :
    hashRead64Align ptr align = to64 ptr := by
  unfold hashRead64Align
  split <;> rfl

theorem hashRead32Align_eq (ptr : List UInt8) (align : BitVec 32) :
    hashRead32Align ptr align = to32 ptr := by
  unfold hashRead32Align
  split <;> rfl

section Tail
variable (align : BitVec 32) (hash : BitVec 64)

theorem mixTail_word {x : List UInt8} (hx : x.length = 8) (t : List UInt8) :
    mixTail align hash (x ++ t) = mixTail align (mixWord hash (to64 x)) t := by
  have hlen : 8 ≤ (x ++ t).length := by
    rw [List.length_append]
    omega
  have hloop : wordLoop align hash (x ++ t) = wordLoop align (mixWord hash (to64 x)) t := by
    rw [wordLoop, if_pos hlen, hashRead64Align_eq, to64, leWord_append hx.ge, List.drop_left' hx,
      to64]
  rw [mixTail, hloop, mixTail]

theorem wordLoop_short {t : List UInt8} (ht : t.length < 8) :
    wordLoop align hash t = (hash, t) := by
  rw [wordLoop, if_neg (Nat.not_le.mpr ht)]

theorem mixTail_half {x : List UInt8} (hx : x.length = 4) {t : List UInt8} (ht : t.length < 4) :
    mixTail align hash (x ++ t) = t.foldl mixByte (mixHalf hash (to32 x)) := by
  have hlen : (x ++ t).length < 8 := by
    rw [List.length_append]
    omega
  have hfour : 4 ≤ (x ++ t).length := by
    rw [List.length_append]
    omega
  rw [mixTail, wordLoop_short align hash hlen, halfStep, if_pos hfour, hashRead32Align_eq, to32,
    leWord_append hx.ge, List.drop_left' hx, to32]

theorem mixTail_short {t : List UInt8} (ht : t.length < 4) :
    mixTail align hash t = t.foldl mixByte hash := by
  rw [mixTail, wordLoop_short align hash (by omega), halfStep, if_neg (Nat.not_le.mpr ht)]

/-- The bytes of a tail permute the hash they are mixed into. -/
theorem mixTail_injective (p : List UInt8) : Injective fun hash => mixTail align hash p := by
  induction hn : p.length using Nat.strongRecOn generalizing p with
  | ind n ih =>
    by_cases h8 : 8 ≤ p.length
    · have hword := mixTail_word align (x := p.take 8) (t := p.drop 8)
      rw [List.take_append_drop] at hword
      have hx : (p.take 8).length = 8 := List.length_take_of_le h8
      have hrest := ih (p.drop 8).length (by rw [List.length_drop]; omega) (p.drop 8) rfl
      intro a b h
      apply mixWord_injective (to64 (p.take 8))
      apply hrest
      simpa only [hword _ hx] using h
    · by_cases h4 : 4 ≤ p.length
      · have hhalf := mixTail_half align (x := p.take 4) (t := p.drop 4)
        rw [List.take_append_drop] at hhalf
        have hx : (p.take 4).length = 4 := List.length_take_of_le h4
        have ht : (p.drop 4).length < 4 := by
          rw [List.length_drop]
          omega
        intro a b h
        apply mixHalf_injective (to32 (p.take 4))
        apply foldl_injective mixByte_injective (p.drop 4)
        simpa only [hhalf _ hx ht] using h
      · intro a b h
        apply foldl_injective mixByte_injective p
        simpa only [mixTail_short align _ (Nat.not_le.mp h4)] using h

/-- The `len` bytes from position `a` of a tail of `n` bytes are mixed in at once: as a word, as the
half word behind the words, or as a single byte behind both. -/
def TailLane (n a len : ℕ) : Prop :=
  a + len ≤ n ∧ (len = 8 ∧ 8 ∣ a ∨ len = 4 ∧ 8 ∣ a ∧ n < a + 8 ∨ len = 1 ∧ 4 * (n / 4) ≤ a)

instance (n a len : ℕ) : Decidable (TailLane n a len) := inferInstanceAs (Decidable (_ ∧ _))

theorem mixTail_front_ne {u x y v : List UInt8} (hxy : x ≠ y) (hlen : x.length = y.length)
    (hu : u.length < 8) (h : TailLane (u.length + x.length + v.length) u.length x.length) :
    mixTail align hash (u ++ (x ++ v)) ≠ mixTail align hash (u ++ (y ++ v)) := by
  obtain ⟨-, ⟨h8, hdvd⟩ | ⟨h4, hdvd, hend⟩ | ⟨h1, ha⟩⟩ := h
  · have hnil : u = [] := List.length_eq_zero_iff.mp (by omega)
    subst hnil
    rw [List.nil_append, List.nil_append, mixTail_word align hash h8,
      mixTail_word align hash (hlen ▸ h8)]
    intro he
    have hword := mixWord_lane_injective hash (mixTail_injective align v he)
    apply hxy
    apply leWord_injective (show 8 * 8 = 64 from rfl) h8 (hlen ▸ h8) [] []
    rwa [List.append_nil, List.append_nil]
  · have hnil : u = [] := List.length_eq_zero_iff.mp (by omega)
    subst hnil
    have hv : v.length < 4 := by omega
    rw [List.nil_append, List.nil_append, mixTail_half align hash h4 hv,
      mixTail_half align hash (hlen ▸ h4) hv]
    intro he
    have hhalf := mixHalf_lane_injective hash (foldl_injective mixByte_injective v he)
    apply hxy
    apply leWord_injective (show 8 * 4 = 32 from rfl) h4 (hlen ▸ h4) [] []
    rwa [List.append_nil, List.append_nil]
  · obtain ⟨c, rfl⟩ := List.length_eq_one_iff.mp h1
    obtain ⟨d, rfl⟩ := List.length_eq_one_iff.mp (hlen ▸ h1)
    have hcd : c ≠ d := fun he => hxy (congrArg (fun e => [e]) he)
    rw [List.singleton_append, List.singleton_append]
    have hbytes := fun s us => foldl_ne_of_lane mixByte_injective mixByte_lane_injective s us v hcd
    have hone : [c].length = 1 := rfl
    by_cases hu4 : 4 ≤ u.length
    · -- the half word lies in front of the byte
      have hx : (u.take 4).length = 4 := List.length_take_of_le hu4
      have ht : ∀ e : UInt8, (u.drop 4 ++ e :: v).length < 4 := by
        intro e
        rw [List.length_append, List.length_drop, List.length_cons]
        omega
      rw [← List.take_append_drop 4 u, List.append_assoc, List.append_assoc,
        mixTail_half align hash hx (ht c), mixTail_half align hash hx (ht d)]
      exact hbytes _ _
    · have ht : ∀ e : UInt8, (u ++ e :: v).length < 4 := by
        intro e
        rw [List.length_append, List.length_cons]
        omega
      rw [mixTail_short align hash (ht c), mixTail_short align hash (ht d)]
      exact hbytes _ _

theorem mixTail_ne {u x y v : List UInt8} (hxy : x ≠ y) (hlen : x.length = y.length)
    (h : TailLane (u.length + x.length + v.length) u.length x.length) :
    mixTail align hash (u ++ (x ++ v)) ≠ mixTail align hash (u ++ (y ++ v)) := by
  induction hn : u.length using Nat.strongRecOn generalizing u hash with
  | ind n ih =>
    by_cases hu : u.length < 8
    · exact mixTail_front_ne align hash hxy hlen hu h
    · have hw : (u.take 8).length = 8 := List.length_take_of_le (by omega)
      have hd : (u.drop 8).length = u.length - 8 := List.length_drop
      have hlane :
          TailLane ((u.drop 8).length + x.length + v.length) (u.drop 8).length x.length := by
        unfold TailLane at h ⊢
        omega
      rw [← List.take_append_drop 8 u, List.append_assoc, List.append_assoc,
        mixTail_word align hash hw, mixTail_word align hash hw]
      exact ih (u.drop 8).length (by omega) _ hlane rfl

end Tail

theorem stripe_append (align : BitVec 32) (v : Accumulators) {s : List UInt8} (hs : 32 ≤ s.length)
    (t : List UInt8) : stripe align v (s ++ t) = stripe align v s := by
  have hread : ∀ k ≤ 24, to64 ((s ++ t).drop k) = to64 (s.drop k) := by
    intro k hk
    rw [List.drop_append_of_le_length (by omega)]
    apply leWord_append
    rw [List.length_drop]
    omega
  have h0 := hread 0 (by decide)
  rw [List.drop_zero, List.drop_zero] at h0
  simp only [stripe, hashRead64Align_eq, h0, hread 8 (by decide), hread 16 (by decide),
    hread 24 (by decide)]

theorem stripeLoop_append (align : BitVec 32) (v : Accumulators) {s : List UInt8}
    (hs : 32 ∣ s.length) (hpos : 0 < s.length) :
    ∃ v', ∀ t : List UInt8, t.length < 32 → stripeLoop align v (s ++ t) = (v', t) := by
  induction hn : s.length using Nat.strongRecOn generalizing s v with
  | ind n ih =>
    have hge : 32 ≤ s.length := Nat.le_of_dvd hpos hs
    have hdrop : ∀ t : List UInt8, (s ++ t).drop 32 = s.drop 32 ++ t := fun t =>
      List.drop_append_of_le_length hge
    have hd : (s.drop 32).length = s.length - 32 := List.length_drop
    by_cases hmore : 0 < (s.drop 32).length
    · obtain ⟨v', hv'⟩ := ih (s.drop 32).length (by omega) (stripe align v s) (by omega) hmore rfl
      refine ⟨v', fun t ht => ?_⟩
      have hlen : 32 ≤ ((s ++ t).drop 32).length := by
        rw [hdrop, List.length_append]
        omega
      rw [stripeLoop, if_pos hlen, stripe_append align v hge, hdrop]
      exact hv' t ht
    · have hnil : s.drop 32 = [] := List.length_eq_zero_iff.mp (by omega)
      refine ⟨stripe align v s, fun t ht => ?_⟩
      rw [stripeLoop, stripe_append align v hge, hdrop, hnil, List.nil_append,
        if_neg (Nat.not_le.mpr ht)]

theorem startHash_append (align : BitVec 32) (seed : BitVec 64) {s : List UInt8}
    (hs : 32 ∣ s.length) :
    ∃ start, ∀ t : List UInt8, t.length < 32 → startHash align (s ++ t) seed = (start, t) := by
  by_cases hpos : 0 < s.length
  · obtain ⟨v', hv'⟩ := stripeLoop_append align ⟨seed + number64_1 + number64_2, seed + number64_2,
      seed + 0, seed - number64_1⟩ hs hpos
    refine ⟨merge v', fun t ht => ?_⟩
    have hlen : 32 ≤ (s ++ t).length := by
      rw [List.length_append]
      exact Nat.le_add_right_of_le (Nat.le_of_dvd hpos hs)
    rw [startHash, if_pos hlen, hv' t ht]
  · have hnil : s = [] := List.length_eq_zero_iff.mp (by omega)
    refine ⟨seed + number64_5, fun t ht => ?_⟩
    rw [hnil, List.nil_append, startHash, if_neg (Nat.not_le.mpr ht)]

theorem stripe_align (align : BitVec 32) : stripe align = stripe 0 := by
  funext v p
  simp only [stripe, hashRead64Align_eq]

theorem stripeLoop_align (align : BitVec 32) (v : Accumulators) (p : List UInt8) :
    stripeLoop align v p = stripeLoop 0 v p := by
  induction hn : p.length using Nat.strongRecOn generalizing v p with
  | ind n ih =>
    rw [stripeLoop, stripeLoop.eq_def 0, stripe_align]
    split_ifs with h
    · have hlt : (p.drop 32).length < n := by
        rw [List.length_drop] at h ⊢
        omega
      exact ih _ hlt _ _ rfl
    · rfl

theorem wordLoop_align (align : BitVec 32) (hash : BitVec 64) (p : List UInt8) :
    wordLoop align hash p = wordLoop 0 hash p := by
  induction hn : p.length using Nat.strongRecOn generalizing hash p with
  | ind n ih =>
    rw [wordLoop, wordLoop.eq_def 0, hashRead64Align_eq, hashRead64Align_eq]
    split_ifs with h
    · have hlt : (p.drop 8).length < n := by
        rw [List.length_drop]
        omega
      exact ih _ hlt _ _ rfl
    · rfl

/-- The caller's copy of a key and the one in the table hash alike, however they are aligned. -/
theorem hash_eq (addr : BitVec 64) (data : List UInt8) (seed : BitVec 64) :
    hash addr data seed = stringKeyHashComputation data seed 0 := by
  have halign : ∀ align, stringKeyHashComputation data seed align =
      stringKeyHashComputation data seed 0 := by
    intro align
    simp only [stringKeyHashComputation, startHash, mixTail, halfStep, stripeLoop_align align,
      wordLoop_align align, hashRead32Align_eq]
  rw [hash, halign 1, ite_self]

def Seeds.hashes (cuckoo : Seeds) : Hashes := ⟨fHash cuckoo 0, sHash cuckoo 0⟩

theorem Seeds.hashes_eq (cuckoo : Seeds) (addr : BitVec 64) :
    (⟨fHash cuckoo addr, sHash cuckoo addr⟩ : Hashes) = cuckoo.hashes := by
  have hkey : ∀ seed, (fun key : CStr => hash addr (keyBytes key) seed) =
      fun key => hash 0 (keyBytes key) seed := by
    intro seed
    funext key
    rw [hash_eq, hash_eq]
  exact congrArg₂ Hashes.mk (hkey cuckoo.fSeed) (hkey cuckoo.sSeed)

/-- The `len` bytes from position `a` of a key of `n` bytes are one lane behind the last full
stripe. -/
def IsLane (n a len : ℕ) : Prop := 32 * (n / 32) ≤ a ∧ TailLane n a len

instance (n a len : ℕ) : Decidable (IsLane n a len) := inferInstanceAs (Decidable (_ ∧ _))

/-- Keys that differ in one lane alone never collide, under any seed. -/
theorem hash_lane_ne (addr addr' seed : BitVec 64) {u x y v : List UInt8} (hxy : x ≠ y)
    (hlen : x.length = y.length)
    (h : IsLane (u.length + x.length + v.length) u.length x.length) :
    hash addr (u ++ (x ++ v)) seed ≠ hash addr' (u ++ (y ++ v)) seed := by
  obtain ⟨hstripes, hlane⟩ := h
  set n := u.length + x.length + v.length with hn
  have hs : (u.take (32 * (n / 32))).length = 32 * (n / 32) := List.length_take_of_le hstripes
  have hd : (u.drop (32 * (n / 32))).length = u.length - 32 * (n / 32) := List.length_drop
  obtain ⟨start, hstart⟩ := startHash_append 0 seed (hs ▸ Nat.dvd_mul_right 32 (n / 32))
  have hsplit : ∀ z : List UInt8, u ++ (z ++ v) =
      u.take (32 * (n / 32)) ++ (u.drop (32 * (n / 32)) ++ (z ++ v)) := by
    intro z
    rw [← List.append_assoc (u.take _), List.take_append_drop]
  have htail : ∀ z : List UInt8, z.length = x.length →
      (u.drop (32 * (n / 32)) ++ (z ++ v)).length < 32 := by
    intro z hz
    rw [List.length_append, List.length_append, hd, hz]
    omega
  have hwhole : ∀ z : List UInt8, z.length = x.length → (u ++ (z ++ v)).length = n := by
    intro z hz
    rw [List.length_append, List.length_append, hz, hn, Nat.add_assoc]
  have hkey : ∀ addr, ∀ z : List UInt8, z.length = x.length → hash addr (u ++ (z ++ v)) seed =
      avalanche (mixTail 0 (start + BitVec.ofNat 64 n) (u.drop (32 * (n / 32)) ++ (z ++ v))) := by
    intro addr z hz
    rw [hash_eq, stringKeyHashComputation, hwhole z hz, hsplit z, hstart _ (htail z hz)]
  have hlane' : TailLane ((u.drop (32 * (n / 32))).length + x.length + v.length)
      (u.drop (32 * (n / 32))).length x.length := by
    unfold TailLane at hlane ⊢
    omega
  rw [hkey addr x rfl, hkey addr' y hlen.symm]
  exact fun he => mixTail_ne 0 _ hxy hlen hlane' (avalanche_injective he)

/-- Below the length of a stripe the hash is a permutation of the seed. -/
theorem hash_seed_injective (addr : BitVec 64) {data : List UInt8} (h : data.length < 32) :
    Injective (hash addr data) := by
  have hkey : hash addr data = fun seed =>
      avalanche (mixTail 0 (seed + number64_5 + BitVec.ofNat 64 data.length) data) := by
    funext seed
    rw [hash_eq, stringKeyHashComputation, startHash, if_neg (Nat.not_le.mpr h)]
  rw [hkey]
  exact avalanche_injective.comp ((mixTail_injective 0 data).comp
    ((add_word_injective _).comp (add_word_injective number64_5)))

/-- `generate_seeds` takes the first round that gives two different seeds. -/
theorem generateSeeds_eq (draws : List Draw) :
    generateSeeds draws = (draws.map Draw.seeds).find? fun s => s.fSeed ≠ s.sSeed := by
  induction draws with
  | nil => rfl
  | cons d draws ih =>
    rw [generateSeeds, List.map_cons, ih]
    by_cases h : d.seeds.fSeed = d.seeds.sSeed
    · rw [if_pos h, List.find?_cons_of_neg (by simpa using h)]
    · rw [if_neg h, List.find?_cons_of_pos (by simpa using h)]

/-- Two keys of one length that differ nowhere outside of one lane collide under no seed. -/
theorem hash_ne_of_lane (addr addr' seed : BitVec 64) {data data' : List UInt8}
    (hlen : data.length = data'.length) (hne : data ≠ data') {a len : ℕ}
    (hlane : IsLane data.length a len)
    (hout : ∀ i : ℕ, i < a ∨ a + len ≤ i → data[i]? = data'[i]?) :
    hash addr data seed ≠ hash addr' data' seed := by
  have hend : a + len ≤ data.length := hlane.2.1
  have hparts : ∀ d : List UInt8, d = d.take a ++ ((d.drop a).take len ++ d.drop (a + len)) := by
    intro d
    rw [← List.drop_drop, List.take_append_drop, List.take_append_drop]
  have hu : data.take a = data'.take a := by
    ext1 i
    by_cases hi : i < a
    · rw [List.getElem?_take_of_lt hi, List.getElem?_take_of_lt hi, hout i (Or.inl hi)]
    · rw [List.getElem?_take_eq_none (by omega), List.getElem?_take_eq_none (by omega)]
  have hv : data.drop (a + len) = data'.drop (a + len) := by
    ext1 i
    rw [List.getElem?_drop, List.getElem?_drop, hout _ (Or.inr (Nat.le_add_right _ _))]
  have hxy : (data.drop a).take len ≠ (data'.drop a).take len := by
    intro hx
    apply hne
    rw [hparts data, hparts data', hu, hx, hv]
  have hxlen : ((data.drop a).take len).length = ((data'.drop a).take len).length := by
    rw [List.length_take, List.length_take, List.length_drop, List.length_drop, hlen]
  have hx : ((data.drop a).take len).length = len := by
    rw [List.length_take, List.length_drop]
    omega
  have ha : (data.take a).length = a := List.length_take_of_le (by omega)
  have hn : a + len + (data.drop (a + len)).length = data.length := by
    rw [List.length_drop]
    omega
  have hmain := hash_lane_ne addr addr' seed (u := data.take a) (v := data.drop (a + len)) hxy hxlen
    (by rwa [ha, hx, hn])
  rw [hparts data, hparts data', ← hu, ← hv]
  exact hmain

theorem hash_ne_of_lane_last : hash 0 [97, 97, 97, 97, 98] 7 ≠ hash 1 [97, 97, 97, 97, 99] 7 := by
  refine hash_ne_of_lane 0 1 7 rfl (by decide) (show IsLane 5 4 1 by decide) fun i hi => ?_
  rcases hi with h | h
  · interval_cases i <;> rfl
  · rw [List.getElem?_eq_none (by simpa using h), List.getElem?_eq_none (by simpa using h)]

/-- Keys without a gap: the words a full key gives under one seed are all different. -/
theorem hash_full_key (addr addr' seed : BitVec 64) {k k' : List UInt8} (hk : k.length = keyLen)
    (hk' : k'.length = keyLen) : hash addr k seed = hash addr' k' seed ↔ k = k' := by
  constructor
  · intro h
    by_contra hne
    have hlane : IsLane (([] : List UInt8).length + k.length + ([] : List UInt8).length)
        ([] : List UInt8).length k.length := by
      rw [hk]
      decide
    have hmain := hash_lane_ne addr addr' seed (u := []) (v := []) hne (hk.trans hk'.symm) hlane
    simp only [List.nil_append, List.append_nil] at hmain
    exact hmain h
  · intro h
    rw [h, hash_eq, hash_eq]

/-- Seeds from `generate_seeds` give every key of less than a stripe two different hashes, and no
two full keys of the table one hash. -/
theorem generateSeeds_separate {draws : List Draw} {cuckoo : Seeds}
    (h : generateSeeds draws = some cuckoo) (addr addr' : BitVec 64) :
    (∀ key, (keyBytes key).length < 32 → fHash cuckoo addr key ≠ sHash cuckoo addr' key) ∧
      ∀ key key', (keyBytes key).length = keyLen → (keyBytes key').length = keyLen →
        (fHash cuckoo addr key = fHash cuckoo addr' key' ↔ keyBytes key = keyBytes key') ∧
        (sHash cuckoo addr key = sHash cuckoo addr' key' ↔ keyBytes key = keyBytes key') := by
  have hseeds : cuckoo.fSeed ≠ cuckoo.sSeed := by
    rw [generateSeeds_eq] at h
    simpa using List.find?_some h
  refine ⟨fun key hkey he => ?_, fun key key' hk hk' => ?_⟩
  · apply hseeds
    apply hash_seed_injective addr hkey
    rw [fHash, sHash, hash_eq, hash_eq] at he
    rwa [hash_eq, hash_eq]
  · exact ⟨hash_full_key addr addr' _ hk hk', hash_full_key addr addr' _ hk hk'⟩

theorem generateSeeds_separate_abc :
    fHash ⟨2, 3⟩ 0 [97, 98, 99] ≠ sHash ⟨2, 3⟩ 5 [97, 98, 99] :=
  (generateSeeds_separate
    (show generateSeeds [⟨1, 2, 1, 63⟩, ⟨1, 3, 64, 0⟩] = some ⟨2, 3⟩ by decide) 0 5).1
    [97, 98, 99] (by decide)

end FlatFS.Cuckoo
