import Mathlib.Data.BitVec
import Mathlib.Data.Nat.Bitwise
import Mathlib.Tactic.IntervalCases

/-! # Words of thread and shadow state

`FastState` and `Shadow` of `lib/tsan/rtl/tsan_rtl.h` are one 64-bit word each. From the most significant
bit: the freed bit, the thread id, the epoch, and for a shadow word the write bit, the logarithm of the
access size and the offset of the access in its cell.
-/
namespace CompilerRt.Tsan

abbrev u64 := BitVec 64

def kTidBits : ℕ := 13
def kMaxTid : ℕ := 2^kTidBits
def kClkBits : ℕ := 43

/-- The user bytes that share a shadow cell. -/
def kShadowCell : ℕ := 8

namespace FastState

def kTidShift : ℕ := 64 - kTidBits - 1
def kClkShift : ℕ := kTidShift - kClkBits
def kIgnoreBit : u64 := 1
def kFreedBit : u64 := (1 : u64) <<< 63

def tid (x : u64) : ℕ := (x >>> kTidShift).toNat

def epoch (x : u64) : ℕ := ((x <<< (kTidBits + 1)) >>> (64 - kClkBits)).toNat

/-- The constructor; both fields must fit. -/
def mk (t e : ℕ) : Option u64 :=
  let x : u64 := BitVec.ofNat 64 t <<< kTidShift ||| BitVec.ofNat 64 e <<< kClkShift
  if t = tid x ∧ e = epoch x then some x else none

/-- The check fails when the epoch overflows its field. -/
def IncrementEpoch (x : u64) : Option u64 :=
  let x' := x + (1 : u64) <<< kClkShift
  if epoch x + 1 = epoch x' then some x' else none

def GetIgnoreBit (x : u64) : Bool := x &&& kIgnoreBit != 0

end FastState

namespace Shadow
open FastState

/-- The size logarithm is at most three, and the word has no address yet. -/
def SetAddr0AndSizeLog (x : u64) (addr0 kAccessSizeLog : ℕ) : Option u64 :=
  if x &&& 31 = 0 ∧ addr0 ≤ 7 ∧ kAccessSizeLog ≤ 3 then
    some (x ||| (BitVec.ofNat 64 kAccessSizeLog <<< 3 ||| BitVec.ofNat 64 addr0))
  else none

def SetWrite (x : u64) (kAccessIsWrite : Bool) : Option u64 :=
  if x &&& 32 = 0 then some (if kAccessIsWrite then x ||| 32 else x) else none

def IsZero (x : u64) : Bool := x == 0

def TidsAreEqual (s1 s2 : u64) : Bool := (s1 ^^^ s2) >>> kTidShift == 0

def Addr0AndSizeAreEqual (s1 s2 : u64) : Bool := (s1 ^^^ s2) &&& 31 == 0

def addr0 (x : u64) : u64 := x &&& 7
def size_log (x : u64) : ℕ := ((x >>> 3) &&& 3).toNat
def size (x : u64) : u64 := (1 : u64) <<< size_log x
def is_write (x : u64) : Bool := x &&& 32 != 0
def ComputeSearchOffset (x : u64) : ℕ := (x &&& 7).toNat

def TwoRangesIntersect (s1 s2 : u64) (kS2AccessSize : u64) : Bool :=
  let diff := addr0 s1 - addr0 s2
  if diff.slt 0 then -diff < size s1 else diff < kS2AccessSize

end Shadow

/-! ## The fields as numbers -/

section Fields
open FastState Shadow

/-- The number that a word with the given fields and a clear freed bit stands for. -/
def packed (t e : ℕ) (w : Bool) (sizeLog off : ℕ) : ℕ := t * 2^50 + e * 2^7 + w.toNat * 32 + sizeLog * 8 + off

/-- `x` is a word of thread `t` at epoch `e` without an access in it. -/
def IsFast (x : u64) (t e : ℕ) : Prop := t < kMaxTid ∧ e < 2^kClkBits ∧ x.toNat = packed t e false 0 0

/-- `x` is the word of an access. -/
def IsWord (x : u64) (t e : ℕ) (w : Bool) (sizeLog off : ℕ) : Prop :=
  t < kMaxTid ∧ e < 2^kClkBits ∧ sizeLog ≤ 3 ∧ off ≤ 7 ∧ x.toNat = packed t e w sizeLog off

theorem IsFast.isWord {x : u64} {t e : ℕ} (h : IsFast x t e) : IsWord x t e false 0 0 :=
  ⟨h.1,h.2.1,Nat.zero_le _,Nat.zero_le _,h.2.2⟩

variable {x y : u64} {t e t' e' sizeLog off sizeLog' off' : ℕ} {w w' : Bool}

theorem tid_eq (x : u64) : tid x = x.toNat / 2^50 := by
  rw [tid, BitVec.toNat_ushiftRight, Nat.shiftRight_eq_div_pow]
  rfl

theorem epoch_eq (x : u64) : epoch x = x.toNat * 2^14 % 2^64 / 2^21 := by
  rw [epoch, BitVec.toNat_ushiftRight, BitVec.toNat_shiftLeft, Nat.shiftRight_eq_div_pow, Nat.shiftLeft_eq]
  rfl

theorem toNat_addr0 (x : u64) : (addr0 x).toNat = x.toNat % 8 := Nat.and_two_pow_sub_one_eq_mod x.toNat 3

theorem size_log_eq (x : u64) : size_log x = x.toNat / 8 % 4 := by
  rw [size_log, BitVec.toNat_and, BitVec.toNat_ushiftRight, Nat.shiftRight_eq_div_pow]
  exact Nat.and_two_pow_sub_one_eq_mod _ 2

theorem and_bit_eq_zero_iff (x : u64) {n : ℕ} (hn : n < 64) :
    x &&& BitVec.ofNat 64 (2^n) = 0 ↔ x.toNat / 2^n % 2 = 0 := by
  have hlt : 2^n < 2^64 := Nat.pow_lt_pow_right (by decide) hn
  have hp := Nat.two_pow_pos n
  rw [← BitVec.toNat_inj, BitVec.toNat_and, BitVec.toNat_ofNat, Nat.mod_eq_of_lt hlt, Nat.and_two_pow,
    Nat.testBit_eq_decide_div_mod_eq]
  change _ = 0 ↔ _
  rcases Nat.mod_two_eq_zero_or_one (x.toNat / 2^n) with h | h
  · simp [h]
  · simp [h]

theorem is_write_eq (x : u64) : is_write x = decide (x.toNat / 32 % 2 = 1) := by
  have h : x &&& 32 = 0 ↔ x.toNat / 32 % 2 = 0 := and_bit_eq_zero_iff x (n := 5) (by decide)
  rw [Bool.eq_iff_iff, is_write, bne_iff_ne, decide_eq_true_iff, Ne, h]
  omega

theorem low_eq_zero_iff (x : u64) : x &&& 31 = 0 ↔ x.toNat % 32 = 0 := by
  rw [← BitVec.toNat_inj, BitVec.toNat_and]
  exact Iff.of_eq (congrArg (· = 0) (Nat.and_two_pow_sub_one_eq_mod x.toNat 5))

section IsWord
variable (h : IsWord x t e w sizeLog off)
include h

theorem IsWord.lt : x.toNat < 2^63 := by
  obtain ⟨ht,he,hs,ho,hx⟩ := h
  change t < 2^13 at ht
  change e < 2^43 at he
  have hw : w.toNat ≤ 1 := w.toNat_le
  unfold packed at hx
  omega

theorem IsWord.tid : FastState.tid x = t := by
  obtain ⟨ht,he,hs,ho,hx⟩ := h
  change e < 2^43 at he
  have hw : w.toNat ≤ 1 := w.toNat_le
  unfold packed at hx
  rw [tid_eq]
  omega

theorem IsWord.epoch : FastState.epoch x = e := by
  obtain ⟨ht,he,hs,ho,hx⟩ := h
  change t < 2^13 at ht
  change e < 2^43 at he
  have hw : w.toNat ≤ 1 := w.toNat_le
  unfold packed at hx
  rw [epoch_eq]
  omega

theorem IsWord.is_write : Shadow.is_write x = w := by
  obtain ⟨ht,he,hs,ho,hx⟩ := h
  unfold packed at hx
  rw [is_write_eq]
  cases w <;> simp only [Bool.toNat_true, Bool.toNat_false] at hx
  · simp only [decide_eq_false_iff_not]
    omega
  · simp only [decide_eq_true_eq]
    omega

theorem IsWord.size_log : Shadow.size_log x = sizeLog := by
  obtain ⟨ht,he,hs,ho,hx⟩ := h
  unfold packed at hx
  rw [size_log_eq]
  omega

theorem IsWord.toNat_size : (Shadow.size x).toNat = 2^sizeLog := by
  have hs := h.2.2.1
  rw [Shadow.size, h.size_log]
  interval_cases sizeLog <;> rfl

theorem IsWord.toNat_addr0 : (Shadow.addr0 x).toNat = off := by
  obtain ⟨ht,he,hs,ho,hx⟩ := h
  unfold packed at hx
  rw [Tsan.toNat_addr0]
  omega

end IsWord

theorem IsFast.not_ignore (h : IsFast x t e) : GetIgnoreBit x = false := by
  have hb : x &&& kIgnoreBit = 0 := by
    refine (and_bit_eq_zero_iff x (n := 0) (by decide)).mpr ?_
    rw [h.2.2]
    unfold packed
    simp only [Bool.toNat_false]
    omega
  rw [GetIgnoreBit, hb]
  rfl

theorem IsFast.incrementEpoch (h : IsFast x t e) (hi : IncrementEpoch x = some y) : IsFast y t (e + 1) := by
  have hep := h.isWord.epoch
  have hlt := h.isWord.lt
  obtain ⟨ht,he,hx⟩ := h
  change e < 2^43 at he
  unfold packed at hx
  simp only [Bool.toNat_false] at hx
  have hadd : (x + (1 : u64) <<< kClkShift).toNat = x.toNat + 128 := by
    rw [BitVec.toNat_add]
    exact Nat.mod_eq_of_lt (by change x.toNat + 128 < _; omega)
  unfold IncrementEpoch at hi
  dsimp only at hi
  split_ifs at hi with hc
  cases hi
  refine ⟨ht,?_,?_⟩
  · rw [hep] at hc
    rw [hc, epoch_eq]
    change _ < 2^43
    omega
  · rw [hadd, packed]
    simp only [Bool.toNat_false]
    omega

theorem IsFast.incrementEpoch_isSome (h : IsFast x t e) (he : e + 1 < 2^kClkBits) : ∃ y, IncrementEpoch x = some y := by
  have hep := h.isWord.epoch
  have hlt := h.isWord.lt
  obtain ⟨ht,-,hx⟩ := h
  have hadd : (x + (1 : u64) <<< kClkShift).toNat = x.toNat + 128 := by
    rw [BitVec.toNat_add]
    exact Nat.mod_eq_of_lt (by change x.toNat + 128 < _; omega)
  have hnext : IsFast (x + (1 : u64) <<< kClkShift) t (e + 1) := by
    refine ⟨ht,he,?_⟩
    rw [hadd, hx, packed, packed]
    omega
  refine ⟨_,if_pos ?_⟩
  rw [hep, hnext.isWord.epoch]

theorem isFast_mk (ht : t < kMaxTid) (h : mk t e = some x) : IsFast x t e := by
  unfold mk at h
  dsimp only at h
  split_ifs at h with hc
  cases h
  obtain ⟨-,he⟩ := hc
  have he' : e < 2^43 := by
    rw [he, epoch_eq]
    omega
  change t < 2^13 at ht
  refine ⟨ht,he',?_⟩
  have h1 : (BitVec.ofNat 64 t <<< kTidShift).toNat = 2^50 * t := by
    rw [BitVec.toNat_shiftLeft, BitVec.toNat_ofNat, Nat.shiftLeft_eq, Nat.mod_mul_mod]
    change t * 2^50 % 2^64 = _
    omega
  have h2 : (BitVec.ofNat 64 e <<< kClkShift).toNat = e * 2^7 := by
    rw [BitVec.toNat_shiftLeft, BitVec.toNat_ofNat, Nat.shiftLeft_eq, Nat.mod_mul_mod]
    change e * 2^7 % 2^64 = _
    omega
  rw [BitVec.toNat_or, h1, h2, ← Nat.two_pow_add_eq_or_of_lt (by omega)]
  unfold packed
  simp only [Bool.toNat_false]
  omega

/-- The word that an access makes of the thread's word. -/
theorem setAddr0AndSizeLog_setWrite (h : IsFast x t e) (ho : off ≤ 7) (hs : sizeLog ≤ 3) (w : Bool) :
    ∃ y z, SetAddr0AndSizeLog x off sizeLog = some y ∧ SetWrite y w = some z ∧ IsWord z t e w sizeLog off := by
  have hlt := h.isWord.lt
  obtain ⟨ht,he,hx⟩ := h
  unfold packed at hx
  simp only [Bool.toNat_false] at hx
  have hlow : (BitVec.ofNat 64 sizeLog <<< 3 ||| BitVec.ofNat 64 off : u64).toNat = sizeLog * 8 + off := by
    interval_cases sizeLog <;> interval_cases off <;> rfl
  have hy : (x ||| (BitVec.ofNat 64 sizeLog <<< 3 ||| BitVec.ofNat 64 off)).toNat = x.toNat + (sizeLog * 8 + off) := by
    have hor := Nat.two_pow_add_eq_or_of_lt (i := 5) (b := sizeLog * 8 + off) (by omega) (x.toNat / 32)
    rw [BitVec.toNat_or, hlow, show x.toNat = 2^5 * (x.toNat / 32) by omega, ← hor]
  have hbit := and_bit_eq_zero_iff (x ||| (BitVec.ofNat 64 sizeLog <<< 3 ||| BitVec.ofNat 64 off)) (n := 5) (by decide)
  have hclear : (x ||| (BitVec.ofNat 64 sizeLog <<< 3 ||| BitVec.ofNat 64 off)) &&& 32 = 0 := by
    refine hbit.mpr ?_
    rw [hy]
    omega
  refine ⟨_,_,if_pos ⟨(low_eq_zero_iff x).mpr (by omega),ho,hs⟩,if_pos hclear,ht,he,hs,ho,?_⟩
  cases w with
  | false =>
    rw [if_neg (by decide), hy, hx, packed]
    simp only [Bool.toNat_false]
    omega
  | true =>
    have hor := Nat.two_pow_add_eq_or_of_lt (i := 5) (b := sizeLog * 8 + off) (by omega) (x.toNat / 32)
    have h32 := Nat.two_pow_add_eq_or_of_lt (i := 6) (b := 32 + (sizeLog * 8 + off)) (by omega) (x.toNat / 64)
    have hlow32 := Nat.two_pow_add_eq_or_of_lt (i := 5) (b := sizeLog * 8 + off) (by omega) 1
    rw [if_pos rfl, BitVec.toNat_or, hy, packed]
    change (x.toNat + (sizeLog * 8 + off)) ||| 32 = _
    have hsum : x.toNat + (sizeLog * 8 + off) = 2^6 * (x.toNat / 64) ||| (sizeLog * 8 + off) := by
      rw [← Nat.two_pow_add_eq_or_of_lt (by omega)]
      omega
    rw [hsum, Nat.or_assoc, Nat.or_comm (sizeLog * 8 + off), show (32 : ℕ) = 2^5 * 1 from rfl, ← hlow32,
      ← Nat.two_pow_add_eq_or_of_lt (by omega)]
    simp only [Bool.toNat_true]
    omega

/-! ## Comparisons of two words -/

theorem TidsAreEqual_iff (x y : u64) : TidsAreEqual x y = true ↔ FastState.tid x = FastState.tid y := by
  rw [TidsAreEqual, beq_iff_eq, ← BitVec.toNat_inj, BitVec.toNat_ushiftRight, BitVec.toNat_xor,
    Nat.shiftRight_eq_div_pow, Nat.xor_div_two_pow, tid_eq, tid_eq]
  exact Nat.xor_eq_zero_iff

theorem Addr0AndSizeAreEqual_iff (hx : IsWord x t e w sizeLog off) (hy : IsWord y t' e' w' sizeLog' off') :
    Addr0AndSizeAreEqual x y = true ↔ off = off' ∧ sizeLog = sizeLog' := by
  have hmask : ((x ^^^ y) &&& 31).toNat = (x.toNat % 2^5) ^^^ (y.toNat % 2^5) := by
    rw [BitVec.toNat_and, BitVec.toNat_xor, ← Nat.xor_mod_two_pow]
    exact Nat.and_two_pow_sub_one_eq_mod _ 5
  rw [Addr0AndSizeAreEqual, beq_iff_eq, ← BitVec.toNat_inj, hmask]
  refine Nat.xor_eq_zero_iff.trans ?_
  obtain ⟨-,-,hs,ho,hx⟩ := hx
  obtain ⟨-,-,hs',ho',hy⟩ := hy
  unfold packed at hx hy
  have hw : w.toNat ≤ 1 := w.toNat_le
  have hw' : w'.toNat ≤ 1 := w'.toNat_le
  omega

/-- The signed difference of the offsets decides which range begins first. -/
theorem TwoRangesIntersect_iff (hx : IsWord x t e w sizeLog off) (hy : IsWord y t' e' w' sizeLog' off')
    {n : u64} (hn : n.toNat = 2^sizeLog') :
    TwoRangesIntersect x y n = true ↔ off < off' + 2^sizeLog' ∧ off' < off + 2^sizeLog := by
  have ha := hx.toNat_addr0
  have hb := hy.toNat_addr0
  have hsz := hx.toNat_size
  have ho := hx.2.2.2.1
  have ho' := hy.2.2.2.1
  have hp := Nat.two_pow_pos sizeLog
  have hp' := Nat.two_pow_pos sizeLog'
  have hdiff : (Shadow.addr0 x - Shadow.addr0 y).toNat = (2^64 - off' + off) % 2^64 := by
    rw [BitVec.toNat_sub, ha, hb]
  have hslt : (Shadow.addr0 x - Shadow.addr0 y).slt 0 = decide (off < off') := by
    rw [BitVec.slt, BitVec.toInt_eq_toNat_cond, hdiff, decide_eq_decide]
    change (if 2 * ((2^64 - off' + off) % 2^64) < 2^64 then _ else _) < (0 : ℤ) ↔ _
    split_ifs <;> omega
  have hneg : (-(Shadow.addr0 x - Shadow.addr0 y)).toNat = (2^64 - (2^64 - off' + off) % 2^64) % 2^64 := by
    rw [BitVec.toNat_neg, hdiff]
  unfold TwoRangesIntersect
  dsimp only
  rw [hslt]
  split_ifs with h
  · rw [decide_eq_true_iff] at h
    rw [decide_eq_true_iff, BitVec.lt_def, hneg, hsz]
    omega
  · rw [decide_eq_true_iff] at h
    rw [decide_eq_true_iff, BitVec.lt_def, hdiff, hn]
    omega

end Fields
end CompilerRt.Tsan
