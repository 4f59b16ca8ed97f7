import CompilerRt.Builtins.Udivmod
import CompilerRt.Builtins.SignedDivision
import CompilerRt.Lib.SignedRange
import CompilerRt.Lib.BitMask

/-! # The quotient and the remainder

The loop on half words is the shifting pair of double words; each branch before it either answers at once or moves the
dividend out of the remainder by the same amount, which depends on the first digits of the operands only.
-/
namespace CompilerRt.Udivmod
open CShift FpLib
variable {h : ℕ}

/-! ## Half words -/

section Words

theorem toNat_all (x : Words h) : x.all.toNat = x.high.toNat * 2 ^ h + x.low.toNat := by
  rw [Words.all, BitVec.toNat_append, Nat.shiftLeft_eq, Nat.mul_comm, ← Nat.two_pow_add_eq_or_of_lt x.low.isLt]

theorem toNat_zeroExtend (x : BitVec h) : (x.zeroExtend (h + h)).toNat = x.toNat :=
  BitVec.toNat_setWidth_of_le (Nat.le_add_left h h)

theorem toNat_ofAll_high (x : BitVec (h + h)) : (Words.ofAll x).high.toNat = x.toNat / 2 ^ h := by
  have hlt : x.toNat / 2 ^ h < 2 ^ h := by
    rw [Nat.div_lt_iff_lt_mul (Nat.two_pow_pos _), ← pow_add]
    exact x.isLt
  rw [Words.ofAll, BitVec.toNat_setWidth, BitVec.toNat_ushiftRight, Nat.shiftRight_eq_div_pow, Nat.mod_eq_of_lt hlt]

theorem toNat_ofAll_low (x : BitVec (h + h)) : (Words.ofAll x).low.toNat = x.toNat % 2 ^ h := BitVec.toNat_setWidth h x

@[simp] theorem all_ofAll (x : BitVec (h + h)) : (Words.ofAll x).all = x := by
  apply BitVec.eq_of_toNat_eq
  rw [toNat_all, toNat_ofAll_high, toNat_ofAll_low]
  exact Nat.div_add_mod' _ _

@[simp] theorem ofAll_all (x : Words h) : Words.ofAll x.all = x := by
  have hlow := x.low.isLt
  have hhigh : (Words.ofAll x.all).high = x.high := by
    apply BitVec.eq_of_toNat_eq
    rw [toNat_ofAll_high, toNat_all, Nat.mul_comm, Nat.mul_add_div (Nat.two_pow_pos _), Nat.div_eq_of_lt hlow, Nat.add_zero]
  have hlow' : (Words.ofAll x.all).low = x.low := by
    apply BitVec.eq_of_toNat_eq
    rw [toNat_ofAll_low, toNat_all, Nat.mul_comm, Nat.mul_add_mod, Nat.mod_eq_of_lt hlow]
  obtain ⟨high,low⟩ := x
  exact (Words.mk.injEq _ _ _ _).mpr ⟨hhigh,hlow'⟩

/-- One bit from the lower half into the upper one. -/
theorem toNat_all_shiftIn (hh : 0 < h) (x : Words h) {b : BitVec h} (hb : b.toNat < 2) :
    (Words.all { high := x.high <<< 1 ||| x.low >>> (h - 1), low := x.low <<< 1 ||| b }).toNat =
      2 * x.all.toNat % 2 ^ (h + h) + b.toNat := by
  have htwo : 2 ^ h = 2 * 2 ^ (h - 1) := by rw [← pow_succ', Nat.sub_add_cancel hh]
  have hpos := Nat.two_pow_pos (h - 1)
  have hlow := x.low.isLt
  have htop : (x.low >>> (h - 1)).toNat = x.low.toNat / 2 ^ (h - 1) := by
    rw [BitVec.toNat_ushiftRight, Nat.shiftRight_eq_div_pow]
  have htop2 : x.low.toNat / 2 ^ (h - 1) < 2 := by
    rw [Nat.div_lt_iff_lt_mul hpos, ← htwo]
    exact hlow
  rw [toNat_all, toNat_all, RestoringDivision.toNat_shiftIn hh _ (by rw [htop]; exact htop2),
    RestoringDivision.toNat_shiftIn hh _ hb, htop]
  -- the top bits of the halves leave the double word and go up, respectively
  have hhigh : 2 * x.high.toNat = 2 ^ h * (x.high.toNat / 2 ^ (h - 1)) + 2 * x.high.toNat % 2 ^ h := by
    have hdiv : 2 * x.high.toNat / 2 ^ h = x.high.toNat / 2 ^ (h - 1) := by rw [htwo, Nat.mul_div_mul_left _ _ (by decide)]
    rw [← hdiv]
    exact (Nat.div_add_mod _ _).symm
  have hlow' : 2 * x.low.toNat = 2 ^ h * (x.low.toNat / 2 ^ (h - 1)) + 2 * x.low.toNat % 2 ^ h := by
    have hdiv : 2 * x.low.toNat / 2 ^ h = x.low.toNat / 2 ^ (h - 1) := by rw [htwo, Nat.mul_div_mul_left _ _ (by decide)]
    rw [← hdiv]
    exact (Nat.div_add_mod _ _).symm
  have hmod := Nat.mod_lt (2 * x.low.toNat) (Nat.two_pow_pos h)
  have hmod' := Nat.mod_lt (2 * x.high.toNat) (Nat.two_pow_pos h)
  have heven : 2 * x.high.toNat % 2 ^ h % 2 = 0 := by
    rw [htwo, Nat.mul_mod_mul_left]
    exact Nat.mul_mod_right 2 _
  generalize 2 * x.high.toNat % 2 ^ h = u at hhigh hmod' heven ⊢
  generalize 2 * x.low.toNat % 2 ^ h = y at hlow' hmod ⊢
  generalize x.low.toNat / 2 ^ (h - 1) = c at htop2 hlow' ⊢
  have hsum : 2 * (x.high.toNat * 2 ^ h + x.low.toNat) = (u + c) * 2 ^ h + y + 2 ^ (h + h) * (x.high.toNat / 2 ^ (h - 1)) := by
    have hexpand : 2 * (x.high.toNat * 2 ^ h + x.low.toNat) = 2 * x.high.toNat * 2 ^ h + 2 * x.low.toNat := by ring
    rw [hexpand, hlow', pow_add]
    nth_rewrite 1 [hhigh]
    ring
  have hfit : (u + c) * 2 ^ h + y < 2 ^ (h + h) := by
    have hle : u + c + 1 ≤ 2 ^ h := by omega
    have hmul : (u + c + 1) * 2 ^ h ≤ 2 ^ h * 2 ^ h := Nat.mul_le_mul_right _ hle
    rw [Nat.succ_mul] at hmul
    rw [pow_add]
    omega
  rw [hsum, Nat.add_mul_mod_self_left, Nat.mod_eq_of_lt hfit]
  ring

end Words

/-! ## The loop -/

section Loop

/-- The pair of double words. -/
def Registers.pair (s : Registers h) : ShiftingPair.Registers (h + h) :=
  { r := s.r.all, q := s.q.all, carry := s.carry.zeroExtend (h + h) }

theorem toNat_topBit (hh : 0 < h) (x : Words h) :
    (x.high >>> (h - 1)).toNat = (x.all >>> (h + h - 1)).toNat ∧ (x.high >>> (h - 1)).toNat < 2 := by
  have htwo : 2 ^ h = 2 * 2 ^ (h - 1) := by rw [← pow_succ', Nat.sub_add_cancel hh]
  have hsplit : h + h - 1 = h + (h - 1) := by omega
  have hhigh : x.all.toNat / 2 ^ h = x.high.toNat := by
    rw [toNat_all, Nat.mul_comm, Nat.mul_add_div (Nat.two_pow_pos _), Nat.div_eq_of_lt x.low.isLt, Nat.add_zero]
  rw [BitVec.toNat_ushiftRight, BitVec.toNat_ushiftRight, Nat.shiftRight_eq_div_pow, Nat.shiftRight_eq_div_pow, hsplit,
    pow_add, ← Nat.div_div_eq_div_mul, hhigh]
  refine ⟨rfl,?_⟩
  rw [Nat.div_lt_iff_lt_mul (Nat.two_pow_pos _), ← htwo]
  exact x.high.isLt

theorem step_pair (hh : 0 < h) (d : Words h) (s : Registers h) (hc : s.carry.toNat < 2) :
    (step d s).pair = ShiftingPair.step d.all s.pair ∧ (step d s).carry.toNat < 2 := by
  have hh2 : 0 < h + h := by omega
  obtain ⟨htop,htop2⟩ := toNat_topBit hh s.q
  have hcarry : (s.carry.zeroExtend (h + h)).toNat < 2 := by
    rw [toNat_zeroExtend]
    exact hc
  have hr : (Words.all { high := s.r.high <<< 1 ||| s.r.low >>> (h - 1), low := s.r.low <<< 1 ||| s.q.high >>> (h - 1) }) =
      s.r.all <<< 1 ||| s.q.all >>> (h + h - 1) := by
    apply BitVec.eq_of_toNat_eq
    rw [toNat_all_shiftIn hh s.r htop2, RestoringDivision.toNat_shiftIn hh2 _ (htop ▸ htop2), htop]
  have hq : (Words.all { high := s.q.high <<< 1 ||| s.q.low >>> (h - 1), low := s.q.low <<< 1 ||| s.carry }) =
      s.q.all <<< 1 ||| s.carry.zeroExtend (h + h) := by
    apply BitVec.eq_of_toNat_eq
    rw [toNat_all_shiftIn hh s.q hc, RestoringDivision.toNat_shiftIn hh2 _ hcarry, toNat_zeroExtend]
  have hdigit : ∀ x : BitVec (h + h), ((x &&& 1).truncate h).zeroExtend (h + h) = x &&& 1 ∧
      ((x &&& 1).truncate h).toNat < 2 := by
    intro x
    have hone : (1 : BitVec (h + h)).toNat = 1 := RestoringDivision.toNat_one hh2
    have hand : (x &&& 1).toNat = x.toNat % 2 := by rw [BitVec.toNat_and, hone, Nat.and_one_is_mod]
    have hword : ((x &&& 1).truncate h).toNat = x.toNat % 2 := by
      have hle : 2 ≤ 2 ^ h := le_self_pow₀ (by decide) hh.ne'
      rw [BitVec.toNat_setWidth, hand, Nat.mod_eq_of_lt ((Nat.mod_lt _ (by decide)).trans_le hle)]
    refine ⟨BitVec.eq_of_toNat_eq ?_,hword ▸ Nat.mod_lt _ (by decide)⟩
    rw [toNat_zeroExtend, hword, hand]
  unfold step ShiftingPair.step Registers.pair
  simp only [all_ofAll, hr, hq, (hdigit _).1, true_and]
  exact (hdigit _).2

theorem loop_pair (hh : 0 < h) (d : Words h) (i : ℕ) (s : Registers h) (hc : s.carry.toNat < 2) :
    (loopWords d i s).pair = ShiftingPair.loop d.all i s.pair := by
  induction i generalizing s with
  | zero => rfl
  | succ i ih =>
    obtain ⟨hpair,hcarry⟩ := step_pair hh d s hc
    rw [loopWords, ih _ hcarry, hpair]
    rfl

/-- The right quotient and the right remainder. -/
def IsDivision (n d : ℕ) (x : BitVec (h + h) × BitVec (h + h)) : Prop := x.1.toNat = n / d ∧ x.2.toNat = n % d

theorem divide_right (hh : 0 < h) {n : ℕ} {d r q : Words h} {sr : ℕ} (h0 : n ≠ 0) (hn : n < 2 ^ (h + h))
    (hd : 0 < d.all.toNat) (hstart : ShiftingPair.IsStart n d.all sr) (hsr : sr ≤ h + h) (hr : r.all.toNat = n / 2 ^ sr)
    (hq : q.all.toNat = n % 2 ^ sr * 2 ^ (h + h - sr)) : IsDivision n d.all.toNat (divide d sr r q) := by
  have hcarry : (0 : BitVec h).zeroExtend (h + h) = 0#(h + h) := by simp
  have hresult := ShiftingPair.loop_result (by omega) hstart h0 hn hd hsr (s := { r := r.all, q := q.all, carry := 0#(h + h) })
    hr hq rfl
  have hpair := loop_pair hh d sr { r := r, q := q, carry := 0 } (by simp)
  unfold Registers.pair at hpair
  rw [hcarry] at hpair
  rw [← hpair] at hresult
  exact hresult

end Loop

/-! ## The start of the loop -/

section Masks

theorem shl_natCast (v : OutOfRange) {w k : ℕ} (x : BitVec w) (hk : k < w) : shl v x k = x <<< k :=
  if_pos ⟨by omega,by omega⟩

theorem shr_natCast (v : OutOfRange) {w k : ℕ} (x : BitVec w) (hk : k < w) : shr v x k = x >>> k :=
  if_pos ⟨by omega,by omega⟩

/-- The sign of a small number, over the word. -/
theorem signMask_eq (hpos : 0 < h) (hh : h + h < 2 ^ (h - 1)) {z : ℤ} (hlo : -(h + h : ℤ) ≤ z) (hhi : z ≤ h + h) :
    signMask h z = if z < 0 then BitVec.allOnes h else 0#h := by
  have hfits : SignedRange.Fits h z := by
    have hcast : ((2 ^ (h - 1) : ℕ) : ℤ) = 2 ^ (h - 1) := by push_cast; rfl
    exact ⟨by omega,by omega⟩
  have hmsb : (BitVec.ofInt h z).msb = decide (z < 0) := by
    rw [BitVec.msb_eq_toInt, BitVec.toInt_ofInt, SignedRange.bmod_of_fits hpos hfits]
  rw [signMask, SignMask.sshiftRight_sign, hmsb]
  simp only [decide_eq_true_eq]

end Masks

section Start
variable (v : OutOfRange) {n : Words h} {k : ℕ}

/-- Both halves are moved down, the bits that leave the upper one into the lower one. -/
theorem toNat_funnel (hk : 1 ≤ k) (hk' : k < h) : (shl v n.high (h - k : ℤ) ||| shr v n.low k).toNat =
    n.high.toNat % 2 ^ k * 2 ^ (h - k) + n.low.toNat / 2 ^ k := by
  have hamount : (h : ℤ) - k = (h - k : ℕ) := by omega
  have hup := BitMask.toNat_shiftLeft_top n.high hk'.le
  have hdown : (n.low >>> k).toNat = n.low.toNat / 2 ^ k := by rw [BitVec.toNat_ushiftRight, Nat.shiftRight_eq_div_pow]
  rw [hamount, shl_natCast v _ (by omega), shr_natCast v _ hk', BitMask.toNat_or_disjoint (k := h - k), hup, hdown]
  · rw [hup]
    exact Nat.dvd_mul_left _ _
  · rw [hdown, Nat.div_lt_iff_lt_mul (Nat.two_pow_pos _), ← pow_add, Nat.sub_add_cancel hk'.le]
    exact n.low.isLt

theorem all_div (n : Words h) (hk : k ≤ h) : n.all.toNat / 2 ^ k =
    n.high.toNat / 2 ^ k * 2 ^ h + (n.high.toNat % 2 ^ k * 2 ^ (h - k) + n.low.toNat / 2 ^ k) := by
  have hsplit : 2 ^ h = 2 ^ k * 2 ^ (h - k) := by rw [← pow_add, Nat.add_sub_cancel' hk]
  have hhigh := Nat.div_add_mod n.high.toNat (2 ^ k)
  calc n.all.toNat / 2 ^ k = (2 ^ k * (n.high.toNat * 2 ^ (h - k)) + n.low.toNat) / 2 ^ k := by
        rw [toNat_all, hsplit]
        congr 2
        ring
    _ = (2 ^ k * (n.high.toNat / 2 ^ k) + n.high.toNat % 2 ^ k) * 2 ^ (h - k) + n.low.toNat / 2 ^ k := by
        rw [Nat.mul_add_div (Nat.two_pow_pos _), hhigh]
    _ = n.high.toNat / 2 ^ k * 2 ^ h + (n.high.toNat % 2 ^ k * 2 ^ (h - k) + n.low.toNat / 2 ^ k) := by
        rw [hsplit]
        ring

theorem all_mod (n : Words h) (hk : k ≤ h) : n.all.toNat % 2 ^ k = n.low.toNat % 2 ^ k := by
  have hsplit : 2 ^ h = 2 ^ k * 2 ^ (h - k) := by rw [← pow_add, Nat.add_sub_cancel' hk]
  have hmul : n.high.toNat * (2 ^ k * 2 ^ (h - k)) = 2 ^ k * (n.high.toNat * 2 ^ (h - k)) := by ring
  rw [toNat_all, hsplit, hmul, Nat.mul_add_mod]

theorem all_div_high (n : Words h) (k : ℕ) : n.all.toNat / 2 ^ (h + k) = n.high.toNat / 2 ^ k := by
  rw [toNat_all, pow_add, ← Nat.div_div_eq_div_mul, Nat.mul_comm, Nat.mul_add_div (Nat.two_pow_pos _),
    Nat.div_eq_of_lt n.low.isLt, Nat.add_zero]

theorem all_mod_high (n : Words h) (k : ℕ) : n.all.toNat % 2 ^ (h + k) = n.high.toNat % 2 ^ k * 2 ^ h + n.low.toNat := by
  have hhigh := all_div_high n 0
  rw [Nat.add_zero, pow_zero, Nat.div_one] at hhigh
  have hlow : n.all.toNat % 2 ^ h = n.low.toNat := by
    rw [all_mod n le_rfl, Nat.mod_eq_of_lt n.low.isLt]
  rw [pow_add, Nat.mod_mul, hhigh, hlow]
  ring

theorem toNat_shr (x : BitVec h) (hk : k < h) : (shr v x k).toNat = x.toNat / 2 ^ k := by
  rw [shr_natCast v x hk, BitVec.toNat_ushiftRight, Nat.shiftRight_eq_div_pow]

theorem startR_right (hk : 1 ≤ k) (hk' : k < h) : (startR v n k).all.toNat = n.all.toNat / 2 ^ k := by
  rw [toNat_all, all_div n hk'.le]
  exact congrArg₂ (fun x y => x * 2 ^ h + y) (toNat_shr v n.high hk') (toNat_funnel v hk hk')

theorem startQ_right (hk : 1 ≤ k) (hk' : k ≤ h) :
    (startQ v n k).all.toNat = n.all.toNat % 2 ^ k * 2 ^ (h + h - k) := by
  have hamount : (h : ℤ) - k = (h - k : ℕ) := by omega
  have hsum : h + h - k = h - k + h := by omega
  unfold startQ
  rw [toNat_all, hamount, shl_natCast v _ (by omega), BitMask.toNat_shiftLeft_top _ hk', all_mod n hk', hsum, pow_add]
  change _ * _ * _ + (0#h).toNat = _
  rw [BitVec.toNat_zero, Nat.add_zero, Nat.mul_assoc]

end Start

/-! The masks leave what is right for the amount, whatever the other shifts give. -/

section Masked
variable (v : OutOfRange) {n : Words h} {k : ℕ} (hpos : 0 < h) (hh : h + h < 2 ^ (h - 1))
include hpos hh

theorem signMask_neg {z : ℤ} (hlo : -(h + h : ℤ) ≤ z) (hneg : z < 0) : signMask h z = BitVec.allOnes h := by
  rw [signMask_eq hpos hh hlo (by omega), if_pos hneg]

theorem signMask_nonneg {z : ℤ} (hnonneg : 0 ≤ z) (hhi : z ≤ h + h) : signMask h z = 0#h := by
  rw [signMask_eq hpos hh (by omega) hhi, if_neg (not_lt.mpr hnonneg)]

theorem wordR_right (hk : 1 ≤ k) (hk' : k ≤ h) : (wordR v n k).all.toNat = n.all.toNat / 2 ^ k := by
  rcases Nat.lt_or_eq_of_le hk' with hlt | rfl
  · have hmask := signMask_neg hpos hh (z := (k : ℤ) - h) (by omega) (by omega)
    rw [← startR_right v hk hlt]
    unfold wordR startR
    rw [hmask, BitVec.and_allOnes, BitVec.and_allOnes]
  · have hmask := signMask_nonneg hpos hh (z := (k : ℤ) - k) (by omega) (by omega)
    have hzero : shl v n.high ((k : ℤ) - k) = n.high := by
      rw [sub_self]
      exact (shl_natCast v n.high (k := 0) hpos).trans (BitVec.shiftLeft_zero _)
    have hdiv := all_div_high n 0
    rw [Nat.add_zero, pow_zero, Nat.div_one] at hdiv
    unfold wordR
    rw [hmask, hzero, BitVec.and_zero, BitVec.and_zero, BitVec.or_zero, toNat_all, hdiv]
    simp

/-- The three ranges of the amount. -/
theorem maskedR_eq (hk : 1 ≤ k) (hk' : k < h + h) : maskedR v n k =
    if k < h then startR v n k else { high := 0, low := shr v n.high (k - h : ℕ) } := by
  unfold maskedR startR
  split_ifs with hlt
  · have hm1 := signMask_neg hpos hh (z := (k : ℤ) - h) (by omega) (by omega)
    have hm2 := signMask_nonneg hpos hh (z := (h : ℤ) - k - 1) (by omega) (by omega)
    rw [hm1, hm2, BitVec.and_allOnes, BitVec.and_allOnes, BitVec.and_zero, BitVec.zero_or]
  · have hm1 := signMask_nonneg hpos hh (z := (k : ℤ) - h) (by omega) (by omega)
    have hm2 := signMask_neg hpos hh (z := (h : ℤ) - k - 1) (by omega) (by omega)
    have hamount : (k : ℤ) - h = (k - h : ℕ) := by omega
    rw [hm1, hm2, hamount, BitVec.and_zero, BitVec.and_zero, BitVec.and_allOnes, BitVec.or_zero]
    rfl

theorem maskedQ_eq (hk : 1 ≤ k) (hk' : k < h + h) : maskedQ v n k =
    if k ≤ h then startQ v n k
    else { high := shl v n.high (h - (k - h : ℕ) : ℤ) ||| shr v n.low (k - h : ℕ),
           low := shl v n.low (h - (k - h : ℕ) : ℤ) } := by
  unfold maskedQ startQ
  split_ifs with hle
  · have hm1 := signMask_nonneg hpos hh (z := (h : ℤ) - k) (by omega) (by omega)
    have hm2 := signMask_neg hpos hh (z := (k : ℤ) - h - 1) (by omega) (by omega)
    rw [hm1, hm2, BitVec.and_zero, BitVec.and_zero, BitVec.and_allOnes, BitVec.or_zero]
    rfl
  · have hm1 := signMask_neg hpos hh (z := (h : ℤ) - k) (by omega) (by omega)
    have hm2 := signMask_nonneg hpos hh (z := (k : ℤ) - h - 1) (by omega) (by omega)
    have hamount : (k : ℤ) - h = (k - h : ℕ) := by omega
    have hamount' : (h : ℤ) + h - k = h - (k - h : ℕ) := by omega
    rw [hm1, hm2, hamount, hamount', BitVec.and_zero, BitVec.and_allOnes, BitVec.and_allOnes, BitVec.zero_or]

theorem maskedR_right (hk : 1 ≤ k) (hk' : k < h + h) : (maskedR v n k).all.toNat = n.all.toNat / 2 ^ k := by
  rw [maskedR_eq v hpos hh hk hk']
  split_ifs with hlt
  · exact startR_right v hk hlt
  · obtain ⟨j,rfl⟩ : ∃ j, k = h + j := ⟨k - h,by omega⟩
    rw [all_div_high, Nat.add_sub_cancel_left, toNat_all, toNat_shr v n.high (by omega)]
    simp

theorem maskedQ_right (hk : 1 ≤ k) (hk' : k < h + h) :
    (maskedQ v n k).all.toNat = n.all.toNat % 2 ^ k * 2 ^ (h + h - k) := by
  rw [maskedQ_eq v hpos hh hk hk']
  split_ifs with hle
  · exact startQ_right v hk hle
  · obtain ⟨j,rfl⟩ : ∃ j, k = h + j := ⟨k - h,by omega⟩
    have hj : 1 ≤ j := by omega
    have hj' : j < h := by omega
    have hamount : (h : ℤ) - j = (h - j : ℕ) := by omega
    have hrest : h + h - (h + j) = h - j := by omega
    have hsplit : 2 ^ h = 2 ^ j * 2 ^ (h - j) := by rw [← pow_add, Nat.add_sub_cancel' hj'.le]
    have hlow : (shl v n.low (h - j : ℤ)).toNat = n.low.toNat % 2 ^ j * 2 ^ (h - j) := by
      rw [hamount, shl_natCast v _ (by omega), BitMask.toNat_shiftLeft_top _ hj'.le]
    have hdigits := Nat.div_add_mod n.low.toNat (2 ^ j)
    rw [all_mod_high, Nat.add_sub_cancel_left, toNat_all, hrest, toNat_funnel v hj hj', hlow]
    calc (n.high.toNat % 2 ^ j * 2 ^ (h - j) + n.low.toNat / 2 ^ j) * 2 ^ h + n.low.toNat % 2 ^ j * 2 ^ (h - j)
        = n.high.toNat % 2 ^ j * 2 ^ (h - j) * 2 ^ h +
            (2 ^ j * (n.low.toNat / 2 ^ j) + n.low.toNat % 2 ^ j) * 2 ^ (h - j) := by
          rw [hsplit]
          ring
      _ = (n.high.toNat % 2 ^ j * 2 ^ h + n.low.toNat) * 2 ^ (h - j) := by
          rw [hdigits]
          ring

end Masked

/-! ## First digits -/

section Counts
variable {w : ℕ} {x y : BitVec w}

theorem toNat_ne_zero (hx : x ≠ 0) : x.toNat ≠ 0 := fun h => hx (BitVec.eq_of_toNat_eq h)

theorem clz_eq (hx : x ≠ 0) : (builtin_clz x : ℤ) = w - 1 - Nat.log 2 x.toNat := by
  have hlog : Nat.log 2 x.toNat < w := Nat.log_lt_of_lt_pow (toNat_ne_zero hx) x.isLt
  unfold builtin_clz
  omega

/-- `sr` as an `unsigned`: large where the divisor has more digits. -/
theorem clz_sub (hw : w < 2 ^ 31) (hx : x ≠ 0) (hy : y ≠ 0) :
    ((builtin_clz y : ℤ) - builtin_clz x) % 2 ^ 32 =
      if Nat.log 2 y.toNat ≤ Nat.log 2 x.toNat then (Nat.log 2 x.toNat - Nat.log 2 y.toNat : ℤ)
      else 2 ^ 32 - (Nat.log 2 y.toNat - Nat.log 2 x.toNat : ℤ) := by
  have hlogx : Nat.log 2 x.toNat < w := Nat.log_lt_of_lt_pow (toNat_ne_zero hx) x.isLt
  have hlogy : Nat.log 2 y.toNat < w := Nat.log_lt_of_lt_pow (toNat_ne_zero hy) y.isLt
  rw [clz_eq hx, clz_eq hy]
  split_ifs <;> omega

theorem lt_of_log_lt (h0 : x ≠ 0) (h : Nat.log 2 y.toNat < Nat.log 2 x.toNat) : y.toNat < x.toNat := by
  have hlt : y.toNat < 2 ^ (Nat.log 2 y.toNat + 1) := Nat.lt_pow_succ_log_self (by decide) _
  have hle : 2 ^ (Nat.log 2 y.toNat + 1) ≤ 2 ^ Nat.log 2 x.toNat := Nat.pow_le_pow_right (by decide) h
  exact (hlt.trans_le hle).trans_le (Nat.pow_log_le_self 2 (toNat_ne_zero h0))

/-- `if d is a power of 2` -/
theorem power_of_two (hx : x ≠ 0) : x &&& (x - 1) = 0 ↔ ∃ k, k < w ∧ x.toNat = 2 ^ k := by
  have h0 := toNat_ne_zero hx
  have hlt := x.isLt
  have hw : 0 < w := by
    rcases Nat.eq_zero_or_pos w with rfl | hw
    · omega
    · exact hw
  have hone : (1 : BitVec w).toNat = 1 := RestoringDivision.toNat_one hw
  have hpred : (x - 1).toNat = x.toNat - 1 := by
    rw [BitVec.toNat_sub_of_le (by rw [BitVec.le_def, hone]; omega), hone]
  have hand : x &&& (x - 1) = 0 ↔ x.toNat &&& (x.toNat - 1) = 0 := by
    rw [← BitVec.toNat_inj, BitVec.toNat_and, hpred]
    exact Iff.rfl
  rw [hand, Nat.and_sub_one_eq_zero_iff_isPowerOfTwo h0]
  constructor
  · intro h
    obtain ⟨k,hk⟩ := h
    exact ⟨k,(Nat.pow_lt_pow_iff_right (by decide : 1 < 2)).mp (hk ▸ hlt),hk⟩
  · intro h
    obtain ⟨k,-,hk⟩ := h
    exact ⟨k,hk⟩

theorem log_ne_zero (hw : 0 < w) (hx : x ≠ 0) (hpow : ¬x &&& (x - 1) = 0) : Nat.log 2 x.toNat ≠ 0 := by
  intro hzero
  have hne := toNat_ne_zero hx
  have hlt : x.toNat < 2 ^ (Nat.log 2 x.toNat + 1) := Nat.lt_pow_succ_log_self (by decide) _
  rw [hzero, Nat.zero_add, pow_one] at hlt
  exact hpow ((power_of_two hx).mpr ⟨0,hw,by rw [pow_zero]; omega⟩)

theorem eq_one_iff {k : ℕ} (hw : 0 < w) (hx : x.toNat = 2 ^ k) : x = 1 ↔ k = 0 := by
  rw [← BitVec.toNat_inj, hx, RestoringDivision.toNat_one hw]
  exact Nat.pow_eq_one.trans (or_iff_right (by decide))

theorem ctz_of_power {k : ℕ} (hk : k < w) (hx : x.toNat = 2 ^ k) : builtin_ctz x = k := by
  have hne : x ≠ 0#w := by
    rintro rfl
    exact (Nat.two_pow_pos k).ne hx
  have htwo : x = BitVec.twoPow w k := by
    apply BitVec.eq_of_toNat_eq
    rw [hx, BitVec.toNat_twoPow_of_lt hk]
  have hset := BitVec.getLsbD_true_ctz_of_ne_zero hne
  unfold builtin_ctz
  generalize x.ctz.toNat = i at hset
  rw [htwo, BitVec.getLsbD_twoPow] at hset
  simp only [Bool.and_eq_true, decide_eq_true_eq] at hset
  exact hset.2.symm

theorem toNat_and_pred {k : ℕ} (hk : k < w) (hx : x.toNat = 2 ^ k) (y : BitVec w) : (y &&& (x - 1)).toNat = y.toNat % 2 ^ k := by
  have hone : (1 : BitVec w).toNat = 1 := RestoringDivision.toNat_one (by omega)
  have hpos := Nat.two_pow_pos k
  rw [BitVec.toNat_and, BitVec.toNat_sub_of_le (by rw [BitVec.le_def, hone]; omega), hone, hx,
    Nat.and_two_pow_sub_one_eq_mod]

theorem log_all {x : Words h} (hx : x.high ≠ 0) : Nat.log 2 x.all.toNat = h + Nat.log 2 x.high.toNat := by
  have h0 := toNat_ne_zero hx
  have hlo := Nat.pow_log_le_self 2 h0
  have hhi : x.high.toNat < 2 ^ (Nat.log 2 x.high.toNat + 1) := Nat.lt_pow_succ_log_self (by decide) _
  have hlow := x.low.isLt
  rw [toNat_all]
  refine Nat.log_eq_of_pow_le_of_lt_pow ?_ ?_
  · rw [pow_add, Nat.mul_comm]
    exact (Nat.mul_le_mul_right _ hlo).trans (Nat.le_add_right _ _)
  · rw [Nat.add_assoc, pow_add, Nat.mul_comm (2 ^ h)]
    have hmul : (x.high.toNat + 1) * 2 ^ h ≤ 2 ^ (Nat.log 2 x.high.toNat + 1) * 2 ^ h := Nat.mul_le_mul_right _ hhi
    rw [Nat.succ_mul] at hmul
    omega

end Counts

/-! ## The branches -/

section Branches
variable (v : OutOfRange) {n d : Words h} (hpos : 0 < h) (hh : h + h < 2 ^ (h - 1)) (hw : h < 2 ^ 31)

theorem isDivision_of_lt {n d : ℕ} {r : BitVec (h + h)} (hr : r.toNat = n) (hlt : n < d) : IsDivision n d ((0 : BitVec (h + h)),r) := by
  refine ⟨?_,?_⟩
  · rw [Nat.div_eq_of_lt hlt]
    rfl
  · rw [Nat.mod_eq_of_lt hlt, hr]

theorem all_lt_of_high (hlt : n.high.toNat < d.high.toNat) : n.all.toNat < d.all.toNat := by
  have hlow := n.low.isLt
  have hmul : (n.high.toNat + 1) * 2 ^ h ≤ d.high.toNat * 2 ^ h := Nat.mul_le_mul_right _ hlt
  rw [Nat.succ_mul] at hmul
  rw [toNat_all, toNat_all]
  omega

theorem all_ne_zero (hn : n.high ≠ 0) : n.all.toNat ≠ 0 := by
  have hmul := Nat.mul_pos (Nat.pos_of_ne_zero (toNat_ne_zero hn)) (Nat.two_pow_pos h)
  rw [toNat_all]
  omega

include hpos hh hw in
theorem noneZero_right (hn : n.high ≠ 0) (hd : d.high ≠ 0) : IsDivision n.all.toNat d.all.toNat (noneZero v n d) := by
  have hsub := clz_sub hw hn hd
  have hlog : Nat.log 2 n.high.toNat < h := Nat.log_lt_of_lt_pow (toNat_ne_zero hn) n.high.isLt
  unfold noneZero
  rw [hsub]
  rcases Nat.lt_or_ge (Nat.log 2 n.high.toNat) (Nat.log 2 d.high.toNat) with hlt | hle
  · -- the divisor has more digits
    have hlogd : Nat.log 2 d.high.toNat < h := Nat.log_lt_of_lt_pow (toNat_ne_zero hd) d.high.isLt
    rw [if_neg (Nat.not_le.mpr hlt)]
    dsimp only
    rw [if_pos (by omega)]
    exact isDivision_of_lt rfl (all_lt_of_high (lt_of_log_lt hd hlt))
  · obtain ⟨k,hk⟩ : ∃ k, k = Nat.log 2 n.high.toNat - Nat.log 2 d.high.toNat + 1 := ⟨_,rfl⟩
    have hamount : (Nat.log 2 n.high.toNat - Nat.log 2 d.high.toNat : ℤ) + 1 = (k : ℕ) := by omega
    rw [if_pos hle]
    dsimp only
    rw [if_neg (by omega), hamount]
    refine divide_right hpos (all_ne_zero hn) n.all.isLt (Nat.pos_of_ne_zero (all_ne_zero hd)) ?_ (by omega) ?_ ?_
    · rw [ShiftingPair.IsStart, log_all hn, log_all hd]
      omega
    · exact wordR_right v hpos hh (by omega) (by omega)
    · exact startQ_right v (by omega) (by omega)

include hpos hw in
theorem lowZero_right (hn : n.high ≠ 0) (hd : d.high ≠ 0) (hlow : d.low = 0) :
    IsDivision n.all.toNat d.all.toNat (lowZero v n d) := by
  have hall : d.all.toNat = d.high.toNat * 2 ^ h := by
    rw [toNat_all, hlow]
    exact Nat.add_zero _
  unfold lowZero
  rw [if_neg hd]
  by_cases hnlow : n.low = 0
  · have hnall : n.all.toNat = n.high.toNat * 2 ^ h := by
      rw [toNat_all, hnlow]
      exact Nat.add_zero _
    rw [if_pos hnlow, hnall, hall]
    refine ⟨?_,?_⟩
    · rw [toNat_zeroExtend, BitVec.toNat_udiv, Nat.mul_div_mul_right _ _ (Nat.two_pow_pos _)]
    · rw [toNat_all, BitVec.toNat_umod, Nat.mul_mod_mul_right]
      exact Nat.add_zero _
  rw [if_neg hnlow]
  by_cases hpow : d.high &&& (d.high - 1) = 0
  · obtain ⟨k,hk,hval⟩ := (power_of_two hd).mp hpow
    have hdall : d.all.toNat = 2 ^ (h + k) := by rw [hall, hval, pow_add, Nat.mul_comm]
    rw [if_pos hpow, hdall, ctz_of_power hk hval]
    refine ⟨?_,?_⟩
    · rw [toNat_zeroExtend, toNat_shr v n.high hk, all_div_high]
    · rw [toNat_all, all_mod_high, toNat_and_pred hk hval]
  rw [if_neg hpow]
  have hlog : Nat.log 2 n.high.toNat < h := Nat.log_lt_of_lt_pow (toNat_ne_zero hn) n.high.isLt
  have hlogd0 := log_ne_zero hpos hd hpow
  rw [clz_sub hw hn hd]
  rcases Nat.lt_or_ge (Nat.log 2 n.high.toNat) (Nat.log 2 d.high.toNat) with hlt | hle
  · -- the divisor has more digits
    have hlogd : Nat.log 2 d.high.toNat < h := Nat.log_lt_of_lt_pow (toNat_ne_zero hd) d.high.isLt
    rw [if_neg (Nat.not_le.mpr hlt)]
    dsimp only
    rw [if_pos (by omega)]
    exact isDivision_of_lt rfl (all_lt_of_high (lt_of_log_lt hd hlt))
  · obtain ⟨k,hk⟩ : ∃ k, k = Nat.log 2 n.high.toNat - Nat.log 2 d.high.toNat + 1 := ⟨_,rfl⟩
    have hamount : (Nat.log 2 n.high.toNat - Nat.log 2 d.high.toNat : ℤ) + 1 = (k : ℕ) := by omega
    rw [if_pos hle]
    dsimp only
    rw [if_neg (by omega), hamount]
    refine divide_right hpos (all_ne_zero hn) n.all.isLt (Nat.pos_of_ne_zero (all_ne_zero hd)) ?_ (by omega) ?_ ?_
    · rw [ShiftingPair.IsStart, log_all hn, log_all hd]
      omega
    · exact startR_right v (by omega) (by omega)
    · exact startQ_right v (by omega) (by omega)

include hpos hh in
theorem highZero_right (hn : n.high ≠ 0) (hd : d.high = 0) (hlow : d.low ≠ 0) :
    IsDivision n.all.toNat d.all.toNat (highZero v n d) := by
  have hall : d.all.toNat = d.low.toNat := by
    have hzero : d.high.toNat = 0 := congrArg BitVec.toNat hd
    rw [toNat_all, hzero, Nat.zero_mul, Nat.zero_add]
  unfold highZero
  by_cases hpow : d.low &&& (d.low - 1) = 0
  · obtain ⟨k,hk,hval⟩ := (power_of_two hlow).mp hpow
    rw [if_pos hpow, hall, hval]
    by_cases hone : d.low = 1
    · obtain rfl := (eq_one_iff hpos hval).mp hone
      rw [if_pos hone]
      refine ⟨?_,?_⟩
      · rw [pow_zero, Nat.div_one]
      · rw [toNat_zeroExtend, toNat_and_pred hk hval, pow_zero, Nat.mod_one, Nat.mod_one]
    · have hk1 : 1 ≤ k := Nat.one_le_iff_ne_zero.mpr fun h0 => hone ((eq_one_iff hpos hval).mpr h0)
      rw [if_neg hone, ctz_of_power hk hval]
      refine ⟨?_,?_⟩
      · exact startR_right v hk1 hk
      · rw [toNat_zeroExtend, toNat_and_pred hk hval, all_mod n hk.le]
  rw [if_neg hpow]
  have hlogn : Nat.log 2 n.high.toNat < h := Nat.log_lt_of_lt_pow (toNat_ne_zero hn) n.high.isLt
  have hlogd : Nat.log 2 d.low.toNat < h := Nat.log_lt_of_lt_pow (toNat_ne_zero hlow) d.low.isLt
  have hlogd0 := log_ne_zero hpos hlow hpow
  obtain ⟨k,hk⟩ : ∃ k, k = 1 + h + Nat.log 2 n.high.toNat - Nat.log 2 d.low.toNat := ⟨_,rfl⟩
  have hamount : (1 + h + builtin_clz d.low - builtin_clz n.high : ℤ) = (k : ℕ) := by
    rw [clz_eq hn, clz_eq hlow]
    omega
  rw [hamount]
  refine divide_right hpos (all_ne_zero hn) n.all.isLt (by rw [hall]; exact Nat.pos_of_ne_zero (toNat_ne_zero hlow)) ?_
    (by omega) ?_ ?_
  · rw [ShiftingPair.IsStart, log_all hn, hall]
    omega
  · exact maskedR_right v hpos hh (by omega) (by omega)
  · exact maskedQ_right v hpos hh (by omega) (by omega)

end Branches

/-! ## All operands -/

section All
variable (v : OutOfRange)

/-- Every branch divides. -/
theorem udivmod_right (hpos : 0 < h) (hh : h + h < 2 ^ (h - 1)) (hw : h < 2 ^ 31) (a : BitVec (h + h)) {b : BitVec (h + h)}
    (hb : b ≠ 0) : IsDivision a.toNat b.toNat (udivmod v a b) := by
  obtain ⟨n,rfl⟩ : ∃ n : Words h, n.all = a := ⟨Words.ofAll a,all_ofAll a⟩
  obtain ⟨d,rfl⟩ : ∃ d : Words h, d.all = b := ⟨Words.ofAll b,all_ofAll b⟩
  unfold udivmod
  rw [ofAll_all, ofAll_all]
  dsimp only
  by_cases hnhigh : n.high = 0
  · have hnall : n.all.toNat = n.low.toNat := by
      have hzero : n.high.toNat = 0 := congrArg BitVec.toNat hnhigh
      rw [toNat_all, hzero, Nat.zero_mul, Nat.zero_add]
    rw [if_pos hnhigh]
    by_cases hdhigh : d.high = 0
    · have hdall : d.all.toNat = d.low.toNat := by
        have hzero : d.high.toNat = 0 := congrArg BitVec.toNat hdhigh
        rw [toNat_all, hzero, Nat.zero_mul, Nat.zero_add]
      rw [if_pos hdhigh, hnall, hdall]
      exact ⟨by rw [toNat_zeroExtend, BitVec.toNat_udiv],by rw [toNat_zeroExtend, BitVec.toNat_umod]⟩
    · have hlt : n.high.toNat < d.high.toNat := by
        have hzero : n.high.toNat = 0 := congrArg BitVec.toNat hnhigh
        have hne := toNat_ne_zero hdhigh
        omega
      rw [if_neg hdhigh]
      exact isDivision_of_lt ((toNat_zeroExtend _).trans hnall.symm) (all_lt_of_high hlt)
  rw [if_neg hnhigh]
  by_cases hdlow : d.low = 0
  · have hdhigh : d.high ≠ 0 := by
      intro hzero
      have hhigh : d.high.toNat = 0 := congrArg BitVec.toNat hzero
      have hlow : d.low.toNat = 0 := congrArg BitVec.toNat hdlow
      refine hb (BitVec.eq_of_toNat_eq ?_)
      rw [toNat_all, hhigh, hlow]
      simp
    rw [if_pos hdlow]
    exact lowZero_right v hpos hw hnhigh hdhigh hdlow
  rw [if_neg hdlow]
  by_cases hdhigh : d.high = 0
  · rw [if_pos hdhigh]
    exact highZero_right v hpos hh hnhigh hdhigh hdlow
  · rw [if_neg hdhigh]
    exact noneZero_right v hpos hh hw hnhigh hdhigh

theorem udivmoddi4_right (a : BitVec 64) {b : BitVec 64} (hb : b ≠ 0) :
    (udivmoddi4 v a b).1.toNat = a.toNat / b.toNat ∧ (udivmoddi4 v a b).2.toNat = a.toNat % b.toNat :=
  udivmod_right v (h := 32) (by decide) (by decide) (by decide) a hb

theorem udivmodti4_right (a : BitVec 128) {b : BitVec 128} (hb : b ≠ 0) :
    (udivmodti4 v a b).1.toNat = a.toNat / b.toNat ∧ (udivmodti4 v a b).2.toNat = a.toNat % b.toNat :=
  udivmod_right v (h := 64) (by decide) (by decide) (by decide) a hb

theorem udivsi3_right (n : BitVec 32) {d : BitVec 32} (hd : d ≠ 0) : (udivsi3 v n d).toNat = n.toNat / d.toNat := by
  unfold udivsi3
  rw [if_neg hd]
  by_cases hn : n = 0
  · rw [if_pos hn, hn]
    exact (Nat.zero_div _).symm
  have hn0 := toNat_ne_zero hn
  have hd0 := Nat.pos_of_ne_zero (toNat_ne_zero hd)
  have hlogn : Nat.log 2 n.toNat < 32 := Nat.log_lt_of_lt_pow hn0 n.isLt
  rw [if_neg hn, clz_sub (by decide) hn hd]
  rcases Nat.lt_or_ge (Nat.log 2 n.toNat) (Nat.log 2 d.toNat) with hlt | hle
  · -- the divisor has more digits
    have hlogd : Nat.log 2 d.toNat < 32 := Nat.log_lt_of_lt_pow hd0.ne' d.isLt
    rw [if_neg (Nat.not_le.mpr hlt)]
    dsimp only
    rw [if_pos (by omega), Nat.div_eq_of_lt (lt_of_log_lt hd hlt)]
    rfl
  obtain ⟨k,hk⟩ : ∃ k, k = Nat.log 2 n.toNat - Nat.log 2 d.toNat := ⟨_,rfl⟩
  have hamount : (Nat.log 2 n.toNat - Nat.log 2 d.toNat : ℤ) = k := by omega
  rw [if_pos hle, hamount]
  dsimp only
  rw [if_neg (by omega)]
  by_cases hlast : k = 31
  · -- a divisor of one digit
    have hone : d.toNat = 1 := by
      have hdlt : d.toNat < 2 ^ (Nat.log 2 d.toNat + 1) := Nat.lt_pow_succ_log_self (by decide) _
      have hlog0 : Nat.log 2 d.toNat = 0 := by omega
      rw [hlog0] at hdlt
      omega
    rw [if_pos (by omega), hone, Nat.div_one]
  · have hsucc : (k : ℤ) + 1 = (k + 1 : ℕ) := by omega
    have hrest : (32 : ℤ) - (k + 1 : ℕ) = (32 - (k + 1) : ℕ) := by omega
    rw [if_neg (by omega), hsucc, hrest, shr_natCast v n (by omega), shl_natCast v n (by omega)]
    refine (@ShiftingPair.loop_result 32 n.toNat (k + 1) d (by decide) ?_ hn0 n.isLt hd0 (by omega) _ ?_ ?_ rfl).1
    · unfold ShiftingPair.IsStart
      omega
    · exact BitVec.toNat_ushiftRight n (k + 1) ▸ Nat.shiftRight_eq_div_pow _ _
    · exact BitMask.toNat_shiftLeft_top n (by omega)

/-- Quotient and remainder at both widths, and the quotient of single words. -/
theorem divisions_right :
    (∀ a b : BitVec 64, b ≠ 0 → (udivmoddi4 v a b).1.toNat = a.toNat / b.toNat ∧
      (udivmoddi4 v a b).2.toNat = a.toNat - (udivmoddi4 v a b).1.toNat * b.toNat) ∧
    (∀ a b : BitVec 128, b ≠ 0 → (udivmodti4 v a b).1.toNat = a.toNat / b.toNat ∧
      (udivmodti4 v a b).2.toNat = a.toNat - (udivmodti4 v a b).1.toNat * b.toNat) ∧
    ∀ n d : BitVec 32, d ≠ 0 → (udivsi3 v n d).toNat = n.toNat / d.toNat := by
  refine ⟨?_,?_,fun n d hd => udivsi3_right v n hd⟩
  · intro a b hb
    obtain ⟨hq,hr⟩ := udivmoddi4_right v a hb
    rw [hq, hr]
    exact ⟨rfl,Nat.mod_eq_sub_div_mul⟩
  · intro a b hb
    obtain ⟨hq,hr⟩ := udivmodti4_right v a hb
    rw [hq, hr]
    exact ⟨rfl,Nat.mod_eq_sub_div_mul⟩

/-- A machine that takes the amount modulo the width. -/
def modularShifts : OutOfRange where
  shl {w} x n := x <<< (n % w).toNat
  shr {w} x n := x >>> (n % w).toNat

/-- The dividend is moved by the full width of a half word, and the divisor is above half the range. -/
theorem divisions_right_full : (udivmoddi4 modularShifts 0x123456789ABCDEF0 0x30000001).1.toNat = 0x61172281 ∧
    (udivmoddi4 modularShifts 0xFFFFFFFFFFFFFFFF 0x8000000000000001).1.toNat = 1 :=
  ⟨((divisions_right modularShifts).1 0x123456789ABCDEF0 0x30000001 (by decide)).1,
    ((divisions_right modularShifts).1 0xFFFFFFFFFFFFFFFF 0x8000000000000001 (by decide)).1⟩

end All

end CompilerRt.Udivmod
