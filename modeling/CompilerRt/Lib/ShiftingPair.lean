import CompilerRt.Lib.RestoringDivision
import CompilerRt.Lib.SignMask
import Mathlib.Data.Nat.Log

/-! # Division in a shifting pair

Remainder and quotient are one pair that is shifted by one bit in each iteration: the bits of the dividend leave the
quotient word at its top, and the digits of the quotient come in at its bottom, one iteration late. Whether the divisor
goes into the remainder is read off the sign of `d - r - 1`, which is right as long as the divisor is not far above it.
-/
namespace CompilerRt.ShiftingPair
open RestoringDivision
variable {w : ℕ}

structure Registers (w : ℕ) where
  r : BitVec w
  q : BitVec w
  carry : BitVec w

def step (d : BitVec w) (s : Registers w) : Registers w :=
  let r := s.r <<< 1 ||| s.q >>> (w - 1)
  let q := s.q <<< 1 ||| s.carry
  let t := (d - r - 1).sshiftRight (w - 1)
  { r := r - (d &&& t), q := q, carry := t &&& 1 }

def loop (d : BitVec w) : ℕ → Registers w → Registers w
  | 0, s => s
  | i + 1, s => loop d i (step d s)

/-- The last digit is still to be shifted in. -/
def Registers.quotient (s : Registers w) : BitVec w := s.q <<< 1 ||| s.carry

/-- With `i` bits left, remainder and quotient are those of the prefix of `n` above them. -/
structure Scanned (n : ℕ) (d : BitVec w) (i : ℕ) (s : Registers w) : Prop where
  r : s.r.toNat = n / 2 ^ i % d.toNat
  q : s.q.toNat = n % 2 ^ i * 2 ^ (w - i) + n / 2 ^ i / d.toNat / 2
  carry : s.carry.toNat = n / 2 ^ i / d.toNat % 2

/-- Where the divisor does not go into what is in the remainder at bit `i`, it is not above it by more than half the
range. -/
def SignExact (n : ℕ) (d : BitVec w) (i : ℕ) : Prop :=
  d.toNat ≤ 2 ^ (w - 1) + (2 * (n / 2 ^ (i + 1) % d.toNat) + n / 2 ^ i % 2)

section Words

/-- For a remainder not far from the divisor the sign of `d - r - 1` answers `r >= d`. -/
theorem sign_borrow (hw : 0 < w) {d r : BitVec w} (hr : r.toNat < 2 * d.toNat) (hd : d.toNat ≤ 2 ^ (w - 1) + r.toNat) :
    (d - r - 1).sshiftRight (w - 1) = if d.toNat ≤ r.toNat then BitVec.allOnes w else 0#w := by
  have htwo : 2 ^ w = 2 * 2 ^ (w - 1) := by rw [← pow_succ', Nat.sub_add_cancel hw]
  have hpos := Nat.two_pow_pos (w - 1)
  have hdlt := d.isLt
  have hrlt := r.isLt
  have hone : (1 : BitVec w).toNat = 1 := toNat_one hw
  have hmsb : (d - r - 1).msb = decide (d.toNat ≤ r.toNat) := by
    rw [BitVec.msb_eq_decide, decide_eq_decide, BitVec.toNat_sub, BitVec.toNat_sub, hone]
    rcases Nat.lt_or_ge r.toNat d.toNat with hlt | hge
    · have hval : (2 ^ w - 1 + (2 ^ w - r.toNat + d.toNat) % 2 ^ w) % 2 ^ w = d.toNat - r.toNat - 1 := by
        have hin : 2 ^ w - r.toNat + d.toNat = d.toNat - r.toNat + 2 ^ w := by omega
        have hout : 2 ^ w - 1 + (d.toNat - r.toNat) = d.toNat - r.toNat - 1 + 2 ^ w := by omega
        have hsmall : (d.toNat - r.toNat) % 2 ^ w = d.toNat - r.toNat := Nat.mod_eq_of_lt (by omega)
        rw [hin, Nat.add_mod_right, hsmall, hout, Nat.add_mod_right, Nat.mod_eq_of_lt (by omega)]
      rw [hval]
      omega
    · have hval : (2 ^ w - 1 + (2 ^ w - r.toNat + d.toNat) % 2 ^ w) % 2 ^ w = 2 ^ w - 1 - (r.toNat - d.toNat) := by
        rcases Nat.eq_or_lt_of_le hge with heq | hgt
        · have hin : 2 ^ w - r.toNat + d.toNat = 0 + 2 ^ w := by omega
          rw [hin, Nat.add_mod_right, Nat.zero_mod, Nat.mod_eq_of_lt (by omega)]
          omega
        · have hout : 2 ^ w - 1 + (2 ^ w - r.toNat + d.toNat) = 2 ^ w - 1 - (r.toNat - d.toNat) + 2 ^ w := by omega
          rw [Nat.mod_eq_of_lt (by omega : 2 ^ w - r.toNat + d.toNat < 2 ^ w), hout, Nat.add_mod_right,
            Nat.mod_eq_of_lt (by omega)]
      rw [hval]
      omega
  rw [SignMask.sshiftRight_sign, hmsb]
  simp only [decide_eq_true_eq]

variable {n i p d : ℕ}

theorem pow_split (hi : i < w) : 2 ^ (w - 1) = 2 ^ (w - 1 - i) * 2 ^ i := by
  rw [← pow_add]
  congr 1
  omega

/-- The top bit of the quotient word is the next one of the dividend. -/
theorem topBit_scanned (hi : i < w) (hp : p < 2 ^ (w - 1 - i)) :
    (n % 2 ^ (i + 1) * 2 ^ (w - 1 - i) + p / d / 2) / 2 ^ (w - 1) = n / 2 ^ i % 2 := by
  have hlow : p / d / 2 < 2 ^ (w - 1 - i) := ((Nat.div_le_self _ _).trans (Nat.div_le_self _ _)).trans_lt hp
  rw [pow_split hi, ← Nat.div_div_eq_div_mul, Nat.add_comm, Nat.add_mul_div_right _ _ (by positivity),
    Nat.div_eq_of_lt hlow, Nat.zero_add, pow_succ, Nat.mod_mul_right_div_self]

/-- Shifting the pair drops the scanned bit and leaves the digits found so far at the bottom. -/
theorem shifted_scanned {q : ℕ} (hi : i < w) (hq : q < 2 ^ (w - 1 - i)) :
    2 * (n % 2 ^ (i + 1) * 2 ^ (w - 1 - i) + q) % 2 ^ w = n % 2 ^ i * 2 ^ (w - i) + 2 * q := by
  have hx := Nat.mod_add_div (n % 2 ^ (i + 1)) (2 ^ i)
  rw [pow_succ, Nat.mod_mul_right_mod] at hx
  have hhalf : 2 ^ (w - i) = 2 * 2 ^ (w - 1 - i) := by
    have hsub : w - i = w - 1 - i + 1 := by omega
    rw [hsub, pow_succ, Nat.mul_comm]
  have htop : 2 ^ i * 2 ^ (w - i) = 2 ^ w := by rw [← pow_add, Nat.add_sub_cancel' hi.le]
  have hlow : n % 2 ^ i * 2 ^ (w - i) + 2 * q < 2 ^ w := by
    have h := Nat.mod_lt n (Nat.two_pow_pos i)
    have hm : (n % 2 ^ i + 1) * 2 ^ (w - i) ≤ 2 ^ i * 2 ^ (w - i) := Nat.mul_le_mul_right _ h
    rw [Nat.add_mul, htop] at hm
    omega
  have he : 2 * (n % 2 ^ (i + 1) * 2 ^ (w - 1 - i) + q) =
      n % 2 ^ i * 2 ^ (w - i) + 2 * q + 2 ^ w * (n % (2 ^ i * 2) / 2 ^ i) := by
    rw [pow_succ, ← htop, hhalf]
    calc 2 * (n % (2 ^ i * 2) * 2 ^ (w - 1 - i) + q)
        = (n % 2 ^ i + 2 ^ i * (n % (2 ^ i * 2) / 2 ^ i)) * (2 * 2 ^ (w - 1 - i)) + 2 * q := by rw [hx]; ring
      _ = _ := by ring
  rw [he, Nat.add_mul_mod_self_left, Nat.mod_eq_of_lt hlow]

end Words

section Loop
variable {n i : ℕ} {d : BitVec w} {s : Registers w}

theorem step_scanned (hn : n < 2 ^ w) (hd : 0 < d.toNat) (hi : i < w) (hexact : SignExact n d i)
    (hs : Scanned n d (i + 1) s) : Scanned n d i (step d s) := by
  obtain ⟨hr,hq,hc⟩ := hs
  have hw : 0 < w := by omega
  have hsub : w - (i + 1) = w - 1 - i := by omega
  have htwo : 2 ^ w = 2 * 2 ^ (w - 1) := by rw [← pow_succ', Nat.sub_add_cancel hw]
  have hb2 : n / 2 ^ i % 2 < 2 := Nat.mod_lt _ (by decide)
  have hone : (1 : BitVec w).toNat = 1 := toNat_one hw
  have hsplit := shiftRight_succ_bit n i
  obtain ⟨hdiv,hmod⟩ := prefix_step hd (n / 2 ^ (i + 1)) hb2
  rw [← hsplit] at hdiv hmod
  have hdlt := digit_lt_two d.toNat (n / 2 ^ (i + 1) % d.toNat) (n / 2 ^ i % 2)
  have hp : n / 2 ^ (i + 1) < 2 ^ (w - 1 - i) := by
    rw [Nat.div_lt_iff_lt_mul (Nat.two_pow_pos _), ← pow_add, ← hsub, Nat.sub_add_cancel hi]
    exact hn
  have hphalf : n / 2 ^ (i + 1) < 2 ^ (w - 1) := hp.trans_le (Nat.pow_le_pow_right (by decide) (by omega))
  have hqlow : n / 2 ^ (i + 1) / d.toNat / 2 < 2 ^ (w - 1 - i) :=
    ((Nat.div_le_self _ _).trans (Nat.div_le_self _ _)).trans_lt hp
  rw [hsub] at hq
  have htop : (s.q >>> (w - 1)).toNat = n / 2 ^ i % 2 := by
    rw [BitVec.toNat_ushiftRight, Nat.shiftRight_eq_div_pow, hq, topBit_scanned hi hp]
  have hrlt : s.r.toNat < d.toNat := hr ▸ Nat.mod_lt _ hd
  have hrp : s.r.toNat ≤ n / 2 ^ (i + 1) := hr ▸ Nat.mod_le _ _
  have hin : (s.r <<< 1 ||| s.q >>> (w - 1)).toNat = 2 * s.r.toNat + n / 2 ^ i % 2 := by
    rw [toNat_shiftIn_of_lt hw (by omega) (by omega), htop]
  have hqin : (s.q <<< 1 ||| s.carry).toNat = n % 2 ^ i * 2 ^ (w - i) + n / 2 ^ (i + 1) / d.toNat := by
    rw [toNat_shiftIn hw s.q (by omega), hq, hc, shifted_scanned hi hqlow]
    omega
  rw [SignExact, ← hr, ← hin] at hexact
  have hsign := sign_borrow hw (d := d) (r := s.r <<< 1 ||| s.q >>> (w - 1)) (by omega) hexact
  rw [hin, hr] at hsign
  unfold step
  simp only [hsign]
  by_cases h : d.toNat ≤ 2 * (n / 2 ^ (i + 1) % d.toNat) + n / 2 ^ i % 2
  · -- the divisor is taken off
    simp only [if_pos h, BitVec.and_allOnes]
    refine ⟨?_,?_,?_⟩
    · rw [BitVec.toNat_sub_of_le (by rw [BitVec.le_def, hin, hr]; exact h), hin, hr, hmod, restore, if_pos h]
    · rw [hqin, hdiv]
      omega
    · rw [hdiv, digit, if_pos h, Nat.mul_add_mod, BitVec.allOnes_and, hone]
  · -- nothing is taken off
    simp only [if_neg h, BitVec.and_zero, BitVec.sub_zero, BitVec.zero_and]
    refine ⟨?_,?_,?_⟩
    · rw [hin, hr, hmod, restore, if_neg h]
    · rw [hqin, hdiv]
      omega
    · rw [hdiv, digit, if_neg h, Nat.mul_add_mod]
      rfl

theorem loop_scanned (hn : n < 2 ^ w) (hd : 0 < d.toNat) (hi : i ≤ w) (hexact : ∀ j < i, SignExact n d j)
    (hs : Scanned n d i s) : Scanned n d 0 (loop d i s) := by
  induction i generalizing s with
  | zero => exact hs
  | succ i ih =>
    exact ih (by omega) (fun j hj => hexact j (by omega)) (step_scanned hn hd hi (hexact i (Nat.lt_succ_self i)) hs)

/-- All bits are scanned. -/
theorem Scanned.result (hw : 0 < w) (hn : n < 2 ^ w) (hs : Scanned n d 0 s) :
    s.quotient.toNat = n / d.toNat ∧ s.r.toNat = n % d.toNat := by
  obtain ⟨hr,hq,hc⟩ := hs
  simp only [pow_zero, Nat.div_one, Nat.mod_one, Nat.zero_mul, Nat.zero_add] at hr hq hc
  have hle : n / d.toNat ≤ n := Nat.div_le_self _ _
  refine ⟨?_,hr⟩
  rw [Registers.quotient, toNat_shiftIn_of_lt hw (by omega) (by omega)]
  omega

end Loop

/-! ## Where to start

The bits before the first one that the divisor can go into are skipped.
-/

section Start
variable {n sr : ℕ} {d : BitVec w}

/-- The amount by which the dividend is moved out of the remainder at the start. -/
def IsStart (n : ℕ) (d : BitVec w) (sr : ℕ) : Prop := sr + Nat.log 2 d.toNat = Nat.log 2 n + 1

theorem IsStart.prefix_lt (h : IsStart n d sr) (hd : 0 < d.toNat) : n / 2 ^ sr < d.toNat := by
  have hlt : n < 2 ^ (Nat.log 2 n + 1) := Nat.lt_pow_succ_log_self (by decide) n
  have hle : 2 ^ Nat.log 2 d.toNat ≤ d.toNat := Nat.pow_log_le_self 2 hd.ne'
  rw [← h, Nat.add_comm, pow_add] at hlt
  exact ((Nat.div_lt_iff_lt_mul (Nat.two_pow_pos _)).mpr hlt).trans_le hle

/-- A divisor in the upper half of the range leaves one iteration, at which the dividend is in the upper half too. -/
theorem IsStart.signExact (h : IsStart n d sr) (hw : 0 < w) (h0 : n ≠ 0) (hn : n < 2 ^ w) (hd : 0 < d.toNat) :
    ∀ j < sr, SignExact n d j := by
  intro j hj
  have htwo : 2 ^ w = 2 * 2 ^ (w - 1) := by rw [← pow_succ', Nat.sub_add_cancel hw]
  have hlog : Nat.log 2 n < w := Nat.log_lt_of_lt_pow h0 hn
  unfold SignExact
  rcases Nat.lt_or_ge d.toNat (2 ^ (w - 1)) with hlt | hge
  · omega
  have hdlog : w - 1 ≤ Nat.log 2 d.toNat := Nat.le_log_of_pow_le (by decide) hge
  unfold IsStart at h
  obtain rfl : j = 0 := by omega
  have hone : sr = 1 := by omega
  have hprefix := @IsStart.prefix_lt w n 1 d (by unfold IsStart; omega) hd
  have hnhalf : 2 ^ (w - 1) ≤ n := by
    have hle := Nat.pow_log_le_self 2 h0
    have hlogn : Nat.log 2 n = w - 1 := by omega
    rw [hlogn] at hle
    exact hle
  have hdlt := d.isLt
  rw [Nat.zero_add, Nat.mod_eq_of_lt hprefix, pow_zero, Nat.div_one, pow_one]
  omega

/-- The whole division, from the two parts of the dividend. -/
theorem loop_result (hw : 0 < w) (hstart : IsStart n d sr) (h0 : n ≠ 0) (hn : n < 2 ^ w) (hd : 0 < d.toNat) (hsr : sr ≤ w)
    {s : Registers w} (hr : s.r.toNat = n / 2 ^ sr) (hq : s.q.toNat = n % 2 ^ sr * 2 ^ (w - sr)) (hc : s.carry = 0#w) :
    (loop d sr s).quotient.toNat = n / d.toNat ∧ (loop d sr s).r.toNat = n % d.toNat := by
  have hprefix := hstart.prefix_lt hd
  refine Scanned.result hw hn (loop_scanned hn hd hsr (hstart.signExact hw h0 hn hd) ⟨?_,?_,?_⟩)
  · rw [hr, Nat.mod_eq_of_lt hprefix]
  · rw [hq, Nat.div_eq_of_lt hprefix, Nat.zero_div, Nat.add_zero]
  · rw [hc, Nat.div_eq_of_lt hprefix]
    rfl

end Start

end CompilerRt.ShiftingPair
