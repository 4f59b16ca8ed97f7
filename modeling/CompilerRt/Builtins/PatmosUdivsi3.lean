import CompilerRt.Lib.RestoringDivision

/-! # The two Patmos versions of `__udivsi3`

`lib/patmos/udivsi3.c` (its C path) scans the 32 bits of the dividend and compares before it
subtracts. The constant-iteration version in `lib/patmos/wcet_oriented` keeps remainder and
quotient in one shifting pair and takes the comparison from the sign of `d - r - 1`.
-/
namespace CompilerRt.PatmosUdivsi3
open RestoringDivision

abbrev SuInt := BitVec 32

structure Registers where
  r : SuInt
  q : SuInt

/-- The loop body of `lib/patmos/udivsi3.c` at bit `i`. -/
def udivsi3Step (n d : SuInt) (i : ℕ) (s : Registers) : Registers :=
  let r := s.r <<< 1 ||| ((n >>> i) &&& 1)
  if d ≤ r then { r := r - d, q := s.q ||| (1 : SuInt) <<< i } else { r := r, q := s.q }

/-- `for (int i = 31; i >= 0; i--)`, entered with `i+1` iterations left. -/
def udivsi3Loop (n d : SuInt) : ℕ → Registers → Registers
  | 0, s => s
  | i+1, s => udivsi3Loop n d i (udivsi3Step n d i s)

def udivsi3 (n d : SuInt) : SuInt := (udivsi3Loop n d 32 { r := 0, q := 0 }).q

namespace WcetOriented

structure Registers where
  r : SuInt
  q : SuInt
  carry : SuInt

/-- The loop body of `lib/patmos/wcet_oriented/udivsi3.c`. -/
def udivsi3Step (d : SuInt) (s : Registers) : Registers :=
  let r := s.r <<< 1 ||| s.q >>> 31
  let q := s.q <<< 1 ||| s.carry
  let t := (d - r - 1).sshiftRight 31
  { r := r - (d &&& t), q := q, carry := t &&& 1 }

def udivsi3Loop (d : SuInt) : ℕ → Registers → Registers
  | 0, s => s
  | sr+1, s => udivsi3Loop d sr (udivsi3Step d s)

def udivsi3 (n d : SuInt) : SuInt :=
  let s := udivsi3Loop d 31 { r := n >>> 31, q := n <<< 1, carry := 0 }
  let q := s.q <<< 1 ||| s.carry
  let res := if d = 1 then n else q
  if n < d then 0 else res

end WcetOriented

/-- The state of the scan with `i` bits left: remainder and quotient of the scanned prefix. -/
def Scanned (n d : SuInt) (i : ℕ) (s : Registers) : Prop :=
  s.r.toNat = n.toNat / 2^i % d.toNat ∧ s.q.toNat = n.toNat / 2^i / d.toNat * 2^i

theorem udivsi3Step_scanned {n d : SuInt} (hd : 0 < d.toNat) {i : ℕ} (hi : i < 32) {s : Registers}
    (hs : Scanned n d (i+1) s) : Scanned n d i (udivsi3Step n d i s) := by
  obtain ⟨hr,hq⟩ := hs
  have hb := toNat_bit (by decide) n i
  have hb2 : n.toNat / 2^i % 2 < 2 := Nat.mod_lt _ (by decide)
  have hsplit := shiftRight_succ_bit n.toNat i
  obtain ⟨hdiv,hmod⟩ := prefix_step hd (n.toNat / 2^(i+1)) hb2
  rw [← hsplit] at hdiv hmod
  -- The remainder is at most a proper prefix of `n`, so shifting it loses nothing.
  have hp : n.toNat / 2^(i+1) < 2^31 := by
    have h : n.toNat / 2^(i+1) ≤ n.toNat / 2^1 :=
      Nat.div_le_div_left (Nat.pow_le_pow_right (by decide) (by omega)) (by decide)
    have hn := n.isLt
    omega
  have hrp : s.r.toNat ≤ n.toNat / 2^(i+1) := hr ▸ Nat.mod_le _ _
  have hin := toNat_shiftIn_of_lt (by decide) (r := s.r) (b := (n >>> i) &&& 1) (by omega) (by omega)
  rw [hb] at hin
  unfold udivsi3Step
  simp only [BitVec.le_def, hin, hr]
  by_cases h : d.toNat ≤ 2*(n.toNat / 2^(i+1) % d.toNat) + n.toNat / 2^i % 2
  · simp only [if_pos h]
    refine ⟨?_,?_⟩
    · rw [BitVec.toNat_sub_of_le (by rw [BitVec.le_def, hin, hr]; exact h), hin, hr, hmod, restore, if_pos h]
    · rw [toNat_setBit hi hq, hdiv, digit, if_pos h]
  · simp only [if_neg h]
    refine ⟨?_,?_⟩
    · rw [hin, hr, hmod, restore, if_neg h]
    · rw [hq, hdiv, digit, if_neg h, pow_succ]
      ring

theorem udivsi3Loop_scanned {n d : SuInt} (hd : 0 < d.toNat) {i : ℕ} (hi : i ≤ 32) {s : Registers}
    (hs : Scanned n d i s) : Scanned n d 0 (udivsi3Loop n d i s) := by
  induction i generalizing s with
  | zero => exact hs
  | succ i ih => exact ih (by omega) (udivsi3Step_scanned hd (by omega) hs)

/-- The ordinary version computes the quotient. -/
theorem udivsi3_toNat {n d : SuInt} (hd : 0 < d.toNat) : (udivsi3 n d).toNat = n.toNat / d.toNat := by
  have h0 : n.toNat / 2^32 = 0 := Nat.div_eq_of_lt n.isLt
  have hs : Scanned n d 32 { r := 0, q := 0 } := by
    simp only [Scanned, h0, Nat.zero_mod, Nat.zero_div, Nat.zero_mul]
    exact ⟨rfl,rfl⟩
  have h := (udivsi3Loop_scanned hd le_rfl hs).2
  simpa only [udivsi3, pow_zero, Nat.div_one, Nat.mul_one] using h

/-! ## The sign-based comparison -/

/-- An arithmetic shift by 31 spreads the sign over the word. -/
theorem sshiftRight_sign (x : SuInt) :
    x.sshiftRight 31 = if 2^31 ≤ x.toNat then BitVec.allOnes 32 else 0 := by
  have hm : x.msb = decide (2^31 ≤ x.toNat) := BitVec.msb_eq_decide x
  by_cases h : 2^31 ≤ x.toNat
  · have h0 : ~~~x >>> 31 = 0 := by
      apply BitVec.eq_of_toNat_eq
      rw [BitVec.toNat_ushiftRight, BitVec.toNat_not, Nat.shiftRight_eq_div_pow]
      change (2^32 - 1 - x.toNat) / 2^31 = 0
      omega
    rw [if_pos h, BitVec.sshiftRight_eq_of_msb_true (by simpa [hm] using h), h0]
    rfl
  · rw [if_neg h, BitVec.sshiftRight_eq_of_msb_false (by simpa [hm] using h)]
    apply BitVec.eq_of_toNat_eq
    rw [BitVec.toNat_ushiftRight, Nat.shiftRight_eq_div_pow]
    change x.toNat / 2^31 = 0
    omega

/-- For a remainder not far above the divisor the sign of `d - r - 1` answers `r >= d`, unless `d`
exceeds `r` by more than `2^31`. -/
theorem sign_borrow {d r : SuInt} (hr : r.toNat < 2*d.toNat) :
    2^31 ≤ (d - r - 1).toNat ↔ d.toNat ≤ r.toNat ∨ r.toNat + 2^31 < d.toNat := by
  have hd := d.isLt
  have hr' := r.isLt
  have h : (d - r - 1).toNat = (2^32 + d.toNat + 2^32 - r.toNat - 1) % 2^32 := by
    simp only [BitVec.toNat_sub]
    change (2^32 - 1 + (2^32 - r.toNat + d.toNat) % 2^32) % 2^32 = _
    omega
  omega

namespace WcetOriented

/-- The sign test errs for a proper remainder only when `d` is this large. -/
def SignExact (n d : SuInt) : Prop := d.toNat ≤ 2^31 + n.toNat / 2^30

/-- With `i` bits left, remainder and quotient of the scanned prefix `p`; the last quotient digit
waits in `carry` and the bits of `n` still to be scanned fill the top of `q`. -/
def Scanned (n d : SuInt) (i : ℕ) (s : Registers) : Prop :=
  let p := n.toNat / 2^i
  s.r.toNat = p % d.toNat ∧ s.q.toNat = n.toNat % 2^i * 2^(32-i) + p / d.toNat / 2 ∧
    s.carry.toNat = p / d.toNat % 2

private theorem pow_split {i : ℕ} (hi : i < 31) : 2^31 = 2^(31-i) * 2^i := by
  rw [← pow_add]
  congr 1
  omega

theorem topBit_scanned {n i p d : ℕ} (hi : i < 31) (hp : p < 2^(31-i)) :
    (n % 2^(i+1) * 2^(31-i) + p / d / 2) / 2^31 = n / 2^i % 2 := by
  have hlow : p / d / 2 < 2^(31-i) := ((Nat.div_le_self _ _).trans (Nat.div_le_self _ _)).trans_lt hp
  rw [pow_split hi, ← Nat.div_div_eq_div_mul, Nat.add_comm, Nat.add_mul_div_right _ _ (by positivity),
    Nat.div_eq_of_lt hlow, Nat.zero_add, pow_succ, Nat.mod_mul_right_div_self]

/-- Shifting the pair drops the scanned bit and leaves the digits found so far at the bottom. -/
theorem shifted_scanned {n i q : ℕ} (hi : i < 31) (hq : q < 2^(31-i)) :
    2*(n % 2^(i+1) * 2^(31-i) + q) % 2^32 = n % 2^i * 2^(32-i) + 2*q := by
  have hx := Nat.mod_add_div (n % 2^(i+1)) (2^i)
  rw [pow_succ, Nat.mod_mul_right_mod] at hx
  have h32 : 2^(32-i) = 2 * 2^(31-i) := by
    rw [show 32-i = (31-i)+1 by omega, pow_succ, Nat.mul_comm]
  have htop : 2^i * 2^(32-i) = 2^32 := by
    rw [← pow_add]
    congr 1
    omega
  have hlow : n % 2^i * 2^(32-i) + 2*q < 2^32 := by
    have h := Nat.mod_lt n (Nat.two_pow_pos i)
    have hm : (n % 2^i + 1) * 2^(32-i) ≤ 2^i * 2^(32-i) := Nat.mul_le_mul_right _ h
    rw [Nat.add_mul, htop] at hm
    omega
  have he : 2*(n % 2^(i+1) * 2^(31-i) + q) =
      n % 2^i * 2^(32-i) + 2*q + 2^32 * (n % (2^i*2) / 2^i) := by
    rw [pow_succ, ← htop, h32]
    calc 2*(n % (2^i*2) * 2^(31-i) + q)
        = (n % 2^i + 2^i * (n % (2^i*2) / 2^i)) * (2*2^(31-i)) + 2*q := by rw [hx]; ring
      _ = _ := by ring
  rw [he, Nat.add_mul_mod_self_left, Nat.mod_eq_of_lt hlow]

theorem udivsi3Step_scanned {n d : SuInt} (hd : 1 < d.toNat) (hn : SignExact n d) {i : ℕ} (hi : i < 31)
    {s : Registers} (hs : Scanned n d (i+1) s) : Scanned n d i (udivsi3Step d s) := by
  obtain ⟨hr,hq,hc⟩ := hs
  rw [show 32-(i+1) = 31-i by omega] at hq
  have hb2 : n.toNat / 2^i % 2 < 2 := Nat.mod_lt _ (by decide)
  have hsplit := shiftRight_succ_bit n.toNat i
  obtain ⟨hdiv,hmod⟩ := prefix_step (by omega : 0 < d.toNat) (n.toNat / 2^(i+1)) hb2
  rw [← hsplit] at hdiv hmod
  have hdlt := digit_lt_two d.toNat (n.toNat / 2^(i+1) % d.toNat) (n.toNat / 2^i % 2)
  have hp : n.toNat / 2^(i+1) < 2^(31-i) := by
    rw [Nat.div_lt_iff_lt_mul (Nat.two_pow_pos _), ← pow_add, show 31-i+(i+1) = 32 by omega]
    exact n.isLt
  have hp31 : n.toNat / 2^(i+1) < 2^31 := hp.trans_le (Nat.pow_le_pow_right (by decide) (by omega))
  have hqlow : n.toNat / 2^(i+1) / d.toNat / 2 < 2^(31-i) :=
    ((Nat.div_le_self _ _).trans (Nat.div_le_self _ _)).trans_lt hp
  have htop : (s.q >>> 31).toNat = n.toNat / 2^i % 2 := by
    rw [BitVec.toNat_ushiftRight, Nat.shiftRight_eq_div_pow, hq, topBit_scanned hi hp]
  have hrlt : s.r.toNat < d.toNat := hr ▸ Nat.mod_lt _ (by omega)
  have hrp : s.r.toNat ≤ n.toNat / 2^(i+1) := hr ▸ Nat.mod_le _ _
  have hin : (s.r <<< 1 ||| s.q >>> 31).toNat = 2*s.r.toNat + n.toNat / 2^i % 2 := by
    rw [toNat_shiftIn_of_lt (by decide) (by omega) (by omega), htop]
  have hqin : (s.q <<< 1 ||| s.carry).toNat =
      n.toNat % 2^i * 2^(32-i) + n.toNat / 2^(i+1) / d.toNat := by
    rw [toNat_shiftIn (by decide) s.q (by omega), hq, hc, shifted_scanned hi hqlow]
    omega
  -- Where the test could err the divisor exceeds every proper prefix, which is then the remainder.
  have hexact : ¬ (s.r <<< 1 ||| s.q >>> 31).toNat + 2^31 < d.toNat := by
    intro h
    have hpd : n.toNat / 2^(i+1) % d.toNat = n.toNat / 2^(i+1) := Nat.mod_eq_of_lt (by omega)
    have hmono : n.toNat / 2^30 ≤ n.toNat / 2^i :=
      Nat.div_le_div_left (Nat.pow_le_pow_right (by decide) (by omega)) (Nat.two_pow_pos _)
    unfold SignExact at hn
    omega
  have hsign := sign_borrow (d := d) (r := s.r <<< 1 ||| s.q >>> 31) (by omega)
  rw [or_iff_left hexact, hin, hr] at hsign
  unfold udivsi3Step
  simp only [sshiftRight_sign, hsign]
  by_cases h : d.toNat ≤ 2*(n.toNat / 2^(i+1) % d.toNat) + n.toNat / 2^i % 2
  · simp only [if_pos h, BitVec.and_allOnes]
    refine ⟨?_,?_,?_⟩
    · rw [BitVec.toNat_sub_of_le (by rw [BitVec.le_def, hin, hr]; exact h), hin, hr, hmod, restore, if_pos h]
    · rw [hqin, hdiv]
      omega
    · rw [hdiv, digit, if_pos h, Nat.mul_add_mod]
      rfl
  · simp only [if_neg h]
    refine ⟨?_,?_,?_⟩
    · change ((s.r <<< 1 ||| s.q >>> 31) - (d &&& 0#32)).toNat = _
      rw [BitVec.and_zero, BitVec.sub_zero, hin, hr, hmod, restore, if_neg h]
    · rw [hqin, hdiv]
      omega
    · rw [hdiv, digit, if_neg h, Nat.mul_add_mod]
      rfl

theorem udivsi3Loop_scanned {n d : SuInt} (hd : 1 < d.toNat) (hn : SignExact n d) {i : ℕ} (hi : i ≤ 31)
    {s : Registers} (hs : Scanned n d i s) : Scanned n d 0 (udivsi3Loop d i s) := by
  induction i generalizing s with
  | zero => exact hs
  | succ i ih => exact ih (by omega) (udivsi3Step_scanned hd hn (by omega) hs)

/-- The initial pair has already scanned the top bit, which no divisor above one divides. -/
theorem scanned_start (n : SuInt) {d : SuInt} (hd : 1 < d.toNat) :
    Scanned n d 31 { r := n >>> 31, q := n <<< 1, carry := 0 } := by
  have hlt := n.isLt
  have htop : n.toNat / 2^31 < d.toNat := by omega
  refine ⟨?_,?_,?_⟩
  · rw [BitVec.toNat_ushiftRight, Nat.shiftRight_eq_div_pow, Nat.mod_eq_of_lt htop]
  · rw [BitVec.toNat_shiftLeft, Nat.shiftLeft_eq, Nat.div_eq_of_lt htop]
    omega
  · rw [Nat.div_eq_of_lt htop]
    rfl

theorem udivsi3_toNat_of_signExact {n d : SuInt} (hd : 0 < d.toNat) (hn : SignExact n d) :
    (udivsi3 n d).toNat = n.toNat / d.toNat := by
  unfold udivsi3
  by_cases hlt : n < d
  · simp only [if_pos hlt]
    exact (Nat.div_eq_of_lt (BitVec.lt_def.mp hlt)).symm
  · simp only [if_neg hlt]
    by_cases h1 : d = 1
    · subst h1
      simp only [if_pos]
      exact (Nat.div_one _).symm
    · have hd1 : 1 < d.toNat := by
        have h : d.toNat ≠ 1 := fun h => h1 (BitVec.eq_of_toNat_eq h)
        omega
      obtain ⟨hr,hq,hc⟩ := udivsi3Loop_scanned hd1 hn le_rfl (scanned_start n hd1)
      simp only [if_neg h1]
      simp only [pow_zero, Nat.div_one, Nat.mod_one, Nat.zero_mul, Nat.zero_add] at hq hc
      have hle : n.toNat / d.toNat ≤ n.toNat := Nat.div_le_self _ _
      have hnlt := n.isLt
      rw [toNat_shiftIn_of_lt (by decide) (by omega) (by omega)]
      omega

/-! The quotient word and the waiting digit read as one: each iteration shifts it once more. -/

def Registers.quotient (s : Registers) : SuInt := s.q <<< 1 ||| s.carry

theorem udivsi3Step_quotient (d : SuInt) (s : Registers) {m : ℕ} (hm : m+1 < 32) :
    (udivsi3Step d s).quotient.getLsbD (m+1) = s.quotient.getLsbD m := by
  have hone : ∀ x : SuInt, (x &&& 1).getLsbD (m+1) = false := by
    intro x
    change (x &&& 1#32).getLsbD (m+1) = false
    rw [BitVec.getLsbD_and, BitVec.getLsbD_one]
    simp
  change ((s.q <<< 1 ||| s.carry) <<< 1 ||| _ &&& 1).getLsbD (m+1) = _
  rw [BitVec.getLsbD_or, hone, BitVec.getLsbD_shiftLeft, Bool.or_false]
  simp [Registers.quotient, hm]

theorem udivsi3Loop_quotient (d : SuInt) (i : ℕ) (s : Registers) {m : ℕ} (hm : m+i < 32) :
    (udivsi3Loop d i s).quotient.getLsbD (m+i) = s.quotient.getLsbD m := by
  induction i generalizing s m with
  | zero => rfl
  | succ i ih =>
    have h := ih (udivsi3Step d s) (m := m+1) (by omega)
    rw [Nat.add_right_comm, Nat.add_assoc] at h
    exact h.trans (udivsi3Step_quotient d s (by omega))

/-- Outside the exact range the first test already reports a borrow that is none: bit 30 of the
result is set, where the quotient is one. -/
theorem udivsi3_ne_of_not_signExact {n d : SuInt} (hn : ¬ SignExact n d) (hle : ¬ n < d) :
    (udivsi3 n d).getLsbD 30 = true := by
  have hnlt := n.isLt
  have hdlt := d.isLt
  have hnd : d.toNat ≤ n.toNat := by simpa [BitVec.lt_def] using hle
  unfold SignExact at hn
  have h1 : d ≠ 1 := by rintro rfl; exact absurd hn (by simp)
  simp only [udivsi3, if_neg hle, if_neg h1]
  refine (udivsi3Loop_quotient d 30 _ (m := 0) (by decide)).trans ?_
  have hr0 : (n >>> 31).toNat = n.toNat / 2^31 := by
    rw [BitVec.toNat_ushiftRight, Nat.shiftRight_eq_div_pow]
  have hq0 : (n <<< 1 >>> 31).toNat = n.toNat % 2^31 * 2 / 2^31 := by
    rw [BitVec.toNat_ushiftRight, Nat.shiftRight_eq_div_pow, BitVec.toNat_shiftLeft, Nat.shiftLeft_eq]
    omega
  have hr : (n >>> 31 <<< 1 ||| n <<< 1 >>> 31).toNat = n.toNat / 2^30 := by
    rw [toNat_shiftIn_of_lt (by decide) (by omega) (by omega), hr0, hq0]
    omega
  have hs : 2^31 ≤ (d - (n >>> 31 <<< 1 ||| n <<< 1 >>> 31) - 1).toNat :=
    (sign_borrow (by omega)).mpr (Or.inr (by omega))
  have hc : (udivsi3Step d { r := n >>> 31, q := n <<< 1, carry := 0 }).carry = 1 := by
    simp only [udivsi3Step, sshiftRight_sign, if_pos hs]
    rfl
  rw [Registers.quotient, hc]
  change (_ ||| 1#32).getLsbD 0 = true
  rw [BitVec.getLsbD_or, BitVec.getLsbD_one]
  simp

end WcetOriented

/-- The two versions agree exactly when the quotient is zero or the sign test is exact. -/
theorem wcet_udivsi3_eq_iff (n d : SuInt) (hd : d ≠ 0) :
    WcetOriented.udivsi3 n d = udivsi3 n d ↔ n < d ∨ d.toNat ≤ 2^31 + n.toNat / 2^30 := by
  have hd0 : 0 < d.toNat := by
    have h : d.toNat ≠ 0 := fun h => hd (BitVec.eq_of_toNat_eq h)
    omega
  constructor
  · intro he
    by_contra hn
    obtain ⟨hle,hn⟩ := not_or.mp hn
    have hb := WcetOriented.udivsi3_ne_of_not_signExact hn hle
    have hnd : d.toNat ≤ n.toNat := by simpa [BitVec.lt_def] using hle
    have hnlt := n.isLt
    have hone : n.toNat / d.toNat = 1 := Nat.div_eq_of_lt_le (by omega) (by omega)
    rw [he, BitVec.getLsbD, udivsi3_toNat hd0, hone] at hb
    exact absurd hb (by decide)
  · intro h
    apply BitVec.eq_of_toNat_eq
    rw [udivsi3_toNat hd0]
    rcases h with h | h
    · rw [WcetOriented.udivsi3, if_pos h]
      exact (Nat.div_eq_of_lt (BitVec.lt_def.mp h)).symm
    · exact WcetOriented.udivsi3_toNat_of_signExact hd0 h

theorem wcet_udivsi3_eq_iff_seven_two :
    WcetOriented.udivsi3 7 2 = udivsi3 7 2 ↔
      (7 : SuInt) < 2 ∨ (2 : SuInt).toNat ≤ 2^31 + (7 : SuInt).toNat / 2^30 :=
  wcet_udivsi3_eq_iff 7 2 (by decide)

/-- The largest word divided by itself. -/
theorem wcet_udivsi3_disagrees : (0xffffffff : SuInt) ≠ 0 ∧
    WcetOriented.udivsi3 0xffffffff 0xffffffff = 0x7ffffffd ∧ udivsi3 0xffffffff 0xffffffff = 1 := by
  decide +kernel

end CompilerRt.PatmosUdivsi3
