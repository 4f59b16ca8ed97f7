import CompilerRt.Lib.SignedRange
import Mathlib.Tactic.Linarith

/-! # Arithmetic that checks for overflow

`lib/mulosi4.c` and its wider versions set a flag where the product of signed words is out of range, and `mulvsi3.c`,
`addvsi3.c`, `subvsi3.c` and theirs abort. The sums and products themselves wrap.
-/
namespace CompilerRt.CheckedArithmetic
variable {w : ℕ}

/-- `/` of signed words, which C leaves undefined for these two kinds of operands. -/
def quotient (a b : BitVec w) : Option (BitVec w) :=
  if b = 0 ∨ a = BitVec.intMin w ∧ b = -1 then none else some (a.sdiv b)

/-- A routine returns a word or calls `compilerrt_abort`. -/
inductive Outcome (w : ℕ) where
  | returned (v : BitVec w)
  | aborted
deriving DecidableEq

/-- `1 << (N-1)` -/
def MIN (w : ℕ) : BitVec w := (1 : BitVec w) <<< (w - 1)

def MAX (w : ℕ) : BitVec w := ~~~MIN w

section Routines
variable (a b : BitVec w)

/-- The result and `*overflow`. -/
def mulo : Option (BitVec w × ℕ) := do
  let result := a * b
  if a = MIN w then
    if b ≠ 0 ∧ b ≠ 1 then return (result,1) else return (result,0)
  else if b = MIN w then
    if a ≠ 0 ∧ a ≠ 1 then return (result,1) else return (result,0)
  else
    let sa := a.sshiftRight (w - 1)
    let abs_a := (a ^^^ sa) - sa
    let sb := b.sshiftRight (w - 1)
    let abs_b := (b ^^^ sb) - sb
    if abs_a.slt 2 ∨ abs_b.slt 2 then return (result,0)
    else if sa = sb then
      if (← quotient (MAX w) abs_b).slt abs_a then return (result,1) else return (result,0)
    else
      if (← quotient (MIN w) (-abs_b)).slt abs_a then return (result,1) else return (result,0)

def mulv : Option (Outcome w) := do
  if a = MIN w then
    if b = 0 ∨ b = 1 then return .returned (a * b) else return .aborted
  else if b = MIN w then
    if a = 0 ∨ a = 1 then return .returned (a * b) else return .aborted
  else
    let sa := a.sshiftRight (w - 1)
    let abs_a := (a ^^^ sa) - sa
    let sb := b.sshiftRight (w - 1)
    let abs_b := (b ^^^ sb) - sb
    if abs_a.slt 2 ∨ abs_b.slt 2 then return .returned (a * b)
    else if sa = sb then
      if (← quotient (MAX w) abs_b).slt abs_a then return .aborted else return .returned (a * b)
    else
      if (← quotient (MIN w) (-abs_b)).slt abs_a then return .aborted else return .returned (a * b)

def addv : Outcome w :=
  let s := a + b
  if (0 : BitVec w).sle b then
    if s.slt a then .aborted else .returned s
  else
    if a.sle s then .aborted else .returned s

def subv : Outcome w :=
  let s := a - b
  if (0 : BitVec w).sle b then
    if a.slt s then .aborted else .returned s
  else
    if s.sle a then .aborted else .returned s

end Routines

def mulosi4 : BitVec 32 → BitVec 32 → Option (BitVec 32 × ℕ) := mulo
def mulodi4 : BitVec 64 → BitVec 64 → Option (BitVec 64 × ℕ) := mulo
def muloti4 : BitVec 128 → BitVec 128 → Option (BitVec 128 × ℕ) := mulo
def mulvsi3 : BitVec 32 → BitVec 32 → Option (Outcome 32) := mulv
def mulvdi3 : BitVec 64 → BitVec 64 → Option (Outcome 64) := mulv
def mulvti3 : BitVec 128 → BitVec 128 → Option (Outcome 128) := mulv
def addvsi3 : BitVec 32 → BitVec 32 → Outcome 32 := addv
def addvdi3 : BitVec 64 → BitVec 64 → Outcome 64 := addv
def addvti3 : BitVec 128 → BitVec 128 → Outcome 128 := addv
def subvsi3 : BitVec 32 → BitVec 32 → Outcome 32 := subv
def subvdi3 : BitVec 64 → BitVec 64 → Outcome 64 := subv
def subvti3 : BitVec 128 → BitVec 128 → Outcome 128 := subv

/-! ## Products -/

/-- The answer that the flag and the abort both give. -/
def overflows (a b : BitVec w) : Option Bool := do
  if a = MIN w then return decide (b ≠ 0 ∧ b ≠ 1)
  else if b = MIN w then return decide (a ≠ 0 ∧ a ≠ 1)
  else
    let sa := a.sshiftRight (w - 1)
    let abs_a := (a ^^^ sa) - sa
    let sb := b.sshiftRight (w - 1)
    let abs_b := (b ^^^ sb) - sb
    if abs_a.slt 2 ∨ abs_b.slt 2 then return false
    else if sa = sb then return (← quotient (MAX w) abs_b).slt abs_a
    else return (← quotient (MIN w) (-abs_b)).slt abs_a

theorem mulo_eq_overflows (a b : BitVec w) : mulo a b = (overflows a b).map fun o => (a * b,if o then 1 else 0) := by
  unfold mulo overflows
  dsimp only
  split_ifs with ha hb hb ha' hab hs
  · rw [decide_eq_true hb]
    rfl
  · rw [decide_eq_false hb]
    rfl
  · rw [decide_eq_true ha']
    rfl
  · rw [decide_eq_false ha']
    rfl
  · rfl
  · cases quotient (MAX w) ((b ^^^ b.sshiftRight (w - 1)) - b.sshiftRight (w - 1)) with
    | none => rfl
    | some q =>
      simp only [Option.bind_eq_bind, Option.bind_some]
      split_ifs with h <;> simp [h]
  · cases quotient (MIN w) (-((b ^^^ b.sshiftRight (w - 1)) - b.sshiftRight (w - 1))) with
    | none => rfl
    | some q =>
      simp only [Option.bind_eq_bind, Option.bind_some]
      split_ifs with h <;> simp [h]

theorem mulv_eq_overflows (a b : BitVec w) :
    mulv a b = (overflows a b).map fun o => if o then .aborted else .returned (a * b) := by
  unfold mulv overflows
  dsimp only
  split_ifs with ha hb hb ha' hab hs
  · rw [decide_eq_false (by tauto)]
    rfl
  · rw [decide_eq_true (not_or.mp hb)]
    rfl
  · rw [decide_eq_false (by tauto)]
    rfl
  · rw [decide_eq_true (not_or.mp ha')]
    rfl
  · rfl
  · cases quotient (MAX w) ((b ^^^ b.sshiftRight (w - 1)) - b.sshiftRight (w - 1)) with
    | none => rfl
    | some q =>
      simp only [Option.bind_eq_bind, Option.bind_some]
      split_ifs with h <;> simp [h]
  · cases quotient (MIN w) (-((b ^^^ b.sshiftRight (w - 1)) - b.sshiftRight (w - 1))) with
    | none => rfl
    | some q =>
      simp only [Option.bind_eq_bind, Option.bind_some]
      split_ifs with h <;> simp [h]

open SignMask SignedRange

section Products
variable {a b : BitVec w} (hw : 3 ≤ w)

theorem MIN_eq (w : ℕ) : MIN w = BitVec.intMin w := rfl

theorem toInt_abs_of_ne (h : b ≠ MIN w) : b.abs.toInt = |b.toInt| := by
  rw [BitVec.toInt_abs_eq_natAbs_of_ne_intMin h, Int.natCast_natAbs]

include hw

theorem four_le_two_pow : (4 : ℤ) ≤ 2 ^ (w - 1) := by
  have h : 2 ^ 2 ≤ 2 ^ (w - 1) := Nat.pow_le_pow_right (by decide) (by omega)
  exact_mod_cast h

theorem toInt_MIN : (MIN w).toInt = -2 ^ (w - 1) := BitVec.toInt_intMin_of_pos (by omega)

theorem toInt_MAX : (MAX w).toInt = 2 ^ (w - 1) - 1 := by
  have hfour := four_le_two_pow hw
  have htwo := two_pow_eq (w := w) (by omega)
  have hnat : (MIN w).toNat = 2 ^ (w - 1) := BitVec.toNat_twoPow_of_lt (by omega)
  rw [MAX, BitVec.toInt_not, hnat]
  push_cast
  rw [htwo]
  have hval : (2 * 2 ^ (w - 1) - 1 - 2 ^ (w - 1) : ℤ) = 2 ^ (w - 1) - 1 := by omega
  rw [hval]
  exact bmod_of_fits (by omega) ⟨by omega,by omega⟩

theorem toInt_small {n : ℕ} (hn : n < 4) : (BitVec.ofNat w n).toInt = n := by
  have hfour := four_le_two_pow hw
  rw [BitVec.toInt_ofNat']
  exact bmod_of_fits (by omega) ⟨by omega,by omega⟩

theorem min_mul_fits {x : ℤ} : Fits w (-2 ^ (w - 1) * x) ↔ x = 0 ∨ x = 1 := by
  have hfour := four_le_two_pow hw
  constructor
  · intro ⟨hlo,hhi⟩
    have hle : x ≤ 1 := by
      by_contra hx
      nlinarith
    have hge : 0 ≤ x := by
      by_contra hx
      nlinarith
    omega
  · rintro (rfl | rfl)
    · exact ⟨by omega,by omega⟩
    · exact ⟨by omega,by omega⟩

theorem small_mul_fits {x y : ℤ} (hx : |x| < 2) (hy : Fits w y) (hmin : y ≠ -2 ^ (w - 1)) : Fits w (x * y) := by
  have hfour := four_le_two_pow hw
  obtain ⟨hlo,hhi⟩ := hy
  rw [abs_lt] at hx
  obtain rfl | rfl | rfl : x = -1 ∨ x = 0 ∨ x = 1 := by omega
  · exact ⟨by omega,by omega⟩
  · exact ⟨by omega,by omega⟩
  · exact ⟨by omega,by omega⟩

theorem quotient_MAX (h : b ≠ MIN w) (h2 : 2 ≤ |b.toInt|) :
    ∃ q, quotient (MAX w) b.abs = some q ∧ q.toInt = (2 ^ (w - 1) - 1) / |b.toInt| := by
  have hfour := four_le_two_pow hw
  have habs := toInt_abs_of_ne h
  have hzero : b.abs ≠ 0 := by
    intro h0
    rw [h0, BitVec.ofNat_eq_ofNat, BitVec.toInt_zero] at habs
    omega
  have hmax : MAX w ≠ BitVec.intMin w := by
    intro h0
    have h1 := toInt_MAX hw
    have h2 := toInt_MIN hw
    rw [h0, ← MIN_eq] at h1
    omega
  refine ⟨_,if_neg ?_,?_⟩
  · exact not_or.mpr ⟨hzero,fun h => hmax h.1⟩
  · rw [BitVec.toInt_sdiv_of_ne_or_ne _ _ (.inl hmax), toInt_MAX hw, habs, Int.tdiv_eq_ediv_of_nonneg (by omega)]

theorem quotient_MIN (h : b ≠ MIN w) (h2 : 2 ≤ |b.toInt|) :
    ∃ q, quotient (MIN w) (-b.abs) = some q ∧ q.toInt = 2 ^ (w - 1) / |b.toInt| := by
  have hfour := four_le_two_pow hw
  have habs := toInt_abs_of_ne h
  have hmin : b.abs ≠ BitVec.intMin w := by
    intro h0
    rw [h0, ← MIN_eq, toInt_MIN hw] at habs
    omega
  have hneg : (-b.abs).toInt = -|b.toInt| := by rw [BitVec.toInt_neg_of_ne_intMin hmin, habs]
  have hzero : -b.abs ≠ 0 := by
    intro h0
    rw [h0, BitVec.ofNat_eq_ofNat, BitVec.toInt_zero] at hneg
    omega
  have hone : -b.abs ≠ -1 := by
    intro h0
    have h1 : (1 : BitVec w).toInt = 1 := toInt_small hw (n := 1) (by decide)
    rw [BitVec.neg_inj.mp h0, h1] at habs
    omega
  refine ⟨_,if_neg ?_,?_⟩
  · exact not_or.mpr ⟨hzero,fun h => hone h.2⟩
  · rw [BitVec.toInt_sdiv_of_ne_or_ne _ _ (.inr hone), toInt_MIN hw, hneg, Int.neg_tdiv_neg, Int.tdiv_eq_ediv_of_nonneg (by omega)]

theorem sign_eq_iff : a.sshiftRight (w - 1) = b.sshiftRight (w - 1) ↔ (a.toInt < 0 ↔ b.toInt < 0) := by
  have hne : BitVec.allOnes w ≠ 0#w := by
    intro h
    have hnat := congrArg BitVec.toNat h
    rw [BitVec.toNat_allOnes, BitVec.toNat_zero] at hnat
    have htwo : 2 ^ 1 < 2 ^ w := Nat.pow_lt_pow_right (by decide) (by omega)
    omega
  have ha : a.msb = decide (a.toInt < 0) := BitVec.msb_eq_toInt
  have hb : b.msb = decide (b.toInt < 0) := BitVec.msb_eq_toInt
  rw [sshiftRight_sign, sshiftRight_sign, ha, hb]
  simp only [decide_eq_true_eq]
  split_ifs with h1 h2 h2
  · exact iff_of_true rfl (iff_of_true h1 h2)
  · exact iff_of_false hne (fun h => h2 (h.mp h1))
  · exact iff_of_false hne.symm (fun h => h1 (h.mpr h2))
  · exact iff_of_true rfl (iff_of_false h1 h2)

/-- With the special cases out of the way, the product is compared by a quotient. -/
theorem overflows_eq (a b : BitVec w) : overflows a b = some (decide ¬Fits w (a.toInt * b.toInt)) := by
  have hmin := toInt_MIN hw
  have hzero : ∀ x : BitVec w, x = 0 ↔ x.toInt = 0 := by
    intro x
    rw [← BitVec.toInt_inj, BitVec.ofNat_eq_ofNat, BitVec.toInt_zero]
  have hone : ∀ x : BitVec w, x = 1 ↔ x.toInt = 1 := by
    intro x
    rw [← BitVec.toInt_inj, BitVec.ofNat_eq_ofNat, toInt_small hw (by decide)]
    rfl
  have htwo : (2 : BitVec w).toInt = 2 := toInt_small hw (n := 2) (by decide)
  unfold overflows
  by_cases ha : a = MIN w
  · rw [if_pos ha, ha, hmin]
    refine congrArg some (decide_eq_decide.mpr ?_)
    rw [min_mul_fits hw, ← hzero, ← hone, not_or]
  by_cases hb : b = MIN w
  · rw [if_neg ha, if_pos hb, hb, hmin, Int.mul_comm]
    refine congrArg some (decide_eq_decide.mpr ?_)
    rw [min_mul_fits hw, ← hzero, ← hone, not_or]
  rw [if_neg ha, if_neg hb]
  have hamin : a.toInt ≠ -2 ^ (w - 1) := fun h => ha (BitVec.eq_of_toInt_eq (h.trans hmin.symm))
  have hbmin : b.toInt ≠ -2 ^ (w - 1) := fun h => hb (BitVec.eq_of_toInt_eq (h.trans hmin.symm))
  have haabs : ((a ^^^ a.sshiftRight (w - 1)) - a.sshiftRight (w - 1)) = a.abs := negateBy_sign a
  have hbabs : ((b ^^^ b.sshiftRight (w - 1)) - b.sshiftRight (w - 1)) = b.abs := negateBy_sign b
  simp only [haabs, hbabs, BitVec.slt_iff_toInt_lt, htwo, toInt_abs_of_ne ha, toInt_abs_of_ne hb, sign_eq_iff hw]
  by_cases hsmall : |a.toInt| < 2 ∨ |b.toInt| < 2
  · rw [if_pos hsmall]
    have hfits : Fits w (a.toInt * b.toInt) := by
      rcases hsmall with h | h
      · exact small_mul_fits hw h (fits_toInt b) hbmin
      · rw [Int.mul_comm]
        exact small_mul_fits hw h (fits_toInt a) hamin
    exact congrArg some (decide_eq_false (not_not.mpr hfits)).symm
  rw [if_neg hsmall]
  obtain ⟨ha2,hb2⟩ := not_or.mp hsmall
  have hbpos : 0 < |b.toInt| := by omega
  by_cases hsign : a.toInt < 0 ↔ b.toInt < 0
  · obtain ⟨q,hq,hval⟩ := quotient_MAX hw hb (by omega)
    have hnonneg : 0 ≤ a.toInt * b.toInt := by
      rcases lt_or_ge a.toInt 0 with h | h
      · exact mul_nonneg_of_nonpos_of_nonpos h.le (hsign.mp h).le
      · exact mul_nonneg h (not_lt.mp fun hlt => absurd (hsign.mpr hlt) (not_lt.mpr h))
    rw [if_pos hsign, hq]
    refine congrArg some (decide_eq_decide.mpr ?_)
    rw [hval, toInt_abs_of_ne ha, fits_iff_abs, if_pos hnonneg, abs_mul_le_iff hbpos]
    exact not_le.symm
  · obtain ⟨q,hq,hval⟩ := quotient_MIN hw hb (by omega)
    have hneg : ¬0 ≤ a.toInt * b.toInt := by
      have ha0 : a.toInt ≠ 0 := fun h => ha2 (by rw [h]; decide)
      have hb0 : b.toInt ≠ 0 := fun h => hb2 (by rw [h]; decide)
      rw [not_le]
      rcases lt_or_ge a.toInt 0 with h | h
      · exact mul_neg_of_neg_of_pos h (by omega)
      · exact mul_neg_of_pos_of_neg (by omega) (by omega)
    rw [if_neg hsign, hq]
    refine congrArg some (decide_eq_decide.mpr ?_)
    rw [hval, toInt_abs_of_ne ha, fits_iff_abs, if_neg hneg, abs_mul_le_iff hbpos]
    exact not_le.symm

/-- The wrapped product is the exact one where that fits. -/
theorem toInt_mul_of_fits (h : Fits w (a.toInt * b.toInt)) : (a * b).toInt = a.toInt * b.toInt := by
  rw [BitVec.toInt_mul, bmod_of_fits (by omega) h]

end Products

/-! ## Sums -/

section Sums
variable {a b : BitVec w} (hw : 3 ≤ w)
include hw

theorem addv_eq (a b : BitVec w) : addv a b = if Fits w (a.toInt + b.toInt) then .returned (a + b) else .aborted := by
  have htwo := two_pow_eq (w := w) (by omega)
  obtain ⟨halo,hahi⟩ := fits_toInt a
  obtain ⟨hblo,hbhi⟩ := fits_toInt b
  have hcases := bmod_cases (w := w) (z := a.toInt + b.toInt) (by omega) (by omega) (by omega)
  unfold addv
  simp only [BitVec.sle_iff_toInt_le, BitVec.slt_iff_toInt_lt, BitVec.ofNat_eq_ofNat, BitVec.toInt_zero, BitVec.toInt_add]
  rcases hcases with ⟨hlow,hval⟩ | ⟨hfits,hval⟩ | ⟨hhigh,hval⟩
  · -- both are negative
    have hfits : ¬Fits w (a.toInt + b.toInt) := fun h => absurd h.1 (not_le.mpr hlow)
    rw [if_neg (by omega), if_pos (by omega), if_neg hfits]
  · rw [hval, if_pos hfits]
    by_cases hb : 0 ≤ b.toInt
    · rw [if_pos hb, if_neg (by omega)]
    · rw [if_neg hb, if_neg (by omega)]
  · -- neither is
    have hfits : ¬Fits w (a.toInt + b.toInt) := fun h => absurd h.2 (not_lt.mpr hhigh)
    rw [if_pos (by omega), if_pos (by omega), if_neg hfits]

theorem subv_eq (a b : BitVec w) : subv a b = if Fits w (a.toInt - b.toInt) then .returned (a - b) else .aborted := by
  have htwo := two_pow_eq (w := w) (by omega)
  obtain ⟨halo,hahi⟩ := fits_toInt a
  obtain ⟨hblo,hbhi⟩ := fits_toInt b
  have hcases := bmod_cases (w := w) (z := a.toInt - b.toInt) (by omega) (by omega) (by omega)
  unfold subv
  simp only [BitVec.sle_iff_toInt_le, BitVec.slt_iff_toInt_lt, BitVec.ofNat_eq_ofNat, BitVec.toInt_zero, BitVec.toInt_sub]
  rcases hcases with ⟨hlow,hval⟩ | ⟨hfits,hval⟩ | ⟨hhigh,hval⟩
  · have hfits : ¬Fits w (a.toInt - b.toInt) := fun h => absurd h.1 (not_le.mpr hlow)
    rw [if_pos (by omega), if_pos (by omega), if_neg hfits]
  · rw [hval, if_pos hfits]
    by_cases hb : 0 ≤ b.toInt
    · rw [if_pos hb, if_neg (by omega)]
    · rw [if_neg hb, if_neg (by omega)]
  · have hfits : ¬Fits w (a.toInt - b.toInt) := fun h => absurd h.2 (not_lt.mpr hhigh)
    rw [if_neg (by omega), if_pos (by omega), if_neg hfits]

end Sums

/-- The four routines of one width. -/
structure Right (mulo : BitVec w → BitVec w → Option (BitVec w × ℕ)) (mulv : BitVec w → BitVec w → Option (Outcome w))
    (addv subv : BitVec w → BitVec w → Outcome w) : Prop where
  mulo_total : ∀ a b, ∃ v o, mulo a b = some (v,o)
  mulo_overflow : ∀ a b v o, mulo a b = some (v,o) → o = if Fits w (a.toInt * b.toInt) then 0 else 1
  mulo_exact : ∀ a b v o, mulo a b = some (v,o) → Fits w (a.toInt * b.toInt) → v.toInt = a.toInt * b.toInt
  mulv_total : ∀ a b, ∃ r, mulv a b = some r
  mulv_aborted_iff : ∀ a b, mulv a b = some .aborted ↔ ¬Fits w (a.toInt * b.toInt)
  mulv_exact : ∀ a b v, mulv a b = some (.returned v) → v.toInt = a.toInt * b.toInt
  agree : ∀ a b v, mulv a b = some (.returned v) ↔ mulo a b = some (v,0)
  addv_aborted_iff : ∀ a b, addv a b = .aborted ↔ ¬Fits w (a.toInt + b.toInt)
  addv_exact : ∀ a b v, addv a b = .returned v → v.toInt = a.toInt + b.toInt
  subv_aborted_iff : ∀ a b, subv a b = .aborted ↔ ¬Fits w (a.toInt - b.toInt)
  subv_exact : ∀ a b v, subv a b = .returned v → v.toInt = a.toInt - b.toInt

theorem right (hw : 3 ≤ w) : Right (w := w) mulo mulv addv subv := by
  have hmulo : ∀ a b : BitVec w, mulo a b = some (a * b,if Fits w (a.toInt * b.toInt) then 0 else 1) := by
    intro a b
    rw [mulo_eq_overflows, overflows_eq hw]
    by_cases h : Fits w (a.toInt * b.toInt) <;> simp [h]
  have hmulv : ∀ a b : BitVec w,
      mulv a b = some (if Fits w (a.toInt * b.toInt) then .returned (a * b) else .aborted) := by
    intro a b
    rw [mulv_eq_overflows, overflows_eq hw]
    by_cases h : Fits w (a.toInt * b.toInt) <;> simp [h]
  refine ⟨?_,?_,?_,?_,?_,?_,?_,?_,?_,?_,?_⟩
  · intro a b
    exact ⟨_,_,hmulo a b⟩
  · intro a b v o h
    rw [hmulo] at h
    cases h
    rfl
  · intro a b v o h hfits
    rw [hmulo] at h
    cases h
    exact toInt_mul_of_fits hw hfits
  · intro a b
    exact ⟨_,hmulv a b⟩
  · intro a b
    rw [hmulv]
    by_cases h : Fits w (a.toInt * b.toInt) <;> simp [h]
  · intro a b v h
    rw [hmulv] at h
    by_cases hfits : Fits w (a.toInt * b.toInt)
    · rw [if_pos hfits] at h
      cases h
      exact toInt_mul_of_fits hw hfits
    · rw [if_neg hfits] at h
      cases h
  · intro a b v
    rw [hmulv, hmulo]
    by_cases h : Fits w (a.toInt * b.toInt) <;> simp [h]
  · intro a b
    rw [addv_eq hw]
    by_cases h : Fits w (a.toInt + b.toInt) <;> simp [h]
  · intro a b v h
    rw [addv_eq hw] at h
    by_cases hfits : Fits w (a.toInt + b.toInt)
    · rw [if_pos hfits] at h
      cases h
      rw [BitVec.toInt_add, bmod_of_fits (by omega) hfits]
    · rw [if_neg hfits] at h
      cases h
  · intro a b
    rw [subv_eq hw]
    by_cases h : Fits w (a.toInt - b.toInt) <;> simp [h]
  · intro a b v h
    rw [subv_eq hw] at h
    by_cases hfits : Fits w (a.toInt - b.toInt)
    · rw [if_pos hfits] at h
      cases h
      rw [BitVec.toInt_sub, bmod_of_fits (by omega) hfits]
    · rw [if_neg hfits] at h
      cases h

theorem checked_right : Right mulosi4 mulvsi3 addvsi3 subvsi3 ∧ Right mulodi4 mulvdi3 addvdi3 subvdi3 ∧
    Right muloti4 mulvti3 addvti3 subvti3 :=
  ⟨right (by decide),right (by decide),right (by decide)⟩

end CompilerRt.CheckedArithmetic
