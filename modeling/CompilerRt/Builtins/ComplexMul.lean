import CompilerRt.Builtins.FpAddRounds
import CompilerRt.Builtins.FpMulRounds

/-! # Complex multiplication

`lib/mulsc3.c` and `lib/muldc3.c` are one text for the two precisions, over the library's own operators. A product with
no number in either part is computed once more where it has to be infinite.
-/
namespace CompilerRt.ComplexMul
open CShift FpLib FpMul FpAdd

section Code
variable (F : Format)

structure Operands where
  a : F.Rep
  b : F.Rep
  c : F.Rep
  d : F.Rep

def copysign (x y : F.Rep) : F.Rep := (x &&& F.k.absMask) ||| (y &&& F.k.signBit)

/-- The number 1. -/
def one : F.Rep := BitVec.ofNat _ (F.k.exponentBias * 2 ^ F.significandBits)

/-- `x = copysign(isinf(x) ? 1 : 0, x)` -/
def box (x : F.Rep) : F.Rep := copysign F (if F.IsInf x then one F else 0) x

/-- `if (isnan(x)) x = copysign(0, x)` -/
def dropNaN (x : F.Rep) : F.Rep := if F.IsNaN x then copysign F 0 x else x

/-- The operands with which the product is computed once more, and `recalc`. -/
def recover (x : Operands F) (overflow : Bool) : Operands F × Bool :=
  let (x,recalc) := if F.IsInf x.a ∨ F.IsInf x.b then
      (⟨box F x.a,box F x.b,dropNaN F x.c,dropNaN F x.d⟩,true)
    else (x,false)
  let (x,recalc) := if F.IsInf x.c ∨ F.IsInf x.d then
      (⟨dropNaN F x.a,dropNaN F x.b,box F x.c,box F x.d⟩,true)
    else (x,recalc)
  if !recalc && overflow then
    (⟨dropNaN F x.a,dropNaN F x.b,dropNaN F x.c,dropNaN F x.d⟩,true)
  else (x,recalc)

variable (mul add sub : F.Rep → F.Rep → Option F.Rep)

def complexMul (x : Operands F) : Option (F.Rep × F.Rep) := do
  let ac ← mul x.a x.c
  let bd ← mul x.b x.d
  let ad ← mul x.a x.d
  let bc ← mul x.b x.c
  let re ← sub ac bd
  let im ← add ad bc
  if F.IsNaN re ∧ F.IsNaN im then
    let (x,recalc) := recover F x (F.IsInf ac ∨ F.IsInf bd ∨ F.IsInf ad ∨ F.IsInf bc)
    if recalc then
      let ac ← mul x.a x.c
      let bd ← mul x.b x.d
      let re ← mul F.k.infRep (← sub ac bd)
      let ad ← mul x.a x.d
      let bc ← mul x.b x.c
      let im ← mul F.k.infRep (← add ad bc)
      return (re,im)
    else return (re,im)
  else return (re,im)

end Code

def mulsc3 (t : ShiftTarget) (a b c d : BitVec 32) : Option (BitVec 32 × BitVec 32) :=
  complexMul single (mulsf3 t) (addsf3 t) (subsf3 t) ⟨a,b,c,d⟩

def muldc3 (t : ShiftTarget) (clz : Double.RepClz) (a b c d : BitVec 64) : Option (BitVec 64 × BitVec 64) :=
  complexMul (double clz) (muldf3 t clz) (adddf3 t clz) (subdf3 t clz) ⟨a,b,c,d⟩

/-! ## Sums, differences and products -/

section Operations
variable {F : Format} {x y r p p' : F.Rep} {σ : Bool}

/-- What a sum and a difference have in common; `σ` says that the second operand is subtracted. -/
structure Adds (σ : Bool) (x y r : F.Rep) : Prop where
  nan : F.IsNaN x ∨ F.IsNaN y → F.IsNaN r
  invalid : F.IsInf x → F.IsInf y → F.sign x ≠ (σ ^^ F.sign y) → F.IsNaN r
  infinite : ¬F.IsNaN x → ¬F.IsNaN y → F.IsInf x ∨ F.IsInf y → (F.IsInf x → F.IsInf y → F.sign x = (σ ^^ F.sign y)) →
    F.IsInf r
  finite : F.IsFinite x → F.IsFinite y → F.binary.Rounds (F.rat x + (if σ then -1 else 1) * F.rat y) r.toNat

theorem adds_of_isSum (h : IsSum x y r) : Adds false x y r := by
  refine ⟨fun hn => ?_,fun hx hy hs => ?_,fun hx hy hi hs => ?_,fun hx hy => ?_⟩
  · by_cases hx : F.IsNaN x
    · exact (h.nan_left hx).1.1
    · exact (h.nan_right hx (hn.resolve_left hx)).1.1
  · exact (h.invalid hx hy (by simpa using hs)).1
  · by_cases hinf : F.IsInf x
    · rwa [h.infinite_left hinf hy fun hyi => by simpa using hs hinf hyi]
    · have hyi := hi.resolve_left hinf
      rwa [h.infinite_right (Format.isFinite_iff.mpr ⟨hx,hinf⟩) hyi]
  · simpa using (h.finite hx hy).1

theorem adds_of_isDifference (h : IsDifference x y r) : Adds true x y r := by
  refine ⟨fun hn => ?_,fun hx hy hs => ?_,fun hx hy hi hs => ?_,fun hx hy => ?_⟩
  · by_cases hx : F.IsNaN x
    · exact (h.nan_left hx).1.1
    · exact (h.nan_right hx (hn.resolve_left hx)).1.1
  · exact (h.invalid hx hy (by simpa using hs)).1
  · by_cases hinf : F.IsInf x
    · rwa [h.infinite_left hinf hy fun hyi => by simp [hs hinf hyi]]
    · have hyi := hi.resolve_left hinf
      exact (h.infinite_right (Format.isFinite_iff.mpr ⟨hx,hinf⟩) hyi).1
  · simpa [sub_eq_add_neg] using (h.finite hx hy).1

theorem not_isNaN_of_rounds {q : ℚ} (h : F.binary.Rounds q r.toNat) : ¬F.IsNaN r := not_lt.mpr h.nearest.le_top

theorem abs_of_rounds_zero (h : F.binary.Rounds 0 r.toNat) : F.abs r = 0 := by
  have hzero : F.binary.toRat false 0 = 0 := by simp [BinaryFormat.toRat, BinaryFormat.mag_zero]
  rw [← hzero] at h
  exact h.abs_of_toRat (Nat.zero_le _)

theorem isFinite_of_abs (h : F.abs x = 0) : F.IsFinite x := by
  have hpos := F.inf_pos
  unfold Format.IsFinite
  omega

namespace Adds
variable (h : Adds σ x y r)
include h

/-- An operand that is no finite number makes the result none. -/
theorem special (hs : ¬F.IsFinite x ∨ ¬F.IsFinite y) : F.IsNaN r ∨ F.IsInf r := by
  simp only [Format.isFinite_iff, not_and_or, not_not] at hs
  by_cases hn : F.IsNaN x ∨ F.IsNaN y
  · exact Or.inl (h.nan hn)
  · have hinf : F.IsInf x ∨ F.IsInf y := by tauto
    rw [not_or] at hn
    by_cases hbad : F.IsInf x ∧ F.IsInf y ∧ F.sign x ≠ (σ ^^ F.sign y)
    · exact Or.inl (h.invalid hbad.1 hbad.2.1 hbad.2.2)
    · exact Or.inr (h.infinite hn.1 hn.2 hinf fun hx hy => by tauto)

theorem clash (hx : ¬F.IsNaN x) (hy : ¬F.IsNaN y) (hr : F.IsNaN r) :
    F.IsInf x ∧ F.IsInf y ∧ F.sign x ≠ (σ ^^ F.sign y) := by
  by_contra hbad
  by_cases hinf : F.IsInf x ∨ F.IsInf y
  · exact hr.others.1 (h.infinite hx hy hinf fun hxi hyi => by tauto)
  · rw [not_or] at hinf
    exact not_isNaN_of_rounds (h.finite (Format.isFinite_iff.mpr ⟨hx,hinf.1⟩) (Format.isFinite_iff.mpr ⟨hy,hinf.2⟩)) hr

theorem isInf_left (hx : F.IsInf x) (hy : F.IsFinite y) : F.IsInf r :=
  h.infinite hx.others.1 hy.others.1 (Or.inl hx) fun _ hyi => absurd hyi hy.others.2

theorem isInf_right (hx : F.IsFinite x) (hy : F.IsInf y) : F.IsInf r :=
  h.infinite hx.others.1 hy.others.1 (Or.inr hy) fun hxi _ => absurd hxi hx.others.2

/-- A sum of numbers of the format does not underflow. -/
theorem abs_ne_zero (hx : F.IsFinite x) (hy : F.IsFinite y) (hq : F.rat x + (if σ then -1 else 1) * F.rat y ≠ 0) :
    F.abs r ≠ 0 := by
  have hunit := F.binary.two_pow_emin_pos
  obtain ⟨m,hm⟩ := Format.exists_int x
  obtain ⟨n,hn⟩ := Format.exists_int y
  obtain ⟨z,hz⟩ : ∃ z : ℤ, F.rat x + (if σ then -1 else 1) * F.rat y = z * 2 ^ F.binary.emin := by
    cases σ
    · exact ⟨m + n,by rw [hm, hn]; push_cast; simp; ring⟩
    · exact ⟨m - n,by rw [hm, hn]; push_cast; simp; ring⟩
  have hz0 : z ≠ 0 := by
    rintro rfl
    exact hq (by rw [hz]; simp)
  have hge : (1 : ℚ) ≤ |(z : ℚ)| := by exact_mod_cast Int.one_le_abs hz0
  have hnear := (h.finite hx hy).nearest
  rw [hz, abs_mul, abs_of_pos hunit, mul_div_cancel_right₀ _ hunit.ne'] at hnear
  intro h0
  have hone : F.binary.mag 1 = 1 := BinaryFormat.mag_denormal (Nat.one_lt_two_pow F.significandBits_pos.ne')
  have hle := hnear.nearest 1 F.inf_pos
  change |_ - (F.binary.mag (F.abs r) : ℚ)| ≤ |_ - (F.binary.mag 1 : ℚ)| at hle
  rw [h0, hone, BinaryFormat.mag_zero, Nat.cast_zero, sub_zero, abs_abs, Nat.cast_one,
    abs_of_nonneg (sub_nonneg.mpr hge)] at hle
  linarith

end Adds

theorem product_special (h : IsProduct x y p) (hs : F.IsInf x ∨ F.IsInf y) : ¬F.IsFinite p := by
  rw [Format.isFinite_iff, not_and_or, not_not, not_not]
  by_cases hn : F.IsNaN x ∨ F.IsNaN y
  · exact Or.inl (h.nan hn).1
  · rw [not_or] at hn
    by_cases hz : F.IsInf x ∧ F.abs y = 0 ∨ F.abs x = 0 ∧ F.IsInf y
    · exact Or.inl (h.invalid hz).1
    · refine Or.inr (h.infinite ?_).1
      tauto

/-- An infinite product of numbers. -/
theorem product_overflow (h : IsProduct x y p) (hx : ¬F.IsInf x) (hy : ¬F.IsInf y) (hp : F.IsInf p) :
    F.IsFinite x ∧ F.IsFinite y ∧ F.sign p = (F.sign x ^^ F.sign y) := by
  have hnan : ¬(F.IsNaN x ∨ F.IsNaN y) := fun hn => hp.others.1 (h.nan hn).1
  rw [not_or] at hnan
  have hxf : F.IsFinite x := Format.isFinite_iff.mpr ⟨hnan.1,hx⟩
  have hyf : F.IsFinite y := Format.isFinite_iff.mpr ⟨hnan.2,hy⟩
  refine ⟨hxf,hyf,?_⟩
  have hround := (h.finite hxf hyf).1
  have hq : F.rat x * F.rat y ≠ 0 := fun hq => hp.others.2.1 (abs_of_rounds_zero (hq ▸ hround))
  have hx0 : 0 < F.abs x := Nat.pos_of_ne_zero fun h0 => hq (by rw [Format.rat_of_zero h0, zero_mul])
  have hy0 : 0 < F.abs y := Nat.pos_of_ne_zero fun h0 => hq (by rw [Format.rat_of_zero h0, mul_zero])
  exact (hround.sign hq).trans (Format.decide_mul_neg hx0 hy0)

theorem product_same (h : IsProduct x y p) (h' : IsProduct x y p') (hx : ¬F.IsInf x) (hy : ¬F.IsInf y) (hp : F.IsInf p) :
    F.IsInf p' := by
  obtain ⟨hxf,hyf,-⟩ := product_overflow h hx hy hp
  have heq : F.abs p' = F.abs p := (h'.finite hxf hyf).1.nearest.unique (h.finite hxf hyf).1.nearest
  exact heq.trans hp

theorem product_zero (h : IsProduct x y p) (hx : F.IsFinite x) (hy : F.IsFinite y) (h0 : F.abs x = 0 ∨ F.abs y = 0) :
    F.abs p = 0 := by
  have hq : F.rat x * F.rat y = 0 := by
    rcases h0 with h0 | h0
    · rw [Format.rat_of_zero h0, zero_mul]
    · rw [Format.rat_of_zero h0, mul_zero]
  exact abs_of_rounds_zero (hq ▸ (h.finite hx hy).1)

/-- Infinity times a part that was computed once more. -/
theorem infinity_times (h : IsProduct F.k.infRep x p) (hx : ¬F.IsNaN x) :
    (F.abs x ≠ 0 → F.IsInf p) ∧ (F.abs x = 0 → F.IsNaN p) := by
  have hinf : F.IsInf F.k.infRep := by
    have hfields : F.sign (F.k.infRep ||| 0) = false ∧ F.IsInf (F.k.infRep ||| 0) := Format.infRep_fields (by simp)
    simpa using hfields.2
  exact ⟨fun h0 => (h.infinite (Or.inl ⟨hinf,hx,h0⟩)).1,fun h0 => (h.invalid (Or.inl ⟨hinf,h0⟩)).1⟩

end Operations

/-! ## The operands of the second try -/

section Recover
variable {F : Format} {x y p : F.Rep}

/-- A zero, or 1 or -1. -/
def OneOrZero (x : F.Rep) : Prop := F.abs x = 0 ∨ F.abs x = F.abs (one F)

/-- A number that is not zero, or an infinity. -/
def Counts (x : F.Rep) : Prop := ¬F.IsNaN x ∧ F.abs x ≠ 0

theorem counts_of_isInf (h : F.IsInf x) : Counts x := ⟨h.others.1,h.others.2.1⟩

theorem abs_copysign (x y : F.Rep) : F.abs (copysign F x y) = F.abs x := by
  have hzero : F.k.signBit &&& F.k.absMask = 0 := by
    apply BitVec.eq_of_toNat_eq
    rw [toNat_and_absMask, F.toNat_signBit, Nat.mod_self]
    simp
  have hbits : copysign F x y &&& F.k.absMask = (x &&& F.k.absMask) ||| (y &&& (F.k.signBit &&& F.k.absMask)) := by
    ext i
    simp [copysign, Bool.and_or_distrib_right, Bool.and_assoc]
  rw [← Format.toNat_abs, hbits, hzero, ← Format.toNat_abs]
  simp

theorem abs_zero : F.abs (0 : F.Rep) = 0 := by
  rw [← Format.toNat_abs]
  simp

theorem bias_pos (F : Format) : 0 < F.k.exponentBias := by
  have hbits := F.exponentBits_bounds
  have hpow : 2 ^ 1 ≤ 2 ^ (F.exponentBits - 1) := Nat.pow_le_pow_right (by decide) (by omega)
  change 0 < 2 ^ (F.exponentBits - 1) - 1
  omega

theorem abs_one (F : Format) : F.abs (one F) = F.k.exponentBias * 2 ^ F.significandBits := by
  have hlt : F.k.exponentBias * 2 ^ F.significandBits < 2 ^ (F.typeWidth - 1) := by
    rw [Format.width_sub_one, Nat.add_comm, pow_add]
    refine Nat.mul_lt_mul_of_pos_right ?_ (Nat.two_pow_pos _)
    have hle : 2 ^ (F.exponentBits - 1) ≤ 2 ^ F.exponentBits := Nat.pow_le_pow_right (by decide) (Nat.sub_le _ _)
    have hpos := Nat.two_pow_pos (F.exponentBits - 1)
    change 2 ^ (F.exponentBits - 1) - 1 < _
    omega
  have hw : 2 ^ (F.typeWidth - 1) ≤ 2 ^ F.typeWidth := Nat.pow_le_pow_right (by decide) (Nat.sub_le _ _)
  rw [← Format.toNat_abs, toNat_and_absMask, one, toNat_ofNat_lt (hlt.trans_le hw), Nat.mod_eq_of_lt hlt]

theorem isFinite_one (F : Format) : F.IsFinite (one F) := by
  have hbits := F.exponentBits_bounds
  rw [Format.IsFinite, abs_one, Format.inf_eq]
  refine Nat.mul_lt_mul_of_pos_right ?_ (Nat.two_pow_pos _)
  have hlt : 2 ^ (F.exponentBits - 1) < 2 ^ F.exponentBits := Nat.pow_lt_pow_right (by decide) (by omega)
  have hpos := Nat.two_pow_pos (F.exponentBits - 1)
  change 2 ^ (F.exponentBits - 1) - 1 < _
  omega

theorem abs_one_ne_zero (F : Format) : F.abs (one F) ≠ 0 := by
  rw [abs_one]
  exact (Nat.mul_pos (bias_pos F) (Nat.two_pow_pos _)).ne'

theorem OneOrZero.isFinite (h : OneOrZero x) : F.IsFinite x := by
  rcases h with h | h
  · exact isFinite_of_abs h
  · have hone := isFinite_one F
    unfold Format.IsFinite at *
    omega

theorem rat_of_one (h : F.abs x = F.abs (one F)) : F.rat x = if F.sign x then -1 else 1 := by
  have hmag : F.binary.mag (F.abs x) = (0 + 2 ^ F.significandBits) * 2 ^ (F.k.exponentBias - 1) := by
    rw [h, abs_one, ← Nat.add_zero (F.k.exponentBias * 2 ^ F.significandBits)]
    exact BinaryFormat.mag_of_fields (F := F.binary) (bias_pos F) (Nat.two_pow_pos _)
  have hexp : (F.significandBits : ℤ) + ((F.k.exponentBias - 1 : ℕ) : ℤ) + F.binary.emin = 0 := by
    have hpos := bias_pos F
    rw [Format.emin_eq]
    omega
  have habs : |F.rat x| = 1 := by
    rw [Format.abs_rat, Format.mag_eq, hmag, Nat.zero_add]
    push_cast
    rw [← zpow_natCast, ← zpow_natCast, ← zpow_add₀ (by norm_num), ← zpow_add₀ (by norm_num), hexp, zpow_zero]
  rw [Format.rat_eq, habs]

/-- Infinities become 1 and -1, and all else zero. -/
theorem abs_box (x : F.Rep) : F.abs (box F x) = if F.IsInf x then F.abs (one F) else 0 := by
  rw [box, abs_copysign]
  split_ifs
  · rfl
  · exact abs_zero

theorem oneOrZero_box (x : F.Rep) : OneOrZero (box F x) := by
  rw [OneOrZero, abs_box]
  split_ifs
  · exact Or.inr rfl
  · exact Or.inl rfl

theorem abs_box_ne_zero : F.abs (box F x) ≠ 0 ↔ F.IsInf x := by
  rw [abs_box]
  split_ifs with h
  · simpa [h] using abs_one_ne_zero F
  · simp [h]

theorem abs_dropNaN (x : F.Rep) : F.abs (dropNaN F x) = if F.IsNaN x then 0 else F.abs x := by
  rw [dropNaN]
  split_ifs
  · rw [abs_copysign, abs_zero]
  · rfl

theorem dropNaN_of_not (h : ¬F.IsNaN x) : dropNaN F x = x := if_neg h

theorem isInf_dropNaN : F.IsInf (dropNaN F x) ↔ F.IsInf x := by
  have hinf := F.inf_pos
  by_cases h : F.IsNaN x
  · have hx := h.others.1
    rw [iff_false_right hx, Format.IsInf, abs_dropNaN, if_pos h]
    omega
  · rw [dropNaN_of_not h]

theorem not_isNaN_dropNaN (x : F.Rep) : ¬F.IsNaN (dropNaN F x) := by
  by_cases h : F.IsNaN x
  · rw [Format.IsNaN, abs_dropNaN, if_pos h]
    omega
  · rwa [dropNaN_of_not h]

theorem isFinite_dropNaN (h : ¬F.IsInf x) : F.IsFinite (dropNaN F x) :=
  Format.isFinite_iff.mpr ⟨not_isNaN_dropNaN x,isInf_dropNaN.not.mpr h⟩

theorem abs_dropNaN_ne_zero : F.abs (dropNaN F x) ≠ 0 ↔ Counts x := by
  rw [abs_dropNaN, Counts]
  split_ifs with h <;> simp [h]

theorem OneOrZero.dropNaN (h : OneOrZero x) : dropNaN F x = x := dropNaN_of_not h.isFinite.others.1

end Recover

/-! ## The two parts -/

section Parts
variable {F : Format} {x y p : F.Rep} {v : Operands F} {ac bd ad bc re im : F.Rep} {overflow : Bool} {P : Prop}

theorem isProduct_comm (h : IsProduct x y p) : IsProduct y x p := by
  refine ⟨fun hn => h.nan hn.symm,fun hz => h.invalid (by tauto),fun hi => ?_,fun hy hx => ?_⟩
  · rw [Bool.xor_comm]
    exact h.infinite hi.symm
  · rw [Bool.xor_comm, mul_comm]
    exact h.finite hx hy

theorem Adds.comm (h : Adds false x y p) : Adds false y x p := by
  refine ⟨fun hn => h.nan hn.symm,fun hy hx hs => h.invalid hx hy ?_,fun hy hx hi hs => h.infinite hx hy hi.symm ?_,
    fun hy hx => ?_⟩
  · simpa using hs.symm
  · intro hxi hyi
    simpa using (hs hyi hxi).symm
  · simpa [add_comm] using h.finite hx hy

/-- Nothing is lost in a product with 1, -1 or zero. -/
theorem product_exact (h : IsProduct x y p) (hx : OneOrZero x) (hy : F.IsFinite y) :
    F.IsFinite p ∧ F.rat p = F.rat x * F.rat y := by
  have hround := (h.finite hx.isFinite hy).1
  rcases hx with h0 | hone
  · have hp := product_zero h (isFinite_of_abs h0) hy (Or.inl h0)
    exact ⟨isFinite_of_abs hp,by rw [Format.rat_of_zero hp, Format.rat_of_zero h0, zero_mul]⟩
  · have hq : F.rat x * F.rat y = F.binary.toRat (F.sign x ^^ F.sign y) (F.abs y) := by
      rw [rat_of_one hone, Format.rat, BinaryFormat.toRat, BinaryFormat.toRat]
      cases F.sign x <;> cases F.sign y <;> simp
    rw [hq] at hround ⊢
    have habs : F.abs p = F.abs y := hround.abs_of_toRat hy.le
    exact ⟨by rwa [Format.IsFinite, habs],hround.toRat_eq hy.le⟩

/-- The four products of the parts, and what is made of them. -/
structure Naive (v : Operands F) (ac bd ad bc re im : F.Rep) : Prop where
  isAC : IsProduct v.a v.c ac
  isBD : IsProduct v.b v.d bd
  isAD : IsProduct v.a v.d ad
  isBC : IsProduct v.b v.c bc
  isRe : Adds true ac bd re
  isIm : Adds false ad bc im

def Operands.swap (v : Operands F) : Operands F := ⟨v.c,v.d,v.a,v.b⟩

namespace Naive
variable (h : Naive v ac bd ad bc re im)
include h

theorem swap : Naive v.swap ac bd bc ad re im :=
  ⟨isProduct_comm h.isAC,isProduct_comm h.isBD,isProduct_comm h.isBC,isProduct_comm h.isAD,h.isRe,h.isIm.comm⟩

/-- Each part has every operand in one of its products. -/
theorem special (hs : F.IsInf v.a ∨ F.IsInf v.b ∨ F.IsInf v.c ∨ F.IsInf v.d) :
    (F.IsNaN re ∨ F.IsInf re) ∧ (F.IsNaN im ∨ F.IsInf im) := by
  have hac := product_special h.isAC
  have hbd := product_special h.isBD
  have had := product_special h.isAD
  have hbc := product_special h.isBC
  exact ⟨h.isRe.special (by tauto),h.isIm.special (by tauto)⟩

theorem nan (hn : F.IsNaN v.a ∨ F.IsNaN v.b ∨ F.IsNaN v.c ∨ F.IsNaN v.d) : F.IsNaN re ∧ F.IsNaN im := by
  have hac := fun hn => (h.isAC.nan hn).1
  have hbd := fun hn => (h.isBD.nan hn).1
  have had := fun hn => (h.isAD.nan hn).1
  have hbc := fun hn => (h.isBC.nan hn).1
  exact ⟨h.isRe.nan (by tauto),h.isIm.nan (by tauto)⟩

theorem lost (hs : F.IsInf v.a ∨ F.IsInf v.b) (hc : ¬Counts v.c) (hd : ¬Counts v.d) : F.IsNaN re ∧ F.IsNaN im := by
  have hnan : ∀ {x y p : F.Rep}, IsProduct x y p → F.IsInf x → ¬Counts y → F.IsNaN p := by
    intro x y p hp hx hy
    simp only [Counts, not_and_or, not_not] at hy
    rcases hy with hy | hy
    · exact (hp.nan (Or.inr hy)).1
    · exact (hp.invalid (Or.inl ⟨hx,hy⟩)).1
  rcases hs with hs | hs
  · exact ⟨h.isRe.nan (Or.inl (hnan h.isAC hs hc)),h.isIm.nan (Or.inl (hnan h.isAD hs hd))⟩
  · exact ⟨h.isRe.nan (Or.inr (hnan h.isBD hs hd)),h.isIm.nan (Or.inr (hnan h.isBC hs hc))⟩

/-- The signs of the four products cannot make both parts a difference of infinities. -/
theorem finite (ha : F.IsFinite v.a) (hb : F.IsFinite v.b) (hc : F.IsFinite v.c) (hd : F.IsFinite v.d) :
    ¬(F.IsNaN re ∧ F.IsNaN im) := by
  rintro ⟨hre,him⟩
  have hnum : ∀ {x y p : F.Rep}, IsProduct x y p → F.IsFinite x → F.IsFinite y → ¬F.IsNaN p :=
    fun hp hx hy => not_isNaN_of_rounds (hp.finite hx hy).1
  obtain ⟨hac,hbd,hs⟩ := h.isRe.clash (hnum h.isAC ha hc) (hnum h.isBD hb hd) hre
  obtain ⟨had,hbc,hs'⟩ := h.isIm.clash (hnum h.isAD ha hd) (hnum h.isBC hb hc) him
  rw [(product_overflow h.isAC ha.others.2 hc.others.2 hac).2.2, (product_overflow h.isBD hb.others.2 hd.others.2 hbd).2.2] at hs
  rw [(product_overflow h.isAD ha.others.2 hd.others.2 had).2.2, (product_overflow h.isBC hb.others.2 hc.others.2 hbc).2.2] at hs'
  generalize F.sign v.a = sa at hs hs'
  generalize F.sign v.b = sb at hs hs'
  generalize F.sign v.c = sc at hs hs'
  generalize F.sign v.d = sd at hs hs'
  revert sa sb sc sd
  decide

end Naive

/-- The operands of the second try, the first two from infinities. -/
structure Ready (v : Operands F) (P : Prop) : Prop where
  a : OneOrZero v.a
  b : OneOrZero v.b
  one : F.abs v.a ≠ 0 ∨ F.abs v.b ≠ 0
  c : F.IsFinite v.c
  d : F.IsFinite v.d
  counts : F.abs v.c ≠ 0 ∨ F.abs v.d ≠ 0 ↔ P

/-- The sum of the squares of the parts is the product of those of the operands. -/
theorem Naive.ready (h : Naive v ac bd ad bc re im) (hr : Ready v P) : (¬F.IsNaN re ∧ ¬F.IsNaN im) ∧
    (P → F.abs re ≠ 0 ∨ F.abs im ≠ 0) ∧ (¬P → F.abs re = 0 ∧ F.abs im = 0) := by
  obtain ⟨hac,hqac⟩ := product_exact h.isAC hr.a hr.c
  obtain ⟨hbd,hqbd⟩ := product_exact h.isBD hr.b hr.d
  obtain ⟨had,hqad⟩ := product_exact h.isAD hr.a hr.d
  obtain ⟨hbc,hqbc⟩ := product_exact h.isBC hr.b hr.c
  have hre := h.isRe.finite hac hbd
  have him := h.isIm.finite had hbc
  have hzero : ∀ {x : F.Rep}, F.abs x ≠ 0 → F.rat x ≠ 0 := fun hx => Format.rat_ne_zero (Nat.pos_of_ne_zero hx)
  refine ⟨⟨not_isNaN_of_rounds hre,not_isNaN_of_rounds him⟩,fun hp => ?_,fun hp => ?_⟩
  · by_contra hboth
    rw [not_or, not_not, not_not] at hboth
    have hq : F.rat ac - F.rat bd = 0 := by
      by_contra hne
      exact h.isRe.abs_ne_zero hac hbd (by simpa [sub_eq_add_neg] using hne) hboth.1
    have hq' : F.rat ad + F.rat bc = 0 := by
      by_contra hne
      exact h.isIm.abs_ne_zero had hbc (by simpa using hne) hboth.2
    rw [hqac, hqbd] at hq
    rw [hqad, hqbc] at hq'
    have hsquares : (F.rat v.a ^ 2 + F.rat v.b ^ 2) * (F.rat v.c ^ 2 + F.rat v.d ^ 2) =
        (F.rat v.a * F.rat v.c - F.rat v.b * F.rat v.d) ^ 2 + (F.rat v.a * F.rat v.d + F.rat v.b * F.rat v.c) ^ 2 := by
      ring
    have hpos : ∀ {x y : F.Rep}, F.abs x ≠ 0 ∨ F.abs y ≠ 0 → 0 < F.rat x ^ 2 + F.rat y ^ 2 := by
      intro x y hxy
      rcases hxy with hx | hy
      · have hx2 := pow_pos (abs_pos.mpr (hzero hx)) 2
        rw [sq_abs] at hx2
        exact add_pos_of_pos_of_nonneg hx2 (sq_nonneg _)
      · have hy2 := pow_pos (abs_pos.mpr (hzero hy)) 2
        rw [sq_abs] at hy2
        exact add_pos_of_nonneg_of_pos (sq_nonneg _) hy2
    have hprod := mul_pos (hpos hr.one) (hpos (hr.counts.mpr hp))
    rw [hsquares, hq, hq'] at hprod
    norm_num at hprod
  · rw [← hr.counts, not_or, not_not, not_not] at hp
    have hc := Format.rat_of_zero hp.1
    have hd := Format.rat_of_zero hp.2
    rw [hqac, hqbd, hc, hd] at hre
    rw [hqad, hqbc, hc, hd] at him
    exact ⟨abs_of_rounds_zero (by simpa using hre),abs_of_rounds_zero (by simpa using him)⟩

/-- What the second try gives. -/
def Tried (v : Operands F) (re im : F.Rep) : Prop :=
  ∃ ac bd ad bc re' im', Naive v ac bd ad bc re' im' ∧ IsProduct F.k.infRep re' re ∧ IsProduct F.k.infRep im' im

theorem Tried.swap (h : Tried v re im) : Tried v.swap re im := by
  obtain ⟨_,_,_,_,_,_,hnaive,hre,him⟩ := h
  exact ⟨_,_,_,_,_,_,hnaive.swap,hre,him⟩

theorem Tried.ready (h : Tried v re im) (hr : Ready v P) :
    (P → F.IsInf re ∨ F.IsInf im) ∧ (¬P → F.IsNaN re ∧ F.IsNaN im) := by
  obtain ⟨_,_,_,_,_,_,hnaive,hre,him⟩ := h
  obtain ⟨⟨hre',him'⟩,hne,hzero⟩ := hnaive.ready hr
  exact ⟨fun hp => (hne hp).imp (infinity_times hre hre').1 (infinity_times him him').1,
    fun hp => ⟨(infinity_times hre hre').2 (hzero hp).1,(infinity_times him him').2 (hzero hp).2⟩⟩

/-! ## Which operands are tried again -/

theorem recover_left (hinf : F.IsInf v.a ∨ F.IsInf v.b) :
    (recover F v overflow).2 = true ∧ Ready (recover F v overflow).1 (Counts v.c ∨ Counts v.d) := by
  have hone : F.abs (box F v.a) ≠ 0 ∨ F.abs (box F v.b) ≠ 0 := by rwa [abs_box_ne_zero, abs_box_ne_zero]
  by_cases hcd : F.IsInf v.c ∨ F.IsInf v.d
  · have hrec : recover F v overflow = (⟨box F v.a,box F v.b,box F (dropNaN F v.c),box F (dropNaN F v.d)⟩,true) := by
      simp [recover, hinf, isInf_dropNaN, hcd, (oneOrZero_box _).dropNaN]
    rw [hrec]
    refine ⟨rfl,oneOrZero_box _,oneOrZero_box _,hone,(oneOrZero_box _).isFinite,(oneOrZero_box _).isFinite,?_⟩
    rw [abs_box_ne_zero, abs_box_ne_zero, isInf_dropNaN, isInf_dropNaN, iff_true_left hcd]
    exact hcd.imp counts_of_isInf counts_of_isInf
  · have hrec : recover F v overflow = (⟨box F v.a,box F v.b,dropNaN F v.c,dropNaN F v.d⟩,true) := by
      simp [recover, hinf, isInf_dropNaN, hcd]
    rw [hrec]
    rw [not_or] at hcd
    exact ⟨rfl,oneOrZero_box _,oneOrZero_box _,hone,isFinite_dropNaN hcd.1,isFinite_dropNaN hcd.2,
      by simp [abs_dropNaN_ne_zero]⟩

theorem recover_right (hab : ¬(F.IsInf v.a ∨ F.IsInf v.b)) (hinf : F.IsInf v.c ∨ F.IsInf v.d) :
    (recover F v overflow).2 = true ∧ Ready (recover F v overflow).1.swap (Counts v.a ∨ Counts v.b) := by
  have hrec : recover F v overflow = (⟨dropNaN F v.a,dropNaN F v.b,box F v.c,box F v.d⟩,true) := by
    simp [recover, hab, hinf]
  rw [hrec]
  rw [not_or] at hab
  refine ⟨rfl,oneOrZero_box _,oneOrZero_box _,?_,isFinite_dropNaN hab.1,isFinite_dropNaN hab.2,?_⟩
  · simpa [Operands.swap, abs_box_ne_zero] using hinf
  · simp [Operands.swap, abs_dropNaN_ne_zero]

theorem recover_other (hab : ¬(F.IsInf v.a ∨ F.IsInf v.b)) (hcd : ¬(F.IsInf v.c ∨ F.IsInf v.d)) :
    recover F v overflow = if overflow then (⟨dropNaN F v.a,dropNaN F v.b,dropNaN F v.c,dropNaN F v.d⟩,true)
      else (v,false) := by
  simp [recover, hab, hcd]

/-- An overflow of numbers makes a part infinite again, now that the other product of the part is zero. -/
theorem Tried.overflowed (hn : Naive v ac bd ad bc re im) (hnan : F.IsNaN v.a ∨ F.IsNaN v.b ∨ F.IsNaN v.c ∨ F.IsNaN v.d)
    (hab : ¬(F.IsInf v.a ∨ F.IsInf v.b)) (hcd : ¬(F.IsInf v.c ∨ F.IsInf v.d))
    (ho : F.IsInf ac ∨ F.IsInf bd ∨ F.IsInf ad ∨ F.IsInf bc) {r i : F.Rep}
    (h : Tried ⟨dropNaN F v.a,dropNaN F v.b,dropNaN F v.c,dropNaN F v.d⟩ r i) : F.IsInf r ∨ F.IsInf i := by
  obtain ⟨ac',bd',ad',bc',re',im',hn',hre,him⟩ := h
  rw [not_or] at hab hcd
  have hinfinite : ∀ {x p : F.Rep}, IsProduct F.k.infRep x p → F.IsInf x → F.IsInf p :=
    fun hp hx => (infinity_times hp hx.others.1).1 hx.others.2.1
  -- the product of two numbers is infinite again, and one with a NaN among its operands is zero now
  have hagain : ∀ {x y p p' : F.Rep}, IsProduct x y p → IsProduct (dropNaN F x) (dropNaN F y) p' → ¬F.IsInf x → ¬F.IsInf y →
      F.IsInf p → F.IsInf p' ∧ ¬F.IsNaN x ∧ ¬F.IsNaN y := by
    intro x y p p' hp hp' hx hy hpi
    obtain ⟨hxf,hyf,-⟩ := product_overflow hp hx hy hpi
    rw [dropNaN_of_not hxf.others.1, dropNaN_of_not hyf.others.1] at hp'
    exact ⟨product_same hp hp' hx hy hpi,hxf.others.1,hyf.others.1⟩
  have hgone : ∀ {x y p' : F.Rep}, IsProduct (dropNaN F x) (dropNaN F y) p' → ¬F.IsInf x → ¬F.IsInf y →
      F.IsNaN x ∨ F.IsNaN y → F.IsFinite p' := by
    intro x y p' hp' hx hy hxy
    refine isFinite_of_abs (product_zero hp' (isFinite_dropNaN hx) (isFinite_dropNaN hy) (hxy.imp ?_ ?_))
    · exact fun hx => by rw [abs_dropNaN, if_pos hx]
    · exact fun hy => by rw [abs_dropNaN, if_pos hy]
  rcases ho with ho | ho | ho | ho
  · obtain ⟨hinf,ha,hc⟩ := hagain hn.isAC hn'.isAC hab.1 hcd.1 ho
    have hother := hgone hn'.isBD hab.2 hcd.2 (by tauto)
    exact Or.inl (hinfinite hre (hn'.isRe.isInf_left hinf hother))
  · obtain ⟨hinf,hb,hd⟩ := hagain hn.isBD hn'.isBD hab.2 hcd.2 ho
    have hother := hgone hn'.isAC hab.1 hcd.1 (by tauto)
    exact Or.inl (hinfinite hre (hn'.isRe.isInf_right hother hinf))
  · obtain ⟨hinf,ha,hd⟩ := hagain hn.isAD hn'.isAD hab.1 hcd.2 ho
    have hother := hgone hn'.isBC hab.2 hcd.1 (by tauto)
    exact Or.inr (hinfinite him (hn'.isIm.isInf_left hinf hother))
  · obtain ⟨hinf,hb,hc⟩ := hagain hn.isBC hn'.isBC hab.2 hcd.1 ho
    have hother := hgone hn'.isAD hab.1 hcd.2 (by tauto)
    exact Or.inr (hinfinite him (hn'.isIm.isInf_right hother hinf))

end Parts

/-! ## The routine -/

section Runs
variable {F : Format} {mul add sub : F.Rep → F.Rep → Option F.Rep} {v : Operands F} {a b c d re im : F.Rep}

/-- The operators round right. -/
structure Arithmetic (mul add sub : F.Rep → F.Rep → Option F.Rep) : Prop where
  product : ∀ x y, ∃ r, mul x y = some r ∧ IsProduct x y r
  sum : ∀ x y, ∃ r, add x y = some r ∧ IsSum x y r
  difference : ∀ x y, ∃ r, sub x y = some r ∧ IsDifference x y r

/-- One try of the product, which always has a value. -/
theorem Arithmetic.naive (h : Arithmetic mul add sub) (v : Operands F) : ∃ ac bd ad bc r i,
    (mul v.a v.c = some ac ∧ mul v.b v.d = some bd ∧ mul v.a v.d = some ad ∧ mul v.b v.c = some bc ∧
      sub ac bd = some r ∧ add ad bc = some i) ∧
    Naive v ac bd ad bc r i ∧ IsDifference ac bd r ∧ IsSum ad bc i := by
  obtain ⟨ac,hac,hac'⟩ := h.product v.a v.c
  obtain ⟨bd,hbd,hbd'⟩ := h.product v.b v.d
  obtain ⟨ad,had,had'⟩ := h.product v.a v.d
  obtain ⟨bc,hbc,hbc'⟩ := h.product v.b v.c
  obtain ⟨r,hr,hr'⟩ := h.difference ac bd
  obtain ⟨i,hi,hi'⟩ := h.sum ad bc
  exact ⟨ac,bd,ad,bc,r,i,⟨hac,hbd,had,hbc,hr,hi⟩,
    ⟨hac',hbd',had',hbc',adds_of_isDifference hr',adds_of_isSum hi'⟩,hr',hi'⟩

/-- The first try stands, or the second one takes its place. -/
theorem complexMul_cases (h : Arithmetic mul add sub) (v : Operands F) : ∃ ac bd ad bc r i, Naive v ac bd ad bc r i ∧
    (IsDifference ac bd r ∧ IsSum ad bc i) ∧
    (complexMul F mul add sub v = some (r,i) ∧ (¬(F.IsNaN r ∧ F.IsNaN i) ∨
        (recover F v (F.IsInf ac ∨ F.IsInf bd ∨ F.IsInf ad ∨ F.IsInf bc)).2 = false) ∨
      (F.IsNaN r ∧ F.IsNaN i) ∧ (recover F v (F.IsInf ac ∨ F.IsInf bd ∨ F.IsInf ad ∨ F.IsInf bc)).2 = true ∧
        ∃ re im, complexMul F mul add sub v = some (re,im) ∧
          Tried (recover F v (F.IsInf ac ∨ F.IsInf bd ∨ F.IsInf ad ∨ F.IsInf bc)).1 re im) := by
  obtain ⟨ac,bd,ad,bc,r,i,⟨hac,hbd,had,hbc,hr,hi⟩,hnaive,hparts⟩ := h.naive v
  refine ⟨ac,bd,ad,bc,r,i,hnaive,hparts,?_⟩
  simp only [complexMul, hac, hbd, had, hbc, hr, hi, Option.bind_eq_bind, Option.bind_some, Option.pure_def]
  by_cases hnan : F.IsNaN r ∧ F.IsNaN i
  · simp only [if_pos hnan]
    generalize recover F v (F.IsInf ac ∨ F.IsInf bd ∨ F.IsInf ad ∨ F.IsInf bc) = again
    obtain ⟨w,recalc⟩ := again
    cases recalc with
    | false => exact Or.inl ⟨by simp,Or.inr rfl⟩
    | true =>
      obtain ⟨ac,bd,ad,bc,x,y,⟨hac,hbd,had,hbc,hx,hy⟩,hnaive,-⟩ := h.naive w
      obtain ⟨re,hre,hre'⟩ := h.product F.k.infRep x
      obtain ⟨im,him,him'⟩ := h.product F.k.infRep y
      refine Or.inr ⟨hnan,rfl,re,im,?_,_,_,_,_,_,_,hnaive,hre',him'⟩
      simp [hac, hbd, had, hbc, hx, hy, hre, him]
  · exact Or.inl ⟨by simp [if_neg hnan],Or.inl hnan⟩

/-- An infinite operand makes the product infinite, unless the other one is made of zeros and NaNs only. -/
structure KeepsInfinity (a b c d re im : F.Rep) : Prop where
  kept : (F.IsInf a ∨ F.IsInf b) ∧ (Counts c ∨ Counts d) ∨ (F.IsInf c ∨ F.IsInf d) ∧ (Counts a ∨ Counts b) →
    F.IsInf re ∨ F.IsInf im
  lost : (F.IsInf a ∨ F.IsInf b) ∧ ¬(Counts c ∨ Counts d) ∨ (F.IsInf c ∨ F.IsInf d) ∧ ¬(Counts a ∨ Counts b) →
    F.IsNaN re ∧ F.IsNaN im

theorem keepsInfinity (h : Arithmetic mul add sub) (a b c d : F.Rep) :
    ∃ re im, complexMul F mul add sub ⟨a,b,c,d⟩ = some (re,im) ∧ KeepsInfinity a b c d re im := by
  obtain ⟨ac,bd,ad,bc,r,i,hnaive,-,hcase⟩ := complexMul_cases h ⟨a,b,c,d⟩
  have hcounts : F.IsInf a ∨ F.IsInf b → Counts a ∨ Counts b := Or.imp counts_of_isInf counts_of_isInf
  have hcounts' : F.IsInf c ∨ F.IsInf d → Counts c ∨ Counts d := Or.imp counts_of_isInf counts_of_isInf
  rcases hcase with ⟨hrun,hfirst⟩ | ⟨-,-,re,im,hrun,htried⟩
  · refine ⟨r,i,hrun,fun hk => ?_,fun hl => ?_⟩
    · have hnan : ¬(F.IsNaN r ∧ F.IsNaN i) := by
        rcases hfirst with hnan | hrec
        · exact hnan
        · by_cases hab : F.IsInf a ∨ F.IsInf b
          · exact absurd ((recover_left hab).1.symm.trans hrec) (by simp)
          · have hcd := (hk.resolve_left fun hk => hab hk.1).1
            exact absurd ((recover_right hab hcd).1.symm.trans hrec) (by simp)
      have hany : F.IsInf a ∨ F.IsInf b ∨ F.IsInf c ∨ F.IsInf d := by
        rcases hk with ⟨ha | hb,-⟩ | ⟨hc | hd,-⟩
        · exact Or.inl ha
        · exact Or.inr (Or.inl hb)
        · exact Or.inr (Or.inr (Or.inl hc))
        · exact Or.inr (Or.inr (Or.inr hd))
      obtain ⟨hr | hr,hi⟩ := hnaive.special hany
      · exact Or.inr (hi.resolve_left fun hi => hnan ⟨hr,hi⟩)
      · exact Or.inl hr
    · rcases hl with ⟨hinf,hl⟩ | ⟨hinf,hl⟩
      · rw [not_or] at hl
        exact hnaive.lost hinf hl.1 hl.2
      · rw [not_or] at hl
        exact hnaive.swap.lost hinf hl.1 hl.2
  · refine ⟨re,im,hrun,?_⟩
    by_cases hab : F.IsInf a ∨ F.IsInf b
    · obtain ⟨hk,hl⟩ := htried.ready (recover_left hab).2
      exact ⟨fun h => hk (h.elim And.right fun h => hcounts' h.1),
        fun h => hl (h.elim And.right fun h => absurd (hcounts hab) h.2)⟩
    · by_cases hcd : F.IsInf c ∨ F.IsInf d
      · obtain ⟨hk,hl⟩ := htried.swap.ready (recover_right hab hcd).2
        exact ⟨fun h => hk (h.resolve_left fun h => hab h.1).2,fun h => hl (h.resolve_left fun h => hab h.1).2⟩
      · have hno : ∀ {P Q : Prop}, ¬((F.IsInf a ∨ F.IsInf b) ∧ P ∨ (F.IsInf c ∨ F.IsInf d) ∧ Q) :=
          fun h => h.elim (fun h => hab h.1) fun h => hcd h.1
        exact ⟨fun h => absurd h hno,fun h => absurd h hno⟩

/-- A product of two parts is too big. -/
def Overflows (a b c d : F.Rep) : Prop :=
  ∃ p, F.IsInf p ∧ (IsProduct a c p ∨ IsProduct b d p ∨ IsProduct a d p ∨ IsProduct b c p)

/-- Without infinite operands: numbers give the parts as they are written, of which one is a number or an infinity, and
NaNs give an infinity where numbers overflow. -/
structure RecoversOverflow (a b c d re im : F.Rep) : Prop where
  finite : F.IsFinite a → F.IsFinite b → F.IsFinite c → F.IsFinite d → ¬(F.IsNaN re ∧ F.IsNaN im) ∧ ∃ ac bd ad bc,
    (IsProduct a c ac ∧ IsProduct b d bd ∧ IsProduct a d ad ∧ IsProduct b c bc) ∧ IsDifference ac bd re ∧ IsSum ad bc im
  nan : ¬(F.IsInf a ∨ F.IsInf b) → ¬(F.IsInf c ∨ F.IsInf d) → F.IsNaN a ∨ F.IsNaN b ∨ F.IsNaN c ∨ F.IsNaN d →
    (Overflows a b c d → F.IsInf re ∨ F.IsInf im) ∧ (¬Overflows a b c d → F.IsNaN re ∧ F.IsNaN im)

theorem Naive.overflows_iff {ac bd ad bc r i : F.Rep} (h : Naive ⟨a,b,c,d⟩ ac bd ad bc r i)
    (hab : ¬(F.IsInf a ∨ F.IsInf b)) (hcd : ¬(F.IsInf c ∨ F.IsInf d)) :
    Overflows a b c d ↔ F.IsInf ac ∨ F.IsInf bd ∨ F.IsInf ad ∨ F.IsInf bc := by
  rw [not_or] at hab hcd
  constructor
  · rintro ⟨p,hp,hac | hbd | had | hbc⟩
    · exact Or.inl (product_same hac h.isAC hab.1 hcd.1 hp)
    · exact Or.inr (Or.inl (product_same hbd h.isBD hab.2 hcd.2 hp))
    · exact Or.inr (Or.inr (Or.inl (product_same had h.isAD hab.1 hcd.2 hp)))
    · exact Or.inr (Or.inr (Or.inr (product_same hbc h.isBC hab.2 hcd.1 hp)))
  · rintro (hp | hp | hp | hp)
    · exact ⟨_,hp,Or.inl h.isAC⟩
    · exact ⟨_,hp,Or.inr (Or.inl h.isBD)⟩
    · exact ⟨_,hp,Or.inr (Or.inr (Or.inl h.isAD))⟩
    · exact ⟨_,hp,Or.inr (Or.inr (Or.inr h.isBC))⟩

theorem recoversOverflow (h : Arithmetic mul add sub) (a b c d : F.Rep) :
    ∃ re im, complexMul F mul add sub ⟨a,b,c,d⟩ = some (re,im) ∧ RecoversOverflow a b c d re im := by
  obtain ⟨ac,bd,ad,bc,r,i,hnaive,⟨hr,hi⟩,hcase⟩ := complexMul_cases h ⟨a,b,c,d⟩
  have hparts : F.IsFinite a → F.IsFinite b → F.IsFinite c → F.IsFinite d → ¬(F.IsNaN r ∧ F.IsNaN i) :=
    fun ha hb hc hd => hnaive.finite ha hb hc hd
  rcases hcase with ⟨hrun,hfirst⟩ | ⟨hnan,hrec,re,im,hrun,htried⟩
  · refine ⟨r,i,hrun,fun ha hb hc hd => ?_,fun hab hcd hnan => ⟨fun ho => ?_,fun _ => hnaive.nan hnan⟩⟩
    · exact ⟨hparts ha hb hc hd,ac,bd,ad,bc,⟨hnaive.isAC,hnaive.isBD,hnaive.isAD,hnaive.isBC⟩,hr,hi⟩
    · -- both parts are NaNs, so that the operands would have been tried again
      rw [hnaive.overflows_iff hab hcd] at ho
      have hrec := hfirst.resolve_left (not_not.mpr (hnaive.nan hnan))
      rw [recover_other hab hcd, if_pos (decide_eq_true ho)] at hrec
      cases hrec
  · refine ⟨re,im,hrun,fun ha hb hc hd => absurd hnan (hparts ha hb hc hd),fun hab hcd hn => ?_⟩
    rw [recover_other hab hcd] at hrec htried
    split_ifs at hrec htried with ho
    rw [decide_eq_true_eq] at ho
    rw [hnaive.overflows_iff hab hcd]
    exact ⟨fun _ => htried.overflowed hnaive hn hab hcd ho,fun hno => absurd ho hno⟩

end Runs

section Members
variable {t : ShiftTarget}

theorem arithmetic_single (hread : ReadsFullWidth t) : Arithmetic (F := single) (mulsf3 t) (addsf3 t) (subsf3 t) := by
  refine ⟨fun x y => ?_,fun x y => add_isSum t (F := single) x y,fun x y => sub_isDifference t (F := single) x y⟩
  have hfinish : FinishesRight single (finishSingle t single) := fun hsign h => finishSingle_finished hread hsign h
  exact mul_isProduct hfinish x y

theorem arithmetic_double (t : ShiftTarget) (clz : Double.RepClz) :
    Arithmetic (F := double clz) (muldf3 t clz) (adddf3 t clz) (subdf3 t clz) := by
  refine ⟨fun x y => ?_,fun x y => add_isSum t (F := double clz) x y,fun x y => sub_isDifference t (F := double clz) x y⟩
  have hfinish : FinishesRight (double clz) (finishDouble t (double clz)) := fun hsign h => finishDouble_finished hsign h
  exact mul_isProduct hfinish x y

end Members

end CompilerRt.ComplexMul
