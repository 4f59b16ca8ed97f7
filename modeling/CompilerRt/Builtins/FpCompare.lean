import CompilerRt.Builtins.FpRounds
import CompilerRt.Lib.BinaryOrder

/-! # Soft-float comparisons

`lib/comparesf2.c` and `lib/comparedf2.c`. Representations are compared as signed integers, the other way round where
both are negative.
-/
namespace CompilerRt.FpCompare
open CShift FpLib

def LE_LESS : ℤ := -1
def LE_EQUAL : ℤ := 0
def LE_GREATER : ℤ := 1
def LE_UNORDERED : ℤ := 1

def GE_LESS : ℤ := -1
def GE_EQUAL : ℤ := 0
def GE_GREATER : ℤ := 1
/-- Different from `LE_UNORDERED`. -/
def GE_UNORDERED : ℤ := -1

section Shared
variable (t : ShiftTarget) (F : Format)

def le2 (a b : F.Rep) : Option ℤ := do
  let k ← macros t F
  let aAbs := a &&& k.absMask
  let bAbs := b &&& k.absMask
  if k.infRep < aAbs ∨ k.infRep < bAbs then return LE_UNORDERED
  else if aAbs ||| bAbs = 0 then return LE_EQUAL
  else if (0 : F.Rep).sle (a &&& b) then
    if a.slt b then return LE_LESS else if a = b then return LE_EQUAL else return LE_GREATER
  else
    if b.slt a then return LE_LESS else if a = b then return LE_EQUAL else return LE_GREATER

def ge2 (a b : F.Rep) : Option ℤ := do
  let k ← macros t F
  let aAbs := a &&& k.absMask
  let bAbs := b &&& k.absMask
  if k.infRep < aAbs ∨ k.infRep < bAbs then return GE_UNORDERED
  else if aAbs ||| bAbs = 0 then return GE_EQUAL
  else if (0 : F.Rep).sle (a &&& b) then
    if a.slt b then return GE_LESS else if a = b then return GE_EQUAL else return GE_GREATER
  else
    if b.slt a then return GE_LESS else if a = b then return GE_EQUAL else return GE_GREATER

def unord2 (a b : F.Rep) : Option ℤ := do
  let k ← macros t F
  let aAbs := a &&& k.absMask
  let bAbs := b &&& k.absMask
  return if k.infRep < aAbs ∨ k.infRep < bAbs then 1 else 0

end Shared

section Names
variable (t : ShiftTarget)

def lesf2 : BitVec 32 → BitVec 32 → Option ℤ := le2 t single
def gesf2 : BitVec 32 → BitVec 32 → Option ℤ := ge2 t single
def unordsf2 : BitVec 32 → BitVec 32 → Option ℤ := unord2 t single
def eqsf2 : BitVec 32 → BitVec 32 → Option ℤ := lesf2 t
def ltsf2 : BitVec 32 → BitVec 32 → Option ℤ := lesf2 t
def nesf2 : BitVec 32 → BitVec 32 → Option ℤ := lesf2 t
def gtsf2 : BitVec 32 → BitVec 32 → Option ℤ := gesf2 t

variable (c : Double.RepClz)

def ledf2 : BitVec 64 → BitVec 64 → Option ℤ := le2 t (double c)
def gedf2 : BitVec 64 → BitVec 64 → Option ℤ := ge2 t (double c)
def unorddf2 : BitVec 64 → BitVec 64 → Option ℤ := unord2 t (double c)
def eqdf2 : BitVec 64 → BitVec 64 → Option ℤ := ledf2 t c
def ltdf2 : BitVec 64 → BitVec 64 → Option ℤ := ledf2 t c
def nedf2 : BitVec 64 → BitVec 64 → Option ℤ := ledf2 t c
def gtdf2 : BitVec 64 → BitVec 64 → Option ℤ := gedf2 t c

end Names

section Compare
variable {t : ShiftTarget} {F : Format} {a b : F.Rep}

/-- The signed integer of a representation. -/
def key (x : F.Rep) : ℤ := F.binary.key x.toNat

/-- The extended real of a representation that is not a NaN. -/
def value (x : F.Rep) : WithBot (WithTop ℚ) := F.binary.value x.toNat

theorem key_eq (x : F.Rep) : key x = if F.sign x then -(F.abs x : ℤ) else F.abs x := rfl

theorem toInt_eq (x : F.Rep) : x.toInt = if F.sign x then (F.abs x : ℤ) - 2 ^ (F.typeWidth - 1) else F.abs x := by
  have hnat := Format.toNat_eq x
  have habs := Format.abs_lt x
  have htwo := F.two_pow_width
  have hcast : ((2 ^ (F.typeWidth - 1) : ℕ) : ℤ) = 2 ^ (F.typeWidth - 1) := by norm_cast
  rw [BitVec.toInt_eq_toNat_cond]
  cases hs : F.sign x with
  | false =>
    rw [hs, Bool.toNat_false, Nat.zero_mul, Nat.zero_add] at hnat
    rw [if_pos (by omega), hnat]
    rfl
  | true =>
    rw [hs, Bool.toNat_true, Nat.one_mul] at hnat
    rw [if_neg (by omega), if_pos rfl]
    omega

theorem eq_iff_toInt : a = b ↔ a.toInt = b.toInt := BitVec.toInt_inj.symm

theorem zero_sle_iff (x : F.Rep) : (0 : F.Rep).sle x = true ↔ F.sign x = false := by
  have habs := Format.abs_lt x
  have hcast : ((2 ^ (F.typeWidth - 1) : ℕ) : ℤ) = 2 ^ (F.typeWidth - 1) := by norm_cast
  rw [BitVec.sle_iff_toInt_le, BitVec.ofNat_eq_ofNat, BitVec.toInt_zero, toInt_eq]
  cases F.sign x with
  | false => simp
  | true =>
    rw [if_pos rfl]
    exact iff_of_false (by omega) nofun

theorem or_abs_eq_zero_iff : (a &&& F.k.absMask) ||| (b &&& F.k.absMask) = 0 ↔ F.abs a = 0 ∧ F.abs b = 0 := by
  have habs : ∀ x : F.Rep, x &&& F.k.absMask = 0#F.typeWidth ↔ F.abs x = 0 := by
    intro x
    rw [← Format.toNat_abs, ← BitVec.toNat_inj, BitVec.toNat_zero]
  rw [BitVec.ofNat_eq_ofNat, BitVec.or_eq_zero_iff, habs, habs]

theorem infRep_lt_iff (x : F.Rep) : F.k.infRep < x &&& F.k.absMask ↔ F.IsNaN x := by
  rw [BitVec.lt_def, Format.toNat_abs, F.toNat_infRep_eq]
  rfl

/-- The sign of the comparison of the keys. -/
def order (a b : F.Rep) : ℤ := if key a < key b then -1 else if key a = key b then 0 else 1

/-- The comparison as signed integers is turned round where both are negative; zeros are set apart before. -/
theorem compare_eq (a b : F.Rep) :
    (if (a &&& F.k.absMask) ||| (b &&& F.k.absMask) = 0 then (0 : ℤ)
    else if (0 : F.Rep).sle (a &&& b) then if a.slt b then -1 else if a = b then 0 else 1
    else if b.slt a then -1 else if a = b then 0 else 1) = order a b := by
  have ha := Format.abs_lt a
  have hb := Format.abs_lt b
  have hcast : ((2 ^ (F.typeWidth - 1) : ℕ) : ℤ) = 2 ^ (F.typeWidth - 1) := by norm_cast
  rw [order, key_eq, key_eq]
  by_cases hzero : F.abs a = 0 ∧ F.abs b = 0
  · obtain ⟨ha0,hb0⟩ := hzero
    rw [if_pos (or_abs_eq_zero_iff.mpr ⟨ha0,hb0⟩), ha0, hb0]
    simp
  rw [if_neg (or_abs_eq_zero_iff.not.mpr hzero)]
  simp only [zero_sle_iff, Format.sign_and, BitVec.slt_iff_toInt_lt, eq_iff_toInt, toInt_eq]
  cases F.sign a with
  | false =>
    cases F.sign b with
    | false => simp
    | true =>
      simp only [Bool.false_and, ↓reduceIte, Bool.false_eq_true]
      rw [if_neg (by omega), if_neg (by omega), if_neg (by omega), if_neg (by omega)]
  | true =>
    cases F.sign b with
    | false =>
      simp only [Bool.and_false, ↓reduceIte, Bool.false_eq_true]
      rw [if_pos (by omega), if_pos (by omega)]
    | true =>
      simp only [Bool.and_true, ↓reduceIte, Bool.true_eq_false]
      split_ifs <;> omega

theorem le2_eq (t : ShiftTarget) (a b : F.Rep) :
    le2 t F a b = some (if F.IsNaN a ∨ F.IsNaN b then 1 else order a b) := by
  rw [le2, macros_eq, Option.bind_eq_bind, Option.bind_some, ← compare_eq]
  simp only [infRep_lt_iff]
  by_cases hnan : F.IsNaN a ∨ F.IsNaN b
  · rw [if_pos hnan, if_pos hnan]
    rfl
  · rw [if_neg hnan, if_neg hnan]
    split_ifs <;> rfl

theorem ge2_eq (t : ShiftTarget) (a b : F.Rep) :
    ge2 t F a b = some (if F.IsNaN a ∨ F.IsNaN b then -1 else order a b) := by
  rw [ge2, macros_eq, Option.bind_eq_bind, Option.bind_some, ← compare_eq]
  simp only [infRep_lt_iff]
  by_cases hnan : F.IsNaN a ∨ F.IsNaN b
  · rw [if_pos hnan, if_pos hnan]
    rfl
  · rw [if_neg hnan, if_neg hnan]
    split_ifs <;> rfl

theorem unord2_eq (t : ShiftTarget) (a b : F.Rep) : unord2 t F a b = some (if F.IsNaN a ∨ F.IsNaN b then 1 else 0) := by
  rw [unord2, macros_eq, Option.bind_eq_bind, Option.bind_some]
  simp only [infRep_lt_iff]
  rfl

/-- The key orders numbers as their values are ordered. -/
theorem order_spec (ha : ¬F.IsNaN a) (hb : ¬F.IsNaN b) : (order a b < 0 ↔ value a < value b) ∧
    (order a b = 0 ↔ value a = value b) ∧ (0 < order a b ↔ value b < value a) := by
  have h0 := F.inf_pos
  have hlt : value a < value b ↔ key a < key b := BinaryFormat.value_lt_iff h0 ha hb
  have heq : value a = value b ↔ key a = key b := BinaryFormat.value_eq_iff h0 ha hb
  have hgt : value b < value a ↔ key b < key a := BinaryFormat.value_lt_iff h0 hb ha
  rw [hlt, heq, hgt, order]
  rcases lt_trichotomy (key a) (key b) with h | h | h
  · rw [if_pos h]
    omega
  · rw [if_neg (by omega), if_pos h]
    omega
  · rw [if_neg (by omega), if_neg (by omega)]
    omega

/-- Two representations with one key are the same, or both are zeros. -/
theorem eq_of_key (h : key a = key b) : a = b ∨ F.abs a = 0 ∧ F.abs b = 0 := by
  rw [key_eq, key_eq] at h
  cases hsa : F.sign a with
  | false =>
    cases hsb : F.sign b with
    | false =>
      refine .inl (BitVec.eq_of_toNat_eq ?_)
      rw [Format.toNat_eq a, Format.toNat_eq b, hsa, hsb]
      simp_all
    | true => exact .inr (by simp_all)
  | true =>
    cases hsb : F.sign b with
    | false => exact .inr (by simp_all)
    | true =>
      refine .inl (BitVec.eq_of_toNat_eq ?_)
      rw [Format.toNat_eq a, Format.toNat_eq b, hsa, hsb]
      simp_all

end Compare

/-- The three routines of a format compare as numbers are ordered, and tell NaNs apart. -/
structure IsOrder (F : Format) (le ge unord : F.Rep → F.Rep → Option ℤ) : Prop where
  number : ∀ a b, ¬F.IsNaN a → ¬F.IsNaN b → ∃ r, le a b = some r ∧ ge a b = some r ∧
    (r < 0 ↔ value a < value b) ∧ (r = 0 ↔ value a = value b) ∧ (0 < r ↔ value b < value a)
  nan : ∀ a b, F.IsNaN a ∨ F.IsNaN b → ∃ l g, le a b = some l ∧ ge a b = some g ∧ 0 < l ∧ g < 0
  unordered : ∀ a b, ∃ r, unord a b = some r ∧ (r ≠ 0 ↔ F.IsNaN a ∨ F.IsNaN b)
  antisymm : ∀ a b r s, ¬F.IsNaN a → ¬F.IsNaN b → le a b = some r → r ≤ 0 → le b a = some s → s ≤ 0 →
    a = b ∨ F.abs a = 0 ∧ F.abs b = 0
  trans : ∀ a b d r s u, ¬F.IsNaN a → ¬F.IsNaN b → ¬F.IsNaN d → le a b = some r → r ≤ 0 → le b d = some s → s ≤ 0 →
    le a d = some u → u ≤ 0

theorem isOrder (t : ShiftTarget) (F : Format) : IsOrder F (le2 t F) (ge2 t F) (unord2 t F) := by
  refine ⟨?_,?_,?_,?_,?_⟩
  · intro a b ha hb
    have hnan : ¬(F.IsNaN a ∨ F.IsNaN b) := not_or.mpr ⟨ha,hb⟩
    exact ⟨order a b,by rw [le2_eq, if_neg hnan],by rw [ge2_eq, if_neg hnan],order_spec ha hb⟩
  · intro a b hnan
    exact ⟨1,-1,by rw [le2_eq, if_pos hnan],by rw [ge2_eq, if_pos hnan],by decide,by decide⟩
  · intro a b
    refine ⟨_,unord2_eq t a b,?_⟩
    split_ifs with h <;> simp [h]
  · intro a b r s ha hb hr hr0 hs hs0
    rw [le2_eq, if_neg (not_or.mpr ⟨ha,hb⟩)] at hr
    rw [le2_eq, if_neg (not_or.mpr ⟨hb,ha⟩)] at hs
    obtain rfl := Option.some.inj hr
    obtain rfl := Option.some.inj hs
    refine eq_of_key ?_
    unfold order at hr0 hs0
    split_ifs at hr0 hs0 <;> omega
  · intro a b d r s u ha hb hd hr hr0 hs hs0 hu
    rw [le2_eq, if_neg (not_or.mpr ⟨ha,hb⟩)] at hr
    rw [le2_eq, if_neg (not_or.mpr ⟨hb,hd⟩)] at hs
    rw [le2_eq, if_neg (not_or.mpr ⟨ha,hd⟩)] at hu
    obtain rfl := Option.some.inj hr
    obtain rfl := Option.some.inj hs
    obtain rfl := Option.some.inj hu
    unfold order at hr0 hs0 ⊢
    split_ifs at hr0 hs0 ⊢ <;> omega

/-- Both precisions; the other names are those of `le` and `ge`. -/
theorem comparisons_right (t : ShiftTarget) (c : Double.RepClz) :
    (IsOrder single (lesf2 t) (gesf2 t) (unordsf2 t) ∧ eqsf2 t = lesf2 t ∧ ltsf2 t = lesf2 t ∧ nesf2 t = lesf2 t ∧
      gtsf2 t = gesf2 t) ∧
    IsOrder (double c) (ledf2 t c) (gedf2 t c) (unorddf2 t c) ∧ eqdf2 t c = ledf2 t c ∧ ltdf2 t c = ledf2 t c ∧
      nedf2 t c = ledf2 t c ∧ gtdf2 t c = gedf2 t c :=
  ⟨⟨isOrder t single,rfl,rfl,rfl,rfl⟩,isOrder t (double c),rfl,rfl,rfl,rfl⟩

end CompilerRt.FpCompare
