import CompilerRt.Builtins.FpLib
import CompilerRt.Lib.SplitProduct

/-! # Products of double words

`lib/muldi3.c` and `lib/multi3.c` are one program at two widths: the product of the low words from their halves, and
the products that reach the high word only, added to it modulo its width.
-/
namespace CompilerRt.Multiply
open SplitProduct
variable {w : ℕ}

/-- `__muldsi3` and `__mulddi3`, the product of two words of type `BitVec w`. -/
def mulWords (a b : BitVec w) : BitVec (w + w) :=
  let bits_in_word_2 := w / 2
  let lower_mask := BitVec.allOnes w >>> bits_in_word_2
  let low := (a &&& lower_mask) * (b &&& lower_mask)
  let t := low >>> bits_in_word_2
  let low := low &&& lower_mask
  let t := t + (a >>> bits_in_word_2) * (b &&& lower_mask)
  let low := low + (t &&& lower_mask) <<< bits_in_word_2
  let high := t >>> bits_in_word_2
  let t := low >>> bits_in_word_2
  let low := low &&& lower_mask
  let t := t + (b >>> bits_in_word_2) * (a &&& lower_mask)
  let low := low + (t &&& lower_mask) <<< bits_in_word_2
  let high := high + t >>> bits_in_word_2
  let high := high + (a >>> bits_in_word_2) * (b >>> bits_in_word_2)
  high ++ low

/-- The words of a double word. -/
def low (x : BitVec (w + w)) : BitVec w := x.truncate w

def high (x : BitVec (w + w)) : BitVec w := (x >>> w).truncate w

/-- `__muldi3` and `__multi3`. -/
def mulDouble (a b : BitVec (w + w)) : BitVec (w + w) :=
  let r := mulWords (low a) (low b)
  (high r + (high a * low b + low a * high b)) ++ low r

def muldsi3 (a b : BitVec 32) : BitVec 64 := mulWords a b

def muldi3 (a b : BitVec 64) : BitVec 64 := mulDouble (w := 32) a b

def mulddi3 (a b : BitVec 64) : BitVec 128 := mulWords a b

def multi3 (a b : BitVec 128) : BitVec 128 := mulDouble (w := 64) a b

section Product
variable {k : ℕ} {a b : BitVec w}

theorem toNat_append_words (x y : BitVec w) : (x ++ y).toNat = x.toNat * 2 ^ w + y.toNat := by
  rw [BitVec.toNat_append, Nat.shiftLeft_eq, Nat.mul_comm, ← Nat.two_pow_add_eq_or_of_lt y.isLt]

section Halves
variable (hw : w = k + k)
include hw

theorem two_pow_word : 2 ^ w = 2 ^ k * 2 ^ k := by rw [hw, pow_add]

theorem toNat_add_of_lt {x y : BitVec w} (h : x.toNat + y.toNat < 2 ^ k * 2 ^ k) : (x + y).toNat = x.toNat + y.toNat := by
  rw [BitVec.toNat_add, Nat.mod_eq_of_lt (by rw [two_pow_word hw]; exact h)]

theorem toNat_mul_halves {x y : BitVec w} (hx : x.toNat < 2 ^ k) (hy : y.toNat < 2 ^ k) :
    (x * y).toNat = x.toNat * y.toNat := by
  have hprod := mul_add_lt (c := 0) hx hy (Nat.two_pow_pos k)
  rw [Nat.zero_add, ← pow_add, ← hw] at hprod
  rw [BitVec.toNat_mul, Nat.mod_eq_of_lt hprod]

/-- The low half of `y`, put over a half. -/
theorem toNat_add_high {x : BitVec w} (hx : x.toNat < 2 ^ k) (y : BitVec w) :
    (x + (y &&& BitVec.allOnes w >>> k) <<< k).toNat = x.toNat + y.toNat % 2 ^ k * 2 ^ k := by
  have hy : (y.toNat % 2 ^ k + 1) * 2 ^ k ≤ 2 ^ k * 2 ^ k := Nat.mul_le_mul_right _ (Nat.mod_lt _ (Nat.two_pow_pos k))
  rw [Nat.add_mul, Nat.one_mul] at hy
  have hshift : ((y &&& BitVec.allOnes w >>> k) <<< k).toNat = y.toNat % 2 ^ k * 2 ^ k := by
    rw [BitMask.toNat_shiftLeft_of_lt, toNat_low hw]
    rw [toNat_low hw, two_pow_word hw]
    omega
  rw [toNat_add_of_lt hw, hshift]
  rw [hshift]
  omega

/-- No sum of the columns leaves a word. -/
theorem toNat_mulWords (a b : BitVec w) : (mulWords a b).toNat = a.toNat * b.toNat := by
  have hhalf : w / 2 = k := by omega
  have hpos := Nat.two_pow_pos k
  have ha₀ : a.toNat % 2 ^ k < 2 ^ k := Nat.mod_lt _ hpos
  have hb₀ : b.toNat % 2 ^ k < 2 ^ k := Nat.mod_lt _ hpos
  have ha₁ := half_lt hw a
  have hb₁ := half_lt hw b
  have hcross := cross_lt ha₁ ha₀ hb₀
  have hcolumn : column (2 ^ k) (a.toNat / 2 ^ k) (a.toNat % 2 ^ k) (b.toNat / 2 ^ k) (b.toNat % 2 ^ k) <
      2 ^ k * 2 ^ k := column_lt ha₀ hb₁
  have hall := @product_eq (2 ^ k) (a.toNat / 2 ^ k) (a.toNat % 2 ^ k) (b.toNat / 2 ^ k) (b.toNat % 2 ^ k)
  rw [Nat.div_add_mod' a.toNat, Nat.div_add_mod' b.toNat] at hall
  unfold mulWords
  rw [hhalf]
  extract_lets _ mask low₀ t₀ low₁ t₁ low₂ high₀ t₂ low₃ t₃ low₄ high₁ high₂
  have hal : (a &&& mask).toNat = a.toNat % 2 ^ k := toNat_low hw a
  have hbl : (b &&& mask).toNat = b.toNat % 2 ^ k := toNat_low hw b
  have hah := toNat_high a k
  have hbh := toNat_high b k
  -- the first column
  have hlow₀ : low₀.toNat = a.toNat % 2 ^ k * (b.toNat % 2 ^ k) := by
    rw [toNat_mul_halves hw (hal ▸ ha₀) (hbl ▸ hb₀), hal, hbl]
  have ht₀ : t₀.toNat = a.toNat % 2 ^ k * (b.toNat % 2 ^ k) / 2 ^ k := by rw [toNat_high, hlow₀]
  have hlow₁ : low₁.toNat = a.toNat % 2 ^ k * (b.toNat % 2 ^ k) % 2 ^ k := by rw [toNat_low hw, hlow₀]
  have hlow₁' : low₁.toNat < 2 ^ k := hlow₁ ▸ Nat.mod_lt _ hpos
  -- the second one, in two parts
  have hahbl : ((a >>> k) * (b &&& mask)).toNat = a.toNat / 2 ^ k * (b.toNat % 2 ^ k) := by
    rw [toNat_mul_halves hw (hah ▸ ha₁) (hbl ▸ hb₀), hah, hbl]
  have ht₁ : t₁.toNat = cross (2 ^ k) (a.toNat / 2 ^ k) (a.toNat % 2 ^ k) (b.toNat % 2 ^ k) := by
    rw [cross, ← ht₀, ← hahbl]
    exact toNat_add_of_lt hw (by rw [ht₀, hahbl]; exact hcross)
  have hlow₂ : low₂.toNat = low₁.toNat + t₁.toNat % 2 ^ k * 2 ^ k := toNat_add_high hw hlow₁' t₁
  have ht₂ : t₂.toNat = t₁.toNat % 2 ^ k := by
    rw [toNat_high, hlow₂, Nat.add_mul_div_right _ _ hpos, Nat.div_eq_of_lt hlow₁', Nat.zero_add]
  have hlow₃ : low₃.toNat = low₁.toNat := by
    rw [toNat_low hw, hlow₂, Nat.add_mul_mod_self_right, Nat.mod_eq_of_lt hlow₁']
  have hbhal : ((b >>> k) * (a &&& mask)).toNat = b.toNat / 2 ^ k * (a.toNat % 2 ^ k) := by
    rw [toNat_mul_halves hw (hbh ▸ hb₁) (hal ▸ ha₀), hbh, hal]
  have ht₃ : t₃.toNat =
      column (2 ^ k) (a.toNat / 2 ^ k) (a.toNat % 2 ^ k) (b.toNat / 2 ^ k) (b.toNat % 2 ^ k) := by
    rw [column, ← ht₁, ← ht₂, ← hbhal]
    exact toNat_add_of_lt hw (by rw [ht₂, ht₁, hbhal]; exact hcolumn)
  have hlow₄ : low₄.toNat = t₃.toNat % 2 ^ k * 2 ^ k + low₁.toNat := by
    rw [← hlow₃, Nat.add_comm]
    exact toNat_add_high hw (hlow₃ ▸ hlow₁') t₃
  -- the columns of the high word
  have hahbh : ((a >>> k) * (b >>> k)).toNat = a.toNat / 2 ^ k * (b.toNat / 2 ^ k) := by
    rw [toNat_mul_halves hw (hah ▸ ha₁) (hbh ▸ hb₁), hah, hbh]
  have hfits : t₁.toNat / 2 ^ k + t₃.toNat / 2 ^ k + a.toNat / 2 ^ k * (b.toNat / 2 ^ k) < 2 ^ k * 2 ^ k := by
    have hprod : a.toNat * b.toNat < 2 ^ w * 2 ^ w := Nat.mul_lt_mul'' a.isLt b.isLt
    rw [ht₁, ht₃, ← two_pow_word hw]
    rw [← hall, ← two_pow_word hw] at hprod
    exact Nat.lt_of_mul_lt_mul_right ((Nat.le_add_right _ _).trans_lt hprod)
  have hhigh₂ : high₂.toNat = t₁.toNat / 2 ^ k + t₃.toNat / 2 ^ k + a.toNat / 2 ^ k * (b.toNat / 2 ^ k) := by
    have hhigh₁ : high₁.toNat = t₁.toNat / 2 ^ k + t₃.toNat / 2 ^ k := by
      rw [← toNat_high, ← toNat_high]
      exact toNat_add_of_lt hw (by rw [toNat_high, toNat_high]; exact (Nat.le_add_right _ _).trans_lt hfits)
    rw [← hhigh₁, ← hahbh]
    exact toNat_add_of_lt hw (by rw [hhigh₁, hahbh]; exact hfits)
  rw [toNat_append_words, hhigh₂, hlow₄, hlow₁, ht₁, ht₃, two_pow_word hw]
  exact hall

/-- The products that reach the high word only may wrap in it. -/
theorem mulDouble_eq (a b : BitVec (w + w)) : mulDouble a b = a * b := by
  have hr := toNat_mulWords hw (low a) (low b)
  have hlow : ∀ x : BitVec (w + w), (low x).toNat = x.toNat % 2 ^ w := fun x => BitVec.toNat_setWidth w x
  have hhigh : ∀ x : BitVec (w + w), (high x).toNat = x.toNat / 2 ^ w := by
    intro x
    rw [high, BitVec.toNat_setWidth, toNat_high, Nat.mod_eq_of_lt]
    rw [Nat.div_lt_iff_lt_mul (Nat.two_pow_pos w), ← pow_add]
    exact x.isLt
  have hcross : (high a * low b + low a * high b).toNat =
      (a.toNat / 2 ^ w * (b.toNat % 2 ^ w) + a.toNat % 2 ^ w * (b.toNat / 2 ^ w)) % 2 ^ w := by
    rw [BitVec.toNat_add, BitVec.toNat_mul, BitVec.toNat_mul, ← Nat.add_mod, hhigh, hhigh, hlow, hlow]
  have hprod := @product_mod (2 ^ w) (a.toNat / 2 ^ w) (a.toNat % 2 ^ w) (b.toNat / 2 ^ w) (b.toNat % 2 ^ w)
  rw [Nat.div_add_mod', Nat.div_add_mod'] at hprod
  apply BitVec.eq_of_toNat_eq
  unfold mulDouble
  rw [toNat_append_words, BitVec.toNat_add, hcross, Nat.add_mod_mod, hhigh, hlow, hr, hlow, hlow,
    high_add (Nat.two_pow_pos w), ← hprod, ← pow_add, BitVec.toNat_mul]

end Halves

end Product
/-- The pair of words that `wideMultiply` of the double format returns. -/
theorem toNat_wideMultiply (t : CShift.ShiftTarget) (a b : BitVec 64) : ∃ hi lo : BitVec 64,
    FpLib.Double.wideMultiply t a b = some (hi,lo) ∧ hi.toNat * 2 ^ 64 + lo.toNat = a.toNat * b.toNat := by
  have hprod : a.toNat * b.toNat < 2 ^ 64 * 2 ^ 64 := Nat.mul_lt_mul'' a.isLt b.isLt
  refine ⟨_,_,FpLib.Double.wideMultiply_eq t a b,?_⟩
  rw [BitVec.toNat_ofNat, BitVec.toNat_mul, Nat.mod_eq_of_lt (Nat.div_lt_of_lt_mul hprod)]
  exact Nat.div_add_mod' _ _

theorem ofInt_mul_toInt {n : ℕ} (a b : BitVec n) : BitVec.ofInt n (a.toInt * b.toInt) = a * b := by
  rw [BitVec.ofInt_mul, BitVec.ofInt_toInt, BitVec.ofInt_toInt]

theorem products_exact :
    (∀ a b, (muldsi3 a b).toNat = a.toNat * b.toNat) ∧ (∀ a b, (mulddi3 a b).toNat = a.toNat * b.toNat) ∧
    (∀ a b, muldi3 a b = BitVec.ofInt 64 (a.toInt * b.toInt)) ∧
    (∀ a b, multi3 a b = BitVec.ofInt 128 (a.toInt * b.toInt)) ∧
    ∀ t a b, ∃ hi lo : BitVec 64, FpLib.Double.wideMultiply t a b = some (hi,lo) ∧
      hi.toNat * 2 ^ 64 + lo.toNat = a.toNat * b.toNat := by
  refine ⟨?_,?_,?_,?_,toNat_wideMultiply⟩
  · intro a b
    exact toNat_mulWords (k := 16) rfl a b
  · intro a b
    exact toNat_mulWords (k := 32) rfl a b
  · intro a b
    rw [ofInt_mul_toInt]
    exact mulDouble_eq (w := 32) (k := 16) rfl a b
  · intro a b
    rw [ofInt_mul_toInt]
    exact mulDouble_eq (w := 64) (k := 32) rfl a b

end CompilerRt.Multiply
