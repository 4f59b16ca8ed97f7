import Mathlib

/-! # Words as fields

A word is a number of fields of `w` bits each, the lowest first. Sums, differences and masks of words go field by
field as long as no field has a carry.
-/
namespace CompilerRt.WordFields

/-- The word of the first `n` fields. -/
def value (w : ℕ) : ℕ → (ℕ → ℕ) → ℕ
  | 0, _ => 0
  | n + 1, f => f 0 + 2^w * value w n fun i => f (i + 1)

/-- The number of ones in the first `n` bits. -/
def ones (n x : ℕ) : ℕ := ((List.range n).map fun i => (x.testBit i).toNat).sum

variable {w n k x y : ℕ} {f g : ℕ → ℕ}

theorem value_congr (h : ∀ i < n, f i = g i) : value w n f = value w n g := by
  induction n generalizing f g with
  | zero => rfl
  | succ n ih =>
    rw [value, value, h 0 (Nat.succ_pos n), ih fun i hi => h (i + 1) (Nat.succ_lt_succ hi)]

/-- Every number has its fields. -/
theorem value_digits (w n x : ℕ) : value w n (fun i => x / 2^(w * i) % 2^w) = x % 2^(w * n) := by
  induction n generalizing x with
  | zero => simp [value, Nat.mod_one]
  | succ n ih =>
    have hrest : value w n (fun i => x / 2^(w * (i + 1)) % 2^w) = x / 2^w % 2^(w * n) := by
      rw [← ih (x / 2^w)]
      refine value_congr fun i _ => ?_
      rw [Nat.div_div_eq_div_mul, ← Nat.pow_add, Nat.mul_succ, Nat.add_comm w]
    rw [value, hrest, Nat.mul_zero, Nat.pow_zero, Nat.div_one, Nat.mul_succ, Nat.add_comm (w * n), Nat.pow_add,
      Nat.mod_mul]

theorem value_lt (h : ∀ i < n, f i < 2^w) : value w n f < 2^(w * n) := by
  induction n generalizing f with
  | zero => exact Nat.one_pos
  | succ n ih =>
    have h0 := h 0 (Nat.succ_pos n)
    have hrest := ih fun i hi => h (i + 1) (Nat.succ_lt_succ hi)
    rw [value, Nat.mul_succ, Nat.add_comm (w * n), Nat.pow_add]
    calc f 0 + 2^w * value w n (fun i => f (i + 1)) < 2^w + 2^w * value w n (fun i => f (i + 1)) := by omega
      _ = 2^w * (value w n (fun i => f (i + 1)) + 1) := by rw [Nat.mul_succ, Nat.add_comm]
      _ ≤ 2^w * 2^(w * n) := Nat.mul_le_mul_left _ hrest

theorem value_add : value w n f + value w n g = value w n fun i => f i + g i := by
  induction n generalizing f g with
  | zero => rfl
  | succ n ih =>
    rw [value, value, value, ← ih, Nat.mul_add]
    omega

theorem value_mono (h : ∀ i < n, f i ≤ g i) : value w n f ≤ value w n g := by
  induction n generalizing f g with
  | zero => exact Nat.le_refl 0
  | succ n ih =>
    exact Nat.add_le_add (h 0 (Nat.succ_pos n))
      (Nat.mul_le_mul_left _ (ih fun i hi => h (i + 1) (Nat.succ_lt_succ hi)))

theorem value_sub (h : ∀ i < n, g i ≤ f i) : value w n f - value w n g = value w n fun i => f i - g i := by
  have hsum : value w n g + (value w n fun i => f i - g i) = value w n f := by
    rw [value_add]
    exact value_congr fun i hi => Nat.add_sub_cancel' (h i hi)
  omega

/-- The lowest field and those above it. -/
theorem land_split {a b c d : ℕ} (hb : b < 2^w) (hd : d < 2^w) :
    (b + 2^w * a) &&& (d + 2^w * c) = (b &&& d) + 2^w * (a &&& c) := by
  have hbd : b &&& d < 2^w := Nat.lt_of_le_of_lt Nat.and_le_left hb
  rw [Nat.add_comm b, Nat.add_comm d, Nat.add_comm (b &&& d)]
  refine Nat.eq_of_testBit_eq fun i => ?_
  rw [Nat.testBit_and, Nat.testBit_two_pow_mul_add _ hb, Nat.testBit_two_pow_mul_add _ hd,
    Nat.testBit_two_pow_mul_add _ hbd, Nat.testBit_and, Nat.testBit_and]
  split_ifs with h
  · rfl
  · rfl

theorem value_land (hf : ∀ i < n, f i < 2^w) (hg : ∀ i < n, g i < 2^w) :
    value w n f &&& value w n g = value w n fun i => f i &&& g i := by
  induction n generalizing f g with
  | zero => exact Nat.zero_and 0
  | succ n ih =>
    rw [value, value, land_split (hf 0 (Nat.succ_pos n)) (hg 0 (Nat.succ_pos n)),
      ih (fun i hi => hf (i + 1) (Nat.succ_lt_succ hi)) (fun i hi => hg (i + 1) (Nat.succ_lt_succ hi)), value]

/-- A shift below the width of a field takes the lowest bits of the next one. -/
theorem value_shift (hk : k ≤ w) (hn : f n = 0) :
    value w n f / 2^k = value w n fun i => f i / 2^k + f (i + 1) % 2^k * 2^(w - k) := by
  induction n generalizing f with
  | zero => exact Nat.zero_div _
  | succ n ih =>
    have hrest := ih (f := fun i => f (i + 1)) hn
    have hpow : 2^w = 2^k * 2^(w - k) := by rw [← Nat.pow_add, Nat.add_sub_cancel' hk]
    have hmod : value w n (fun i => f (i + 1)) % 2^k = f 1 % 2^k := by
      cases n with
      | zero =>
        have h1 : f 1 = 0 := hn
        rw [value, h1]
      | succ n => rw [value, hpow, Nat.mul_assoc, Nat.add_mul_mod_self_left]
    rw [value, value, ← hrest]
    generalize value w n (fun i => f (i + 1)) = v at hmod ⊢
    have hv := Nat.div_add_mod v (2^k)
    rw [hmod] at hv
    rw [hpow, Nat.mul_assoc, Nat.add_mul_div_left _ _ (Nat.two_pow_pos k), Nat.mul_assoc, Nat.zero_add]
    calc f 0 / 2^k + 2^(w - k) * v
        = f 0 / 2^k + 2^(w - k) * (2^k * (v / 2^k) + f 1 % 2^k) := by rw [hv]
      _ = f 0 / 2^k + f 1 % 2^k * 2^(w - k) + 2^k * (2^(w - k) * (v / 2^k)) := by ring

/-! ## Ones -/

theorem ones_succ : ones (n + 1) x = ones n x + (x.testBit n).toNat := by
  rw [ones, ones, List.range_succ, List.map_append, List.sum_append]
  rfl

theorem ones_congr (h : ∀ i < n, x.testBit i = y.testBit i) : ones n x = ones n y := by
  induction n with
  | zero => rfl
  | succ n ih =>
    rw [ones_succ, ones_succ, ih fun i hi => h i (Nat.lt_succ_of_lt hi), h n (Nat.lt_succ_self n)]

theorem ones_mod (n x : ℕ) : ones n (x % 2^n) = ones n x :=
  ones_congr fun i hi => by rw [Nat.testBit_mod_two_pow, decide_eq_true hi, Bool.true_and]

theorem ones_add (m n x : ℕ) : ones (m + n) x = ones m x + ones n (x / 2^m) := by
  induction n with
  | zero => rfl
  | succ n ih =>
    rw [← Nat.add_assoc, ones_succ, ih, ones_succ, Nat.testBit_div_two_pow, Nat.add_comm n, Nat.add_assoc]

/-- The ones of all fields. -/
theorem ones_value (h : ∀ i < n, f i < 2^w) :
    ones (w * n) (value w n f) = ((List.range n).map fun i => ones w (f i)).sum := by
  induction n generalizing f with
  | zero => rfl
  | succ n ih =>
    have h0 := h 0 (Nat.succ_pos n)
    have hlow : ones w (value w (n + 1) f) = ones w (f 0) := by
      rw [← ones_mod, value, Nat.add_mul_mod_self_left, Nat.mod_eq_of_lt h0]
    have hhigh : value w (n + 1) f / 2^w = value w n fun i => f (i + 1) := by
      rw [value, Nat.add_mul_div_left _ _ (Nat.two_pow_pos w), Nat.div_eq_of_lt h0, Nat.zero_add]
    rw [Nat.mul_succ, Nat.add_comm (w * n), ones_add, hlow, hhigh, ih fun i hi => h (i + 1) (Nat.succ_lt_succ hi),
      List.range_succ_eq_map, List.map_cons, List.sum_cons, List.map_map]
    rfl

/-- A word folded onto its lower half has the parity of its ones. -/
theorem ones_fold (n x : ℕ) : ones n (x ^^^ x / 2^n) % 2 = ones (n + n) x % 2 := by
  have hxor : ∀ m, ones m (x ^^^ x / 2^n) % 2 = (ones m x + ones m (x / 2^n)) % 2 := by
    intro m
    induction m with
    | zero => rfl
    | succ m ih =>
      rw [ones_succ, ones_succ, ones_succ, Nat.testBit_xor]
      cases x.testBit m <;> cases (x / 2^n).testBit m <;> simp <;> omega
  rw [ones_add]
  exact hxor n

theorem ones_eq_cpop {m : ℕ} (a : BitVec m) : a.cpop.toNat = ones m a.toNat := by
  rw [BitVec.toNat_cpop]
  have h : ∀ k, a.cpopNatRec k 0 = ones k a.toNat := by
    intro k
    induction k with
    | zero => rfl
    | succ k ih => rw [BitVec.cpopNatRec_succ, BitVec.cpopNatRec_add, ih, ones_succ, BitVec.testBit_toNat]
  exact h m

end CompilerRt.WordFields
