import Mathlib.Algebra.Ring.Parity
import Mathlib.Tactic.Ring
import Mathlib.Tactic.Linarith

/-! # Rounded quotients

A quotient of naturals is rounded to nearest, ties to even. Digits may be shifted out before that, as long as the last
digit that is kept is set where one of them was.
-/
namespace CompilerRt

def roundDiv (n d : ℕ) : ℕ := if d < 2 * (n % d) ∨ 2 * (n % d) = d ∧ ¬Even (n / d) then n / d + 1 else n / d

/-- A right shift with a sticky last digit. -/
def stickyShift (n k : ℕ) : ℕ := if n % 2 ^ k = 0 then n / 2 ^ k else n / 2 ^ k / 2 * 2 + 1

theorem roundDiv_bounds (n d : ℕ) : n / d ≤ roundDiv n d ∧ roundDiv n d ≤ n / d + 1 := by
  unfold roundDiv
  split_ifs
  · exact ⟨Nat.le_succ _,le_rfl⟩
  · exact ⟨le_rfl,Nat.le_succ _⟩

@[simp] theorem roundDiv_zero (d : ℕ) : roundDiv 0 d = 0 := by
  rw [roundDiv, Nat.zero_mod, Nat.zero_div, if_neg]
  rintro (h | h)
  · omega
  · exact h.2 (Even.zero)

theorem roundDiv_mul {d : ℕ} (c : ℕ) (hd : 0 < d) : roundDiv (c * d) d = c := by
  rw [roundDiv, Nat.mul_mod_left, Nat.mul_div_cancel _ hd, if_neg (by omega)]

/-- The condition under which the quotient goes up. -/
theorem roundDiv_eq (n d : ℕ) :
    roundDiv n d = if d < 2 * (n % d) ∨ 2 * (n % d) = d ∧ n / d % 2 = 1 then n / d + 1 else n / d := by
  rw [roundDiv]
  exact if_congr (or_congr Iff.rfl (and_congr Iff.rfl (by rw [Nat.even_iff, Nat.mod_two_not_eq_zero]))) rfl rfl

theorem roundDiv_of_lt {n d : ℕ} (h : 2 * n < d) : roundDiv n d = 0 := by
  have hlt : n < d := by omega
  rw [roundDiv, Nat.mod_eq_of_lt hlt, Nat.div_eq_of_lt hlt, if_neg (by omega)]

@[simp] theorem roundDiv_one (n : ℕ) : roundDiv n 1 = n := by
  rw [roundDiv, Nat.mod_one, Nat.div_one, if_neg (by omega)]

/-- The digits decide in the same way as what they stand for. -/
theorem roundDiv_congr {n d m b : ℕ} (hdiv : m / b = n / d) (hup : b < 2 * (m % b) ↔ d < 2 * (n % d))
    (htie : 2 * (m % b) = b ↔ 2 * (n % d) = d) : roundDiv m b = roundDiv n d := by
  unfold roundDiv
  rw [hdiv]
  exact if_congr (or_congr hup (and_congr htie Iff.rfl)) rfl rfl

/-- An even multiple is no matter for the rounding of the rest. -/
theorem roundDiv_mul_add {c d : ℕ} (m : ℕ) (hd : 0 < d) (hc : c % 2 = 0) : roundDiv (c * d + m) d = c + roundDiv m d := by
  have hdiv : (c * d + m) / d = c + m / d := by rw [Nat.mul_comm, Nat.mul_add_div hd]
  have hmod : (c * d + m) % d = m % d := by rw [Nat.mul_comm, Nat.mul_add_mod]
  rw [roundDiv_eq, roundDiv_eq, hdiv, hmod]
  split_ifs <;> omega

theorem roundDiv_mul_right (n d : ℕ) {c : ℕ} (hc : 0 < c) : roundDiv (n * c) (d * c) = roundDiv n d := by
  refine roundDiv_congr (Nat.mul_div_mul_right n d hc) ?_ ?_
  · rw [Nat.mul_mod_mul_right, ← Nat.mul_assoc]
    exact Nat.mul_lt_mul_right hc
  · rw [Nat.mul_mod_mul_right, ← Nat.mul_assoc]
    exact Nat.mul_left_inj hc.ne'

/-- The two numbers that are compared, from a quotient and its rest. -/
theorem roundDiv_of_split {n d c r : ℕ} (hn : n = c * d + r) (hr : r < d) :
    roundDiv n d = if d < 2 * r ∨ 2 * r = d ∧ c % 2 = 1 then c + 1 else c := by
  have hdiv : n / d = c := by
    rw [hn, Nat.mul_comm, Nat.mul_add_div (by omega), Nat.div_eq_of_lt hr, Nat.add_zero]
  have hmod : n % d = r := by rw [hn, Nat.mul_comm, Nat.mul_add_mod, Nat.mod_eq_of_lt hr]
  rw [roundDiv_eq, hdiv, hmod]

/-! ## A rest that is read over another divisor

The quotient is an estimate from below, and what is left of it is less than three halves. `2 * h` is what the quotient
is divided by further.
-/

section Estimate
variable {n q d r h b : ℕ}

/-- Only the digits of the estimate count; what is left of it is neither nothing nor as much as a unit. -/
theorem roundDiv_estimate (h0 : 0 < h) (hr : 0 < r) (hrb : r < b) :
    roundDiv (q * b + r) (2 * h * b) = if h ≤ q % (2 * h) then q / (2 * h) + 1 else q / (2 * h) := by
  obtain ⟨c,hc⟩ : ∃ c, c = q / (2 * h) := ⟨_,rfl⟩
  obtain ⟨ρ,hρ⟩ : ∃ ρ, ρ = q % (2 * h) := ⟨_,rfl⟩
  have hlt : ρ < 2 * h := hρ ▸ Nat.mod_lt q (by omega)
  have hsplit : q = c * (2 * h) + ρ := by rw [hc, hρ, Nat.div_add_mod']
  have hn : q * b + r = c * (2 * h * b) + (ρ * b + r) := by
    rw [hsplit]
    ring
  have hscale : 2 * h * b = 2 * (h * b) := Nat.mul_assoc _ _ _
  have hrest : ρ * b + r < 2 * h * b := by
    have hmul := Nat.mul_le_mul_right b (Nat.succ_le_of_lt hlt)
    rw [Nat.succ_mul] at hmul
    omega
  rw [roundDiv_of_split hn hrest, ← hc, ← hρ]
  rcases Nat.lt_or_ge ρ h with hless | hge
  · have hmul := Nat.mul_le_mul_right b (Nat.succ_le_of_lt hless)
    rw [Nat.succ_mul] at hmul
    rw [if_neg (by omega), if_neg (by omega)]
  · have hmul := Nat.mul_le_mul_right b hge
    rw [if_pos (by omega), if_pos hge]

/-- The exact quotient. -/
theorem roundDiv_exact (h0 : 0 < h) (hn : n = q * d + r) (hr : 0 < r) (hrd : 2 * r < 3 * d) :
    roundDiv n (2 * h * d) =
      if h ≤ q % (2 * h) ∨ h * d < q % (2 * h) * d + r ∨ q % (2 * h) * d + r = h * d ∧ q / (2 * h) % 2 = 1 then
        q / (2 * h) + 1
      else q / (2 * h) := by
  obtain ⟨c,hc⟩ : ∃ c, c = q / (2 * h) := ⟨_,rfl⟩
  obtain ⟨ρ,hρ⟩ : ∃ ρ, ρ = q % (2 * h) := ⟨_,rfl⟩
  have hlt : ρ < 2 * h := hρ ▸ Nat.mod_lt q (by omega)
  have hsplit : q = c * (2 * h) + ρ := by rw [hc, hρ, Nat.div_add_mod']
  have hn' : n = c * (2 * h * d) + (ρ * d + r) := by
    rw [hn, hsplit]
    ring
  have hscale : 2 * h * d = 2 * (h * d) := Nat.mul_assoc _ _ _
  have hd : d ≤ h * d := Nat.le_mul_of_pos_left d h0
  rw [← hc, ← hρ]
  rcases Nat.lt_or_ge ρ h with hless | hge
  · have hmul := Nat.mul_le_mul_right d (Nat.succ_le_of_lt hless)
    rw [Nat.succ_mul] at hmul
    rw [roundDiv_of_split hn' (by omega)]
    exact if_congr (by omega) rfl rfl
  · have hmul := Nat.mul_le_mul_right d hge
    rw [if_pos (.inl hge)]
    rcases Nat.lt_or_ge (ρ * d + r) (2 * h * d) with hin | hout
    · rw [roundDiv_of_split hn' hin, if_pos (by omega)]
    · -- the exact quotient is past the next multiple
      have hmul' := Nat.mul_le_mul_right d (Nat.succ_le_of_lt hlt)
      rw [Nat.succ_mul] at hmul'
      have hnext : n = (c + 1) * (2 * h * d) + (ρ * d + r - 2 * h * d) := by
        rw [hn', Nat.add_mul c 1, Nat.one_mul]
        omega
      rw [roundDiv_of_split hnext (by omega), if_neg (by omega)]

/-- The two agree unless a point halfway between multiples lies over the estimate and not over the exact quotient; where
it is the exact quotient itself, it may be a tie that goes down. -/
theorem roundDiv_estimate_eq_iff (h0 : 0 < h) (hn : n = q * d + r) (hr : 0 < r) (hrb : r < b) (hrd : 2 * r < 3 * d) :
    roundDiv (q * b + r) (2 * h * b) = roundDiv n (2 * h * d) ↔
      ∀ m, q < (2 * m + 1) * h → (2 * m + 1) * h * d ≤ n → n = (2 * m + 1) * h * d ∧ Even m := by
  rw [roundDiv_estimate h0 hr hrb, roundDiv_exact h0 hn hr hrd]
  have hd : 0 < d := by omega
  have hlt : q % (2 * h) < 2 * h := Nat.mod_lt q (by omega)
  have hsplit : q = 2 * h * (q / (2 * h)) + q % (2 * h) := (Nat.div_add_mod _ _).symm
  generalize q / (2 * h) = c at *
  generalize q % (2 * h) = ρ at *
  have hpoint : ∀ m, (2 * m + 1) * h = 2 * h * m + h := fun m => by ring
  -- in the middle of what the estimate is in
  have hmiddle : (2 * h * c + h) * d = 2 * h * c * d + h * d := Nat.add_mul _ _ _
  have hn' : n = 2 * h * c * d + (ρ * d + r) := by
    rw [hn, hsplit]
    ring
  constructor
  · intro heq m hq hle
    rw [hpoint] at hq hle ⊢
    -- no other point is near enough
    have hnext : 2 * h * m + h = q + 1 := by
      by_contra hne
      have hmul := Nat.mul_le_mul_right d (show q + 2 ≤ 2 * h * m + h by omega)
      rw [Nat.add_mul] at hmul
      omega
    have hcm : c = m := by
      have hle1 : 2 * h * c < 2 * h * (m + 1) := by rw [Nat.mul_add]; omega
      have hle2 : 2 * h * m < 2 * h * (c + 1) := by rw [Nat.mul_add]; omega
      have h1 := Nat.lt_of_mul_lt_mul_left hle1
      have h2 := Nat.lt_of_mul_lt_mul_left hle2
      omega
    subst hcm
    rw [hmiddle] at hle ⊢
    have hbelow : ¬h ≤ ρ := by omega
    rw [if_neg hbelow] at heq
    split_ifs at heq with hup
    · omega
    · rw [Nat.even_iff]
      omega
  · intro hties
    rcases Nat.lt_or_ge ρ h with hless | hge
    · have hbelow : ¬h ≤ ρ := Nat.not_le.mpr hless
      have htie := hties c
      rw [hpoint, hmiddle, Nat.even_iff] at htie
      rw [if_neg hbelow, if_neg]
      omega
    · rw [if_pos hge, if_pos (.inl hge)]

end Estimate

/-! ## Sticky digits -/

@[simp] theorem stickyShift_zero (n : ℕ) : stickyShift n 0 = n := by
  rw [stickyShift, pow_zero, Nat.mod_one, Nat.div_one, if_pos rfl]

/-- Of what is shifted out as a whole the sticky digit is left. -/
theorem stickyShift_of_lt {n k : ℕ} (h0 : n ≠ 0) (h : n < 2 ^ k) : stickyShift n k = 1 := by
  rw [stickyShift, Nat.mod_eq_of_lt h, Nat.div_eq_of_lt h, if_neg h0]

theorem stickyShift_mul (n k : ℕ) : stickyShift (n * 2 ^ k) k = n := by
  rw [stickyShift, Nat.mul_mod_left, if_pos rfl, Nat.mul_div_cancel _ (Nat.two_pow_pos k)]

theorem div_le_stickyShift (n k : ℕ) : n / 2 ^ k ≤ stickyShift n k := by
  unfold stickyShift
  split_ifs
  · exact le_rfl
  · omega

theorem stickyShift_eq_zero_iff {n k : ℕ} : stickyShift n k = 0 ↔ n = 0 := by
  constructor
  · intro h
    unfold stickyShift at h
    split_ifs at h with hmod
    rw [← Nat.div_add_mod n (2 ^ k), h, hmod]
    rfl
  · rintro rfl
    rw [stickyShift, Nat.zero_mod, Nat.zero_div, if_pos rfl]

/-- An even number may be added after the shift. -/
theorem add_stickyShift {m : ℕ} (n k : ℕ) (hm : m % 2 = 0) : m + stickyShift n k = stickyShift (m * 2 ^ k + n) k := by
  have hdiv : (m * 2 ^ k + n) / 2 ^ k = m + n / 2 ^ k := by
    rw [Nat.mul_comm, Nat.mul_add_div (Nat.two_pow_pos k)]
  have hmod : (m * 2 ^ k + n) % 2 ^ k = n % 2 ^ k := by rw [Nat.mul_comm, Nat.mul_add_mod]
  rw [stickyShift, stickyShift, hdiv, hmod]
  split_ifs
  · rfl
  · omega

theorem stickyShift_le {m n k : ℕ} (hm : m % 2 = 0) (h : n ≤ m * 2 ^ k) : stickyShift n k ≤ m := by
  have hpos := Nat.two_pow_pos k
  unfold stickyShift
  split_ifs with hmod
  · exact Nat.div_le_of_le_mul (by rwa [Nat.mul_comm])
  · have hne : n ≠ m * 2 ^ k := by
      rintro rfl
      exact hmod (Nat.mul_mod_left _ _)
    have hlt : n / 2 ^ k < m := (Nat.div_lt_iff_lt_mul hpos).mpr (lt_of_le_of_ne h hne)
    omega

/-- And the shifted number may be taken from it. -/
theorem sub_stickyShift {m n k : ℕ} (hm : m % 2 = 0) (h : n ≤ m * 2 ^ k) :
    m - stickyShift n k = stickyShift (m * 2 ^ k - n) k := by
  have hpos := Nat.two_pow_pos k
  obtain ⟨c,hc⟩ : ∃ c, c = n / 2 ^ k := ⟨_,rfl⟩
  obtain ⟨r,hr⟩ : ∃ r, r = n % 2 ^ k := ⟨_,rfl⟩
  have hsplit : n = c * 2 ^ k + r := by rw [hc, hr, Nat.div_add_mod']
  have hlt : r < 2 ^ k := hr ▸ Nat.mod_lt n hpos
  rw [stickyShift, ← hc, ← hr]
  split_ifs with h0
  · rw [hsplit, h0, Nat.add_zero, ← Nat.sub_mul, stickyShift_mul]
  · -- a digit that was shifted out borrows one from the even number
    have hcm : c < m := by
      by_contra hle
      have hmul := Nat.mul_le_mul_right (2 ^ k) (Nat.not_lt.mp hle)
      omega
    have hborrow : m * 2 ^ k - n = 2 ^ k * (m - c - 1) + (2 ^ k - r) := by
      obtain ⟨d,rfl⟩ := Nat.exists_eq_add_of_lt hcm
      have hd : c + d + 1 - c - 1 = d := by omega
      have hexpand : (c + d + 1) * 2 ^ k = c * 2 ^ k + 2 ^ k * d + 2 ^ k := by ring
      rw [hd, hexpand, hsplit]
      omega
    have hrest : 2 ^ k - r < 2 ^ k := by omega
    rw [hborrow, stickyShift, Nat.mul_add_mod, Nat.mod_eq_of_lt hrest, Nat.mul_add_div hpos, Nat.div_eq_of_lt hrest,
      if_neg (by omega)]
    omega

theorem stickyShift_div (n k : ℕ) {h : ℕ} : stickyShift n k / (2 * h) = n / 2 ^ k / (2 * h) := by
  unfold stickyShift
  split_ifs
  · rfl
  · have hhalf : (n / 2 ^ k / 2 * 2 + 1) / 2 = n / 2 ^ k / 2 := by omega
    rw [← Nat.div_div_eq_div_mul, ← Nat.div_div_eq_div_mul, hhalf]

theorem stickyShift_mod (n k : ℕ) {h : ℕ} (hh : 0 < h) :
    stickyShift n k % (2 * h) =
      if n % 2 ^ k = 0 then n / 2 ^ k % (2 * h) else n / 2 ^ k % (2 * h) / 2 * 2 + 1 := by
  unfold stickyShift
  split_ifs
  · rfl
  · have hmod : n / 2 ^ k / 2 * 2 % (2 * h) = n / 2 ^ k % (2 * h) / 2 * 2 := by
      rw [Nat.mul_comm 2 h, Nat.mul_mod_mul_right, ← Nat.mod_mul_left_div_self]
    have heven : n / 2 ^ k / 2 * 2 % (2 * h) + 1 < 2 * h := by
      have hlt : n / 2 ^ k % (2 * h) < 2 * h := Nat.mod_lt _ (by omega)
      rw [hmod]
      omega
    rw [← hmod, Nat.add_mod, Nat.mod_eq_of_lt (by omega : 1 < 2 * h), Nat.mod_eq_of_lt heven]

/-- With two more digits than are kept, a sticky shift does not change what is rounded to. -/
theorem roundDiv_stickyShift (n k : ℕ) {j : ℕ} (hj : 2 ≤ j) :
    roundDiv (stickyShift n k) (2 ^ j) = roundDiv n (2 ^ (k + j)) := by
  obtain ⟨h,hh⟩ : ∃ h, 2 ^ j = 2 * (2 * h) := ⟨2 ^ (j - 2),by rw [← pow_succ', ← pow_succ']; congr 1; omega⟩
  have hpos : 0 < h := by
    have hp := Nat.two_pow_pos j
    omega
  have hlow : n % 2 ^ k < 2 ^ k := Nat.mod_lt _ (Nat.two_pow_pos k)
  have hmod : n % (2 ^ k * (2 * (2 * h))) = n % 2 ^ k + 2 ^ k * (n / 2 ^ k % (2 * (2 * h))) := Nat.mod_mul
  have hsticky := stickyShift_mod n k (h := 2 * h) (by omega)
  rw [pow_add, hh]
  refine roundDiv_congr ?_ ?_ ?_
  · rw [stickyShift_div, Nat.div_div_eq_div_mul]
  all_goals
    rw [hsticky, hmod]
    generalize n / 2 ^ k % (2 * (2 * h)) = x at *
    generalize 2 ^ k = b at *
    generalize n % b = r at *
  · -- more than a half
    split_ifs with hr
    · subst hr
      have hscale : 2 * (0 + b * x) = b * (2 * x) := by ring
      rw [hscale]
      exact (Nat.mul_lt_mul_left hlow).symm
    · constructor
      · intro hlt
        have hle : 2 * h ≤ x := by omega
        nlinarith [Nat.mul_le_mul_left b hle, Nat.pos_of_ne_zero hr]
      · intro hlt
        by_contra hge
        have hle : x + 1 ≤ 2 * h := by omega
        nlinarith [Nat.mul_le_mul_left b hle]
  · -- a half
    split_ifs with hr
    · subst hr
      constructor
      · rintro heq
        have hx : x = 2 * h := by omega
        rw [hx]
        ring
      · intro heq
        have hcancel : b * (2 * x) = b * (2 * (2 * h)) := by linarith
        exact Nat.eq_of_mul_eq_mul_left (by omega) hcancel
    · constructor
      · intro heq
        omega
      · intro heq
        exfalso
        rcases Nat.lt_or_ge x (2 * h) with hlt | hge
        · nlinarith [Nat.mul_le_mul_left b (Nat.succ_le_of_lt hlt)]
        · nlinarith [Nat.mul_le_mul_left b hge, Nat.pos_of_ne_zero hr]

/-- Where `p` digits or more are dropped `x` may be rounded for `n / 2 ^ k`. -/
structure RoundsAs (p n k x : ℕ) : Prop where
  div : x / 2 ^ p = n / 2 ^ (k + p)
  round : ∀ j, p ≤ j → roundDiv x (2 ^ j) = roundDiv n (2 ^ (k + j))

namespace RoundsAs
variable {p n k x : ℕ}

theorem two_pow_eq (hp : 1 ≤ p) : 2 ^ p = 2 * 2 ^ (p - 1) := by rw [← pow_succ', Nat.sub_add_cancel hp]

theorem sticky (n k : ℕ) (hp : 2 ≤ p) : RoundsAs p n k (stickyShift n k) := by
  constructor
  · rw [two_pow_eq (by omega), stickyShift_div, Nat.div_div_eq_div_mul, ← two_pow_eq (by omega), pow_add]
  · intro j hj
    exact roundDiv_stickyShift n k (hp.trans hj)

theorem exact (x k : ℕ) : RoundsAs p (x * 2 ^ k) k x := by
  constructor
  · rw [pow_add, Nat.mul_comm (2 ^ k), Nat.mul_div_mul_right _ _ (Nat.two_pow_pos k)]
  · intro j _
    rw [pow_add, Nat.mul_comm (2 ^ k), roundDiv_mul_right _ _ (Nat.two_pow_pos k)]

/-- A second shift by one place. -/
theorem sticky_one (h : RoundsAs p n k x) (hp : 2 ≤ p) : RoundsAs p n (k + 1) (stickyShift x 1) := by
  constructor
  · have hdiv := congrArg (· / 2) h.div
    simp only [Nat.div_div_eq_div_mul, ← pow_succ] at hdiv
    rw [(sticky x 1 hp).div, Nat.add_comm 1, hdiv]
    congr 2
    omega
  · intro j hj
    rw [roundDiv_stickyShift x 1 (hp.trans hj), h.round _ (by omega), Nat.add_assoc]

/-- With one digit more than the shift needs, a shift by one place to the left is no harm. -/
theorem double (n k : ℕ) (hp : 3 ≤ p) : RoundsAs p (n * 2) k (stickyShift n k * 2) := by
  have hsticky := sticky n k (p := p - 1) (by omega)
  have hpow : ∀ j, p ≤ j → 2 ^ (k + j) = 2 ^ (k + (j - 1)) * 2 := by
    intro j hj
    rw [← pow_succ]
    congr 1
    omega
  constructor
  · rw [hpow p le_rfl, Nat.mul_div_mul_right _ _ (by decide), ← hsticky.div, two_pow_eq (by omega), Nat.mul_comm 2,
      Nat.mul_div_mul_right _ _ (by decide)]
  · intro j hj
    rw [hpow j hj, roundDiv_mul_right _ _ (by decide), ← hsticky.round (j - 1) (by omega), two_pow_eq (by omega),
      Nat.mul_comm 2, roundDiv_mul_right _ _ (by decide)]

end RoundsAs
end CompilerRt
