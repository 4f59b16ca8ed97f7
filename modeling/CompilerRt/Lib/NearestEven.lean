import Mathlib.Algebra.Order.Field.Basic
import Mathlib.Algebra.Ring.Parity
import Mathlib.Order.Monotone.Basic
import Mathlib.Tactic.Linarith

/-! # Rounding to a grid

The points of a grid are numbered in order, up to a last one. A number is rounded to the nearest point; of two that are
equally near, to the one with the even number.
-/
namespace CompilerRt
variable {K : Type*} [Field K] [LinearOrder K] [IsStrictOrderedRing K]

structure NearestEven (g : ℕ → K) (top : ℕ) (u : K) (a : ℕ) : Prop where
  le_top : a ≤ top
  nearest : ∀ b, b ≤ top → |u - g a| ≤ |u - g b|
  even : ∀ b, b ≤ top → |u - g a| = |u - g b| → b = a ∨ Even a

namespace NearestEven
variable {g : ℕ → K} {top a b c : ℕ} {u : K}

/-! ## Distances -/

theorem dist_below (hg : StrictMono g) (hu : g c ≤ u) (hb : b ≤ c) : |u - g b| = u - g b :=
  abs_of_nonneg (sub_nonneg.mpr ((hg.monotone hb).trans hu))

theorem dist_above (hg : StrictMono g) (hu : u ≤ g c) (hb : c ≤ b) : |u - g b| = g b - u := by
  rw [abs_sub_comm]
  exact abs_of_nonneg (sub_nonneg.mpr (hu.trans (hg.monotone hb)))

/-! ## Uniqueness -/

theorem not_before (hg : StrictMono g) (ha : NearestEven g top u a) (hb : NearestEven g top u b) : ¬a < b := by
  intro hab
  have hdist : |u - g a| = |u - g b| := le_antisymm (ha.nearest b hb.le_top) (hb.nearest a ha.le_top)
  have hlt := hg hab
  -- the number is in the middle, and both points are even
  have hmid : u - g a = -(u - g b) := by
    rcases abs_eq_abs.mp hdist with h | h
    · linarith
    · exact h
  have heven : Even a := (ha.even b hb.le_top hdist).resolve_left hab.ne'
  have heven' : Even b := (hb.even a ha.le_top hdist.symm).resolve_left hab.ne
  have hnext : a + 1 < b := by
    refine lt_of_le_of_ne hab ?_
    rintro rfl
    exact Nat.not_even_iff_odd.mpr heven.add_one heven'
  -- so the point after the first is nearer
  have hlo := hg (Nat.lt_succ_self a)
  have hhi := hg hnext
  have hle := ha.nearest (a + 1) (hnext.le.trans hb.le_top)
  have hnear : |u - g (a + 1)| < |u - g a| := by
    have habs : |u - g a| = u - g a := abs_of_pos (by linarith)
    rw [habs, abs_lt]
    constructor <;> linarith
  exact absurd hnear (not_lt.mpr hle)

theorem unique (hg : StrictMono g) (ha : NearestEven g top u a) (hb : NearestEven g top u b) : a = b :=
  Nat.le_antisymm (Nat.le_of_not_lt (not_before hg hb ha)) (Nat.le_of_not_lt (not_before hg ha hb))

/-! ## Which point it is -/

theorem exact (hg : StrictMono g) (hc : c ≤ top) : NearestEven g top (g c) c where
  le_top := hc
  nearest b _ := by
    rw [sub_self, abs_zero]
    exact abs_nonneg _
  even b _ h := by
    rw [sub_self, abs_zero] at h
    exact .inl (hg.injective (sub_eq_zero.mp (abs_eq_zero.mp h.symm)).symm)

theorem at_top (hg : StrictMono g) (hu : g top ≤ u) : NearestEven g top u top where
  le_top := le_rfl
  nearest b hb := by
    rw [dist_below hg hu le_rfl, dist_below hg hu hb]
    exact sub_le_sub_left (hg.monotone hb) u
  even b hb h := by
    rw [dist_below hg hu le_rfl, dist_below hg hu hb] at h
    exact .inl (hg.injective (by linarith))

theorem lower (hg : StrictMono g) (hc : c ≤ top) (hu : g c ≤ u) (hlt : u - g c < g (c + 1) - u) :
    NearestEven g top u c := by
  have hdist := dist_below hg hu le_rfl
  have hfar : ∀ b, c + 1 ≤ b → |u - g c| < |u - g b| := by
    intro b hb
    have hmono := hg.monotone hb
    rw [hdist, dist_above hg (c := c + 1) (by linarith) hb]
    linarith
  constructor
  · exact hc
  · intro b _
    rcases Nat.lt_or_ge c b with hcb | hbc
    · exact (hfar b hcb).le
    · rw [hdist, dist_below hg hu hbc]
      exact sub_le_sub_left (hg.monotone hbc) u
  · intro b _ h
    rcases Nat.lt_or_ge c b with hcb | hbc
    · exact absurd h (hfar b hcb).ne
    · rw [hdist, dist_below hg hu hbc] at h
      exact .inl (hg.injective (by linarith))

theorem upper (hg : StrictMono g) (hc : c + 1 ≤ top) (hu : u ≤ g (c + 1)) (hlt : g (c + 1) - u < u - g c) :
    NearestEven g top u (c + 1) := by
  have hdist := dist_above hg hu le_rfl
  have hfar : ∀ b, b ≤ c → |u - g (c + 1)| < |u - g b| := by
    intro b hb
    have hmono := hg.monotone hb
    rw [hdist, dist_below hg (c := c) (by linarith) hb]
    linarith
  constructor
  · exact hc
  · intro b _
    rcases Nat.lt_or_ge c b with hcb | hbc
    · rw [hdist, dist_above hg hu hcb]
      exact sub_le_sub_right (hg.monotone hcb) u
    · exact (hfar b hbc).le
  · intro b _ h
    rcases Nat.lt_or_ge c b with hcb | hbc
    · rw [hdist, dist_above hg hu hcb] at h
      exact .inl (hg.injective (by linarith))
    · exact absurd h (hfar b hbc).ne

theorem middle (hg : StrictMono g) (hc : c + 1 ≤ top) (hmid : u - g c = g (c + 1) - u) :
    NearestEven g top u (if Even c then c else c + 1) := by
  have hstep := hg (Nat.lt_succ_self c)
  have hlo : g c ≤ u := by linarith
  have hhi : u ≤ g (c + 1) := by linarith
  have hdist : |u - g (if Even c then c else c + 1)| = u - g c := by
    split_ifs
    · exact dist_below hg hlo le_rfl
    · rw [dist_above hg hhi le_rfl, hmid]
  have heven : Even (if Even c then c else c + 1) := by
    split_ifs with h
    · exact h
    · exact (Nat.not_even_iff_odd.mp h).add_one
  constructor
  · split_ifs <;> omega
  · intro b _
    rw [hdist]
    rcases Nat.lt_or_ge c b with hcb | hbc
    · rw [dist_above hg hhi hcb, hmid]
      exact sub_le_sub_right (hg.monotone hcb) u
    · rw [dist_below hg hlo hbc]
      exact sub_le_sub_left (hg.monotone hbc) u
  · exact fun _ _ _ => .inr heven

/-- Between two points the distances to them decide. -/
theorem between (hg : StrictMono g) (hc : c + 1 ≤ top) (hlo : g c ≤ u) (hhi : u ≤ g (c + 1)) :
    NearestEven g top u
      (if g (c + 1) - u < u - g c ∨ u - g c = g (c + 1) - u ∧ ¬Even c then c + 1 else c) := by
  rcases lt_trichotomy (u - g c) (g (c + 1) - u) with hlt | heq | hgt
  · rw [if_neg (by rintro (h | h) <;> linarith)]
    exact lower hg (by omega) hlo hlt
  · have hmid := middle hg hc heq
    by_cases heven : Even c
    · rw [if_neg (by rintro (h | h); exacts [by linarith, h.2 heven])]
      rwa [if_pos heven] at hmid
    · rw [if_pos (.inr ⟨heq,heven⟩)]
      rwa [if_neg heven] at hmid
  · rw [if_pos (.inl hgt)]
    exact upper hg hc hhi hgt

omit [Field K] [IsStrictOrderedRing K] in
theorem exists_between (hg0 : g 0 ≤ u) : ∀ n, u < g n → ∃ c, c < n ∧ g c ≤ u ∧ u < g (c + 1)
  | 0, h => absurd h (not_lt.mpr hg0)
  | n + 1, h => by
    rcases lt_or_ge u (g n) with hlt | hge
    · obtain ⟨c,hc,hlo,hhi⟩ := exists_between hg0 n hlt
      exact ⟨c,hc.trans (Nat.lt_succ_self n),hlo,hhi⟩
    · exact ⟨n,Nat.lt_succ_self n,hge,h⟩

theorem exists_of_le (hg : StrictMono g) (top : ℕ) (hu : g 0 ≤ u) : ∃ a, NearestEven g top u a := by
  rcases lt_or_ge u (g top) with hlt | hge
  · obtain ⟨c,hc,hlo,hhi⟩ := exists_between hu top hlt
    exact ⟨_,between hg hc hlo hhi.le⟩
  · exact ⟨top,at_top hg hge⟩

end NearestEven
end CompilerRt
