import Mathlib

/-! # Walks that stay above zero

A walk goes by steps up and down, and a step below zero ends at zero. Where it is below a bound is told by the sums of
the last steps.
-/
namespace CompilerRt.ReflectedWalk

/-- The walk from `x`. -/
def walk (x : ℤ) (ds : List ℤ) : ℤ := ds.foldl (fun x d => max 0 (x + d)) x

variable {x N d : ℤ} {ds : List ℤ}

theorem walk_concat (x : ℤ) (ds : List ℤ) (d : ℤ) : walk x (ds ++ [d]) = max 0 (walk x ds + d) := by
  rw [walk, List.foldl_append]
  rfl

theorem walk_nonneg (hx : 0 ≤ x) (ds : List ℤ) : 0 ≤ walk x ds := by
  induction ds using List.reverseRecOn with
  | nil => exact hx
  | append_singleton ds d _ =>
    rw [walk_concat]
    exact le_max_left _ _

/-- Everything from the begin, or from any later place, adds up to less than the bound. -/
structure Below (x N : ℤ) (ds : List ℤ) : Prop where
  whole : x + ds.sum < N
  suffixes : ∀ w, w <:+ ds → w.sum < N

theorem below_concat_iff : Below x N (ds ++ [d]) ↔ 0 < N ∧ d < N ∧ Below x (N - d) ds := by
  constructor
  · intro h
    have hwhole := h.whole
    have hlast := h.suffixes [d] (List.suffix_append ds [d])
    rw [List.sum_append, List.sum_singleton] at hwhole
    rw [List.sum_singleton] at hlast
    refine ⟨h.suffixes [] (List.nil_suffix),hlast,by omega,fun w hw => ?_⟩
    obtain ⟨a,rfl⟩ := hw
    have hsuffix := h.suffixes (w ++ [d]) ⟨a,by rw [List.append_assoc]⟩
    rw [List.sum_append, List.sum_singleton] at hsuffix
    omega
  · rintro ⟨hpos,hd,hwhole,hsuffixes⟩
    refine ⟨by rw [List.sum_append, List.sum_singleton]; omega,fun w hw => ?_⟩
    rcases List.eq_nil_or_concat w with rfl | ⟨w,e,rfl⟩
    · exact hpos
    · obtain ⟨a,ha⟩ := hw
      rw [List.concat_eq_append, ← List.append_assoc] at ha
      obtain ⟨rfl,he⟩ := List.append_inj' ha rfl
      cases he
      have hsum := hsuffixes w ⟨a,rfl⟩
      rw [List.concat_eq_append, List.sum_append, List.sum_singleton]
      omega

/-- The sums tell where the walk is. -/
theorem walk_lt_iff (hx : 0 ≤ x) (hN : 0 < N) : walk x ds < N ↔ Below x N ds := by
  induction ds using List.reverseRecOn generalizing N with
  | nil =>
    have hsum : x + ([] : List ℤ).sum = x := add_zero x
    refine ⟨fun h => ⟨hsum.trans_lt h,fun w hw => ?_⟩,fun h => hsum.symm.trans_lt h.whole⟩
    rw [List.suffix_nil.mp hw]
    exact hN
  | append_singleton ds d ih =>
    have hnonneg := walk_nonneg hx ds
    rw [walk_concat, max_lt_iff, below_concat_iff]
    by_cases hd : d < N
    · rw [← ih (sub_pos.mpr hd)]
      constructor
      · rintro ⟨-,h⟩
        exact ⟨hN,hd,by omega⟩
      · rintro ⟨-,-,h⟩
        exact ⟨hN,by omega⟩
    · constructor
      · rintro ⟨-,h⟩
        omega
      · rintro ⟨-,h,-⟩
        exact absurd h hd

end CompilerRt.ReflectedWalk
