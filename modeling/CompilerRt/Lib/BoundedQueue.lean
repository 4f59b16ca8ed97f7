import Mathlib

/-! # Queues with a limit

Items come in behind and leave in front. An item leaves only as long as it, and what came in after it, is more than the limit.
-/
namespace CompilerRt

def Passed {α : Type*} (limit : ℕ) (size : α → ℕ) (l l' : List α) : Prop :=
  ∃ pushed popped, l ++ pushed = popped ++ l' ∧ ∀ k < popped.length, limit < (((l ++ pushed).drop k).map size).sum

namespace Passed
variable {α : Type*} {limit : ℕ} {size size' : α → ℕ} {l l₁ l' pushed : List α} {x : α}

theorem refl (l : List α) : Passed limit size l l := ⟨[],[],by simp,fun _ hk => absurd hk (Nat.not_lt_zero _)⟩

theorem push (l pushed : List α) : Passed limit size l (l ++ pushed) := ⟨pushed,[],rfl,fun _ hk => absurd hk (Nat.not_lt_zero _)⟩

theorem pop (h : limit < ((x :: l).map size).sum) : Passed limit size (x :: l) l := by
  refine ⟨[],[x],by simp,fun k hk => ?_⟩
  obtain rfl : k = 0 := by
    rw [List.length_singleton] at hk
    omega
  rwa [List.append_nil, List.drop_zero]

/-- What has come in and left in the first part of a time does so in the whole time. -/
theorem trans (h : Passed limit size l l₁) (h' : Passed limit size l₁ l') : Passed limit size l l' := by
  obtain ⟨pushed,popped,heq,hlimit⟩ := h
  obtain ⟨pushed',popped',heq',hlimit'⟩ := h'
  have hall : l ++ (pushed ++ pushed') = popped ++ (l₁ ++ pushed') := by
    rw [← List.append_assoc, heq, List.append_assoc]
  refine ⟨pushed ++ pushed',popped ++ popped',by rw [hall, heq', List.append_assoc],fun k hk => ?_⟩
  rcases Nat.lt_or_ge k popped.length with hlt | hge
  · -- what comes later only adds to the sum
    have hlen : k ≤ (l ++ pushed).length := by
      rw [heq, List.length_append]
      omega
    have hmore := hlimit k hlt
    rw [← List.append_assoc, List.drop_append_of_le_length hlen, List.map_append, List.sum_append]
    omega
  · rw [List.length_append] at hk
    have hdrop : (l ++ (pushed ++ pushed')).drop k = (l₁ ++ pushed').drop (k - popped.length) := by
      rw [hall, List.drop_append, List.drop_eq_nil_of_le hge, List.nil_append]
    rw [hdrop]
    exact hlimit' _ (by omega)

end Passed
end CompilerRt
