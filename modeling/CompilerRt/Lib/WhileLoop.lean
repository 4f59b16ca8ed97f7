import Mathlib.Logic.Function.Iterate
import Mathlib.Order.Monotone.Basic
import Mathlib.Data.Nat.Find

/-! # While loops

A loop is run for as many rounds as it is given. It ends if one of the states that its body makes, one after the
other, fails the guard.
-/
namespace CompilerRt.WhileLoop
variable {σ : Type*} (guard : σ → Bool) (body : σ → σ)

def run : ℕ → σ → Option σ
  | 0, _ => none
  | fuel + 1, s => if guard s then run fuel (body s) else some s

/-- The loop comes to its head with the state. -/
def Visits (s t : σ) : Prop := ∃ n, (∀ i < n, guard (body^[i] s) = true) ∧ t = body^[n] s

variable {guard body} {s t : σ} {P : σ → Prop}

/-- What the rounds keep holds at the head of the loop. -/
theorem Visits.inv (h : Visits guard body s t) (hs : P s) (hbody : ∀ s, P s → guard s = true → P (body s)) : P t := by
  obtain ⟨n,hn,rfl⟩ := h
  induction n with
  | zero => exact hs
  | succ n ih =>
    rw [Function.iterate_succ_apply']
    exact hbody _ (ih fun i hi => hn i (Nat.lt_succ_of_lt hi)) (hn n (Nat.lt_succ_self n))

theorem run_of_visits {n : ℕ} (h : ∀ i < n, guard (body^[i] s) = true) (hn : guard (body^[n] s) = false) :
    run guard body (n + 1) s = some (body^[n] s) := by
  induction n generalizing s with
  | zero => simpa [run] using hn
  | succ n ih =>
    have h0 : guard s = true := h 0 (Nat.succ_pos n)
    rw [run, if_pos h0, Function.iterate_succ_apply]
    exact ih (fun i hi => h (i + 1) (Nat.succ_lt_succ hi)) hn

theorem visits_of_run {fuel : ℕ} (h : run guard body fuel s = some t) :
    Visits guard body s t ∧ guard t = false := by
  induction fuel generalizing s with
  | zero => cases h
  | succ fuel ih =>
    rw [run] at h
    split_ifs at h with hg
    · obtain ⟨⟨n,hn,ht⟩,hf⟩ := ih h
      refine ⟨⟨n + 1,fun i hi => ?_,ht⟩,hf⟩
      cases i with
      | zero => exact hg
      | succ i => exact hn i (Nat.lt_of_succ_lt_succ hi)
    · cases h
      exact ⟨⟨0,fun i hi => absurd hi (Nat.not_lt_zero i),rfl⟩,eq_false_of_ne_true hg⟩

/-- The loop ends if some round would find the guard false. -/
theorem terminates_iff : (∃ fuel t, run guard body fuel s = some t) ↔ ∃ n, guard (body^[n] s) = false := by
  constructor
  · intro ⟨fuel,t,h⟩
    obtain ⟨⟨n,-,rfl⟩,hf⟩ := visits_of_run h
    exact ⟨n,hf⟩
  · intro h
    refine ⟨Nat.find h + 1,_,run_of_visits (fun i hi => ?_) (Nat.find_spec h)⟩
    exact eq_true_of_ne_false (Nat.find_min h hi)

/-! ## Total correctness -/

section Correct
variable {Safe Ok : σ → Prop}

/-- The loop ends, is safe whenever it is at its head, and has a result as it should. -/
structure Correct (guard : σ → Bool) (body : σ → σ) (Safe Ok : σ → Prop) (s : σ) : Prop where
  terminates : ∃ fuel t, run guard body fuel s = some t
  safe : ∀ t, Visits guard body s t → Safe t
  result : ∀ fuel t, run guard body fuel s = some t → Ok t

theorem Visits.here (s : σ) : Visits guard body s s := ⟨0,fun i hi => absurd hi (Nat.not_lt_zero i),rfl⟩

theorem Visits.step (hg : guard s = true) (h : Visits guard body (body s) t) : Visits guard body s t := by
  obtain ⟨n,hn,rfl⟩ := h
  refine ⟨n + 1,fun i hi => ?_,rfl⟩
  cases i with
  | zero => exact hg
  | succ i => exact hn i (Nat.lt_of_succ_lt_succ hi)

theorem Visits.cases_head (h : Visits guard body s t) : t = s ∨ (guard s = true ∧ Visits guard body (body s) t) := by
  obtain ⟨n,hn,rfl⟩ := h
  cases n with
  | zero => exact Or.inl rfl
  | succ n => exact Or.inr ⟨hn 0 (Nat.succ_pos n),n,fun i hi => hn (i + 1) (Nat.succ_lt_succ hi),rfl⟩

theorem correct_of_guard (hg : guard s = true) :
    Correct guard body Safe Ok s ↔ Safe s ∧ Correct guard body Safe Ok (body s) := by
  have hrun : ∀ fuel, run guard body (fuel + 1) s = run guard body fuel (body s) := fun fuel => by rw [run, if_pos hg]
  constructor
  · intro h
    refine ⟨h.safe s (Visits.here s),?_,fun t ht => h.safe t (ht.step hg),fun fuel t ht => ?_⟩
    · obtain ⟨_ | fuel,t,ht⟩ := h.terminates
      · cases ht
      · exact ⟨fuel,t,(hrun fuel).symm.trans ht⟩
    · exact h.result (fuel + 1) t ((hrun fuel).trans ht)
  · intro ⟨hs,h⟩
    refine ⟨?_,fun t ht => ?_,fun fuel t ht => ?_⟩
    · obtain ⟨fuel,t,ht⟩ := h.terminates
      exact ⟨fuel + 1,t,(hrun fuel).trans ht⟩
    · rcases ht.cases_head with rfl | ⟨-,ht⟩
      · exact hs
      · exact h.safe t ht
    · cases fuel with
      | zero => cases ht
      | succ fuel => exact h.result fuel t ((hrun fuel).symm.trans ht)

theorem correct_of_not_guard (hg : guard s = false) : Correct guard body Safe Ok s ↔ Safe s ∧ Ok s := by
  have hrun : ∀ fuel, run guard body (fuel + 1) s = some s := fun fuel => by
    rw [run, if_neg (Bool.eq_false_iff.mp hg)]
  constructor
  · intro h
    exact ⟨h.safe s (Visits.here s),h.result 1 s (hrun 0)⟩
  · intro ⟨hs,hok⟩
    refine ⟨⟨1,s,hrun 0⟩,fun t ht => ?_,fun fuel t ht => ?_⟩
    · rcases ht.cases_head with rfl | ⟨hg',-⟩
      · exact hs
      · rw [hg] at hg'
        cases hg'
    · cases fuel with
      | zero => cases ht
      | succ fuel =>
        rw [hrun] at ht
        cases ht
        exact hok

/-- Rounds that are safe can be taken off the front. -/
theorem correct_iterate {n : ℕ} (h : ∀ i < n, guard (body^[i] s) = true ∧ Safe (body^[i] s)) :
    Correct guard body Safe Ok s ↔ Correct guard body Safe Ok (body^[n] s) := by
  induction n with
  | zero => exact Iff.rfl
  | succ n ih =>
    obtain ⟨hg,hs⟩ := h n (Nat.lt_succ_self n)
    rw [ih fun i hi => h i (Nat.lt_succ_of_lt hi), Function.iterate_succ_apply', correct_of_guard hg,
      and_iff_right hs]

/-- A loop that goes on for ever is not correct. -/
theorem not_correct_of_forall (h : ∀ i, guard (body^[i] s) = true) : ¬Correct guard body Safe Ok s := by
  intro hc
  obtain ⟨n,hn⟩ := terminates_iff.mp hc.terminates
  rw [h n] at hn
  cases hn

end Correct

end CompilerRt.WhileLoop
