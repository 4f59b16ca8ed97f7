import Mathlib.Data.Option.Basic
import Mathlib.Data.List.Basic

/-! # Runs of a partial step function

A step either has a result or ends the run. A property is shown of all states of a run by an invariant that
each step keeps, if need be under a condition on the steps that are taken.
-/
namespace CompilerRt.Transition
variable {σ α : Type*} (step : σ → α → Option σ)

def run (s : σ) (as : List α) : Option σ := as.foldlM step s

/-- The property holds in every state of the run. -/
def AllStates (P : σ → Prop) : σ → List α → Prop
  | s, [] => P s
  | s, a :: as => P s ∧ ∀ s', step s a = some s' → AllStates P s' as

/-- The property holds of every step of the run. -/
def AllSteps (Q : σ → α → Prop) : σ → List α → Prop
  | _, [] => True
  | s, a :: as => ∀ s', step s a = some s' → Q s a ∧ AllSteps Q s' as

/-- The property holds of every step that the run tries, also of one without a result. -/
def AllTried (Q : σ → α → Prop) : σ → List α → Prop
  | _, [] => True
  | s, a :: as => Q s a ∧ ∀ s', step s a = some s' → AllTried Q s' as

instance decidableAllSteps (Q : σ → α → Prop) [∀ s a, Decidable (Q s a)] :
    ∀ s as, Decidable (AllSteps step Q s as)
  | _,[] => isTrue trivial
  | s,a :: as =>
    match h : step s a with
    | none => isTrue fun _ he => nomatch h.symm.trans he
    | some s₁ =>
      have := decidableAllSteps Q s₁ as
      decidable_of_iff (Q s a ∧ AllSteps step Q s₁ as)
        ⟨fun hq _ he => Option.some.inj (h.symm.trans he) ▸ hq,fun hq => hq s₁ h⟩

instance decidableAllTried (Q : σ → α → Prop) [∀ s a, Decidable (Q s a)] :
    ∀ s as, Decidable (AllTried step Q s as)
  | _,[] => isTrue trivial
  | s,a :: as =>
    match h : step s a with
    | none => decidable_of_iff (Q s a) ⟨fun hq => ⟨hq,fun _ he => nomatch h.symm.trans he⟩,And.left⟩
    | some s₁ =>
      have := decidableAllTried Q s₁ as
      decidable_of_iff (Q s a ∧ AllTried step Q s₁ as)
        (and_congr_right fun _ => ⟨fun hq _ he => Option.some.inj (h.symm.trans he) ▸ hq,fun hq => hq s₁ h⟩)

variable {step} {P I : σ → Prop} {Q : σ → α → Prop} {s s' : σ} {as : List α}

@[simp] theorem run_nil : run step s [] = some s := rfl

theorem run_cons (a : α) : run step s (a :: as) = (step s a).bind fun s' => run step s' as := List.foldlM_cons ..

theorem run_append (s : σ) (as bs : List α) :
    run step s (as ++ bs) = (run step s as).bind fun s' => run step s' bs := List.foldlM_append ..

theorem AllStates.head (h : AllStates step P s as) : P s := by
  cases as with
  | nil => exact h
  | cons a as => exact h.1

theorem AllStates.last (h : AllStates step P s as) (hr : run step s as = some s') : P s' := by
  induction as generalizing s with
  | nil =>
    cases hr
    exact h
  | cons a as ih =>
    rw [run_cons, Option.bind_eq_some_iff] at hr
    obtain ⟨s₁,h₁,hr⟩ := hr
    exact ih (h.2 s₁ h₁) hr

/-- An invariant that every step with `Q` keeps holds in every state of a run of such steps. -/
theorem allStates_of_inv (hstep : ∀ s a s', I s → Q s a → step s a = some s' → I s') (hP : ∀ s, I s → P s)
    (hs : I s) (hQ : AllSteps step Q s as) : AllStates step P s as := by
  induction as generalizing s with
  | nil => exact hP s hs
  | cons a as ih =>
    refine ⟨hP s hs,fun s' he => ?_⟩
    obtain ⟨hq,hrest⟩ := hQ s' he
    exact ih (hstep s a s' hs hq he) hrest

/-- Where a step without `Q` would break `P`, all steps of a run in which `P` stays have `Q`. -/
theorem allSteps_of_allStates {R : σ → α → Prop} (hstep : ∀ s a s', I s → R s a → step s a = some s' → P s' → Q s a)
    (hI : ∀ s a s', I s → R s a → Q s a → step s a = some s' → I s') (hs : I s) (hR : AllSteps step R s as)
    (hP : AllStates step P s as) : AllSteps step Q s as := by
  induction as generalizing s with
  | nil => trivial
  | cons a as ih =>
    intro s' he
    obtain ⟨hr,hrest⟩ := hR s' he
    have hq := hstep s a s' hs hr he (hP.2 s' he).head
    exact ⟨hq,ih (hI s a s' hs hr hq he) hrest (hP.2 s' he)⟩

theorem AllSteps.of_forall (h : ∀ s a, Q s a) : AllSteps step Q s as := by
  induction as generalizing s with
  | nil => trivial
  | cons a as ih => exact fun _ _ => ⟨h s a,ih⟩

theorem AllSteps.and {Q' : σ → α → Prop} (h : AllSteps step Q s as) (h' : AllSteps step Q' s as) :
    AllSteps step (fun s a => Q s a ∧ Q' s a) s as := by
  induction as generalizing s with
  | nil => trivial
  | cons a as ih => exact fun s' he => ⟨⟨(h s' he).1,(h' s' he).1⟩,ih (h s' he).2 (h' s' he).2⟩

theorem AllSteps.mono {Q' : σ → α → Prop} (h : AllSteps step Q s as) (hq : ∀ s a, Q s a → Q' s a) :
    AllSteps step Q' s as := by
  induction as generalizing s with
  | nil => trivial
  | cons a as ih => exact fun s' he => ⟨hq _ _ (h s' he).1,ih (h s' he).2⟩

/-- The steps of a first part of a run, and those after it. -/
theorem allSteps_append {bs : List α} : AllSteps step Q s (as ++ bs) ↔
    AllSteps step Q s as ∧ ∀ s', run step s as = some s' → AllSteps step Q s' bs := by
  induction as generalizing s with
  | nil => simp [AllSteps]
  | cons a as ih =>
    simp only [List.cons_append, AllSteps, run_cons, Option.bind_eq_some_iff]
    constructor
    · intro h
      exact ⟨fun s₁ h₁ => ⟨(h s₁ h₁).1,(ih.mp (h s₁ h₁).2).1⟩,fun s' ⟨s₁,h₁,hr⟩ => (ih.mp (h s₁ h₁).2).2 s' hr⟩
    · intro ⟨h,hbs⟩ s₁ h₁
      exact ⟨(h s₁ h₁).1,ih.mpr ⟨(h s₁ h₁).2,fun s' hr => hbs s' ⟨s₁,h₁,hr⟩⟩⟩

/-- Properties of steps that agree where the invariant holds. -/
theorem allSteps_iff_of_inv {Q' : σ → α → Prop} (hI : ∀ s a s', I s → step s a = some s' → I s')
    (hq : ∀ s a, I s → (Q s a ↔ Q' s a)) (hs : I s) : AllSteps step Q s as ↔ AllSteps step Q' s as := by
  induction as generalizing s with
  | nil => exact Iff.rfl
  | cons a as ih => exact forall₂_congr fun s' he => and_congr (hq s a hs) (ih (hI s a s' hs he))

theorem allTried_cons {a : α} (h : step s a = some s') :
    AllTried step Q s (a :: as) ↔ Q s a ∧ AllTried step Q s' as := by
  rw [AllTried, h]
  exact and_congr_right fun _ => ⟨fun hrest => hrest s' rfl,fun hrest _ he => Option.some.inj he ▸ hrest⟩

/-- Properties of steps that agree under an invariant, which the steps with the second keep. -/
theorem allTried_iff_of_inv {R Q' : σ → α → Prop}
    (hI : ∀ s a s', I s → R s a → Q' s a → step s a = some s' → I s')
    (hq : ∀ s a, I s → R s a → (Q s a ↔ Q' s a)) (hs : I s) (hR : AllTried step R s as) :
    AllTried step Q s as ↔ AllTried step Q' s as := by
  induction as generalizing s with
  | nil => exact Iff.rfl
  | cons a as ih =>
    obtain ⟨hr,hrest⟩ := hR
    rw [AllTried, AllTried, hq s a hs hr]
    exact and_congr_right fun hq' => forall₂_congr fun s' he => ih (hI s a s' hs hr hq' he) (hrest s' he)

/-- An invariant holds after a run. -/
theorem run_inv (hstep : ∀ s a s', I s → step s a = some s' → I s') (hs : I s) (hr : run step s as = some s') :
    I s' := by
  induction as generalizing s with
  | nil =>
    cases hr
    exact hs
  | cons a as ih =>
    rw [run_cons, Option.bind_eq_some_iff] at hr
    obtain ⟨s₁,h₁,hr⟩ := hr
    exact ih (hstep s a s₁ hs h₁) hr

end CompilerRt.Transition
