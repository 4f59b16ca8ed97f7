import CompilerRt.Lib.Transition
import Mathlib.Algebra.BigOperators.Group.Finset.Basic
import Mathlib.Algebra.Order.BigOperators.Group.Finset
import Mathlib.Data.Fintype.BigOperators
import Mathlib.Logic.Function.Basic

/-! # Threads over shared memory

A step of a configuration is a step of one of its threads. An invariant is a property of the shared memory together
with what each thread knows of it; it is kept if a step keeps the thread's own knowledge and does not disturb that of
the others.
-/
namespace CompilerRt.Interleaving

structure Config (σ l Tid : Type*) where
  shared : σ
  threads : Tid → l

variable {σ l α Tid : Type*} [DecidableEq Tid]

def step (next : Tid → α → σ → l → Option (σ × l)) (c : Config σ l Tid) (e : Tid × α) : Option (Config σ l Tid) :=
  (next e.1 e.2 c.shared (c.threads e.1)).map fun r => ⟨r.1,Function.update c.threads e.1 r.2⟩

def Inv (G : σ → Prop) (A : σ → Tid → l → Prop) (c : Config σ l Tid) : Prop :=
  G c.shared ∧ ∀ t, A c.shared t (c.threads t)

variable {next : Tid → α → σ → l → Option (σ × l)} {c c' : Config σ l Tid}

theorem step_eq_some {e : Tid × α} (h : step next c e = some c') :
    ∃ g x, next e.1 e.2 c.shared (c.threads e.1) = some (g,x) ∧ c' = ⟨g,Function.update c.threads e.1 x⟩ := by
  obtain ⟨⟨g,x⟩,hn,rfl⟩ := Option.map_eq_some_iff.mp h
  exact ⟨g,x,hn,rfl⟩

variable {G : σ → Prop} {A : σ → Tid → l → Prop}

theorem step_inv (own : ∀ t a g x g' x', G g → A g t x → next t a g x = some (g',x') → G g' ∧ A g' t x')
    (other : ∀ t u a g x y g' x', t ≠ u → G g → A g t x → A g u y → next t a g x = some (g',x') → A g' u y)
    {e : Tid × α} (hI : Inv G A c) (h : step next c e = some c') : Inv G A c' := by
  obtain ⟨g,x,hn,rfl⟩ := step_eq_some h
  obtain ⟨hG,hA⟩ := hI
  have howner := own e.1 e.2 _ _ g x hG (hA e.1) hn
  refine ⟨howner.1,fun u => ?_⟩
  dsimp only
  by_cases hu : u = e.1
  · subst hu
    rw [Function.update_self]
    exact howner.2
  · rw [Function.update_of_ne hu]
    exact other e.1 u e.2 _ _ _ g x (Ne.symm hu) hG (hA e.1) (hA u) hn

theorem run_inv (own : ∀ t a g x g' x', G g → A g t x → next t a g x = some (g',x') → G g' ∧ A g' t x')
    (other : ∀ t u a g x y g' x', t ≠ u → G g → A g t x → A g u y → next t a g x = some (g',x') → A g' u y)
    {es : List (Tid × α)} (hI : Inv G A c) (h : Transition.run (step next) c es = some c') : Inv G A c' :=
  Transition.run_inv (fun _ _ _ hs he => step_inv own other hs he) hI h

/-! ## What the threads hold together -/

section Total
variable [Fintype Tid] (w : l → ℕ)

/-- The sum of what each thread accounts for. -/
def total (threads : Tid → l) : ℕ := ∑ t, w (threads t)

variable {w} {threads : Tid → l} {t : Tid}

omit [DecidableEq Tid] in
theorem le_total (t : Tid) : w (threads t) ≤ total w threads :=
  Finset.single_le_sum (f := fun u => w (threads u)) (fun _ _ => Nat.zero_le _) (Finset.mem_univ t)

/-- A thread that moves changes its own share. -/
theorem total_update (x : l) : total w (Function.update threads t x) + w (threads t) = total w threads + w x := by
  have hsplit : ∀ f : Tid → l, total w f = w (f t) + ∑ u ∈ Finset.univ.erase t, w (f u) := fun f =>
    (Finset.add_sum_erase Finset.univ (fun u => w (f u)) (Finset.mem_univ t)).symm
  have hrest : ∑ u ∈ Finset.univ.erase t, w (Function.update threads t x u) = ∑ u ∈ Finset.univ.erase t, w (threads u) := by
    refine Finset.sum_congr rfl fun u hu => ?_
    rw [Function.update_of_ne (Finset.ne_of_mem_erase hu)]
  rw [hsplit (Function.update threads t x), hsplit threads, hrest, Function.update_self]
  omega

omit [DecidableEq Tid] in
theorem total_le (n : ℕ) (h : ∀ x, w x ≤ n) : total w threads ≤ Fintype.card Tid * n := by
  have hsum := Finset.sum_le_card_nsmul Finset.univ (fun u => w (threads u)) n fun u _ => h (threads u)
  simpa [total] using hsum

end Total
end CompilerRt.Interleaving
