import Mathlib.Data.List.Basic
import Mathlib.Data.List.Infix

/-! # Chains of nodes

A chain starts at a pointer, goes from each node to the next one, and ends at the null pointer.
-/
namespace CompilerRt

def Chain (next : ℕ → ℕ) : ℕ → List ℕ → Prop
  | a, [] => a = 0
  | a, b :: l => a = b ∧ b ≠ 0 ∧ Chain next (next b) l

namespace Chain
variable {next next' : ℕ → ℕ} {a b t : ℕ} {l l' : List ℕ}

/-- A pointer starts one chain. -/
theorem unique (h : Chain next a l) (h' : Chain next a l') : l = l' := by
  induction l generalizing a l' with
  | nil =>
    cases l' with
    | nil => rfl
    | cons b' l' => exact absurd (h'.1.symm.trans h) h'.2.1
  | cons b l ih =>
    cases l' with
    | nil => exact absurd (h.1.symm.trans h') h.2.1
    | cons b' l' =>
      obtain ⟨rfl,-,htail⟩ := h
      obtain ⟨rfl,-,htail'⟩ := h'
      rw [ih htail htail']

/-- Only the nodes of the chain count. -/
theorem congr (h : Chain next a l) (hnext : ∀ x ∈ l, next' x = next x) : Chain next' a l := by
  induction l generalizing a with
  | nil => exact h
  | cons b l ih =>
    obtain ⟨rfl,hb,htail⟩ := h
    refine ⟨rfl,hb,?_⟩
    rw [hnext a List.mem_cons_self]
    exact ih htail fun x hx => hnext x (List.mem_cons_of_mem a hx)

theorem eq_nil (h : Chain next 0 l) : l = [] := h.unique rfl

/-- A chain from a node goes on with the next one. -/
theorem tail (h : Chain next a l) (ha : a ≠ 0) : ∃ l', l = a :: l' ∧ Chain next (next a) l' := by
  cases l with
  | nil => exact absurd h ha
  | cons b l =>
    obtain ⟨rfl,-,htail⟩ := h
    exact ⟨l,rfl,htail⟩

/-- A node is put before a chain. -/
theorem cons (h : Chain next a l) (hb : b ≠ 0) (hnext : next b = a) : Chain next b (b :: l) :=
  ⟨rfl,hb,hnext.symm ▸ h⟩

theorem ne_zero (h : Chain next a l) (hb : b ∈ l) : b ≠ 0 := by
  induction l generalizing a with
  | nil => cases hb
  | cons x l ih =>
    rcases List.mem_cons.mp hb with rfl | hb
    · exact h.2.1
    · exact ih h.2.2 hb

theorem eq_zero_iff (h : Chain next a l) : a = 0 ↔ l = [] := by
  cases l with
  | nil => exact iff_of_true h rfl
  | cons x l => exact iff_of_false (h.1 ▸ h.2.1) (List.cons_ne_nil x l)

theorem last_next (h : Chain next a (l ++ [t])) : next t = 0 := by
  induction l generalizing a with
  | nil => exact h.2.2
  | cons x l ih => exact ih h.2.2

/-- The last node goes on with another chain. -/
theorem concat (h : Chain next a (l ++ [t])) (hl : ∀ x ∈ l, next' x = next x) (ht : next' t = b)
    (h' : Chain next' b l') : Chain next' a (l ++ t :: l') := by
  induction l generalizing a with
  | nil => exact ⟨h.1,h.2.1,ht ▸ h'⟩
  | cons x l ih =>
    obtain ⟨rfl,hne,htail⟩ := h
    refine ⟨rfl,hne,?_⟩
    rw [hl a List.mem_cons_self]
    exact ih htail fun x hx => hl x (List.mem_cons_of_mem a hx)

end Chain
end CompilerRt
