import Mathlib.Data.List.Basic

/-! # Blocks of lines

A block is a sequence of lines, none of them empty, with an empty line at its end. Who reads it piece by piece sees
two line ends in a row only at the end of the block.
-/
namespace CompilerRt.TextBlock
variable {α : Type*} {nl : α} {l a b p q : List α} {ls : List (List α)}

/-- The lines, each with its end, and the empty line. -/
def block (nl : α) : List (List α) → List α
  | [] => [nl]
  | l :: ls => l ++ nl :: block nl ls

/-- Lines that a block can have. -/
def Proper (nl : α) (ls : List (List α)) : Prop := ∀ l ∈ ls, l ≠ [] ∧ nl ∉ l

theorem Proper.tail (h : Proper nl (l :: ls)) : Proper nl ls := fun m hm => h m (List.mem_cons_of_mem l hm)

/-- Behind two line ends there is nothing. -/
theorem block_double (h : Proper nl ls) (heq : block nl ls = a ++ nl :: nl :: b) : b = [] := by
  induction ls generalizing a with
  | nil =>
    have hlen := congrArg List.length heq
    simp only [block, List.length_append, List.length_cons, List.length_nil] at hlen
    omega
  | cons l ls ih =>
    rw [block, List.append_eq_append_iff] at heq
    rcases heq with ⟨c,rfl,hc⟩ | ⟨c,rfl,hc⟩
    · cases c with
      | nil =>
        simp only [List.nil_append, List.cons.injEq, true_and] at hc
        cases ls with
        | nil =>
          simp only [block, List.cons.injEq, true_and] at hc
          exact hc.symm
        | cons m ls =>
          obtain ⟨hne,hnl⟩ := h m (by simp)
          obtain ⟨x,m,rfl⟩ := List.exists_cons_of_ne_nil hne
          simp only [block, List.cons_append, List.cons.injEq] at hc
          exact absurd (by simp [hc.1]) hnl
      | cons x c =>
        simp only [List.cons_append, List.cons.injEq] at hc
        exact ih h.tail hc.2
    · cases c with
      | nil =>
        simp only [List.nil_append, List.cons.injEq, true_and] at hc
        cases ls with
        | nil =>
          simp only [block, List.cons.injEq, true_and] at hc
          exact hc
        | cons m ls =>
          obtain ⟨hne,hnl⟩ := h m (by simp)
          obtain ⟨x,m,rfl⟩ := List.exists_cons_of_ne_nil hne
          simp only [block, List.cons_append, List.cons.injEq] at hc
          exact absurd (by simp [hc.1]) hnl
      | cons x c =>
        simp only [List.cons_append, List.cons.injEq] at hc
        exact absurd (by simp [hc.1]) (h (a ++ x :: c) (by simp)).2

/-- A piece of a block that ends with two line ends is all of it. -/
theorem eq_nil_of_double (h : Proper nl ls) (heq : block nl ls = p ++ q) (hp : ∃ r, p = r ++ [nl,nl]) : q = [] := by
  obtain ⟨r,rfl⟩ := hp
  exact block_double (a := r) h (heq.trans (by simp))

/-- A block with a line ends with two line ends. -/
theorem block_ends (hne : ls ≠ []) : ∃ r, block nl ls = r ++ [nl,nl] := by
  induction ls with
  | nil => exact absurd rfl hne
  | cons l ls ih =>
    cases ls with
    | nil => exact ⟨l,rfl⟩
    | cons m ls =>
      obtain ⟨r,hr⟩ := ih (List.cons_ne_nil m ls)
      exact ⟨l ++ nl :: r,by rw [block, hr]; simp⟩

end CompilerRt.TextBlock
