import Mathlib

/-! # Heaps in an array

The element at a position is not below those at its two children. One position may be out of order, and an exchange
with its parent or with its larger child moves it up or down.
-/
namespace CompilerRt.ArrayHeap

def parent (c : ℕ) : ℕ := (c - 1) / 2

theorem parent_lt {c : ℕ} (h : 0 < c) : parent c < c := by
  rw [parent]
  omega

theorem parent_eq_iff {c j : ℕ} (h : 0 < c) : parent c = j ↔ c = 2 * j + 1 ∨ c = 2 * j + 2 := by
  rw [parent]
  omega

variable {α : Type*} [LinearOrder α]

/-- The first `n` positions are a heap. -/
def Heap (f : ℕ → α) (n : ℕ) : Prop := ∀ c, 0 < c → c < n → f c ≤ f (parent c)

/-- The element at `j` may be above its parent. -/
structure UpHole (f : ℕ → α) (n j : ℕ) : Prop where
  order : ∀ c, 0 < c → c < n → c ≠ j → f c ≤ f (parent c)
  grand : 0 < j → ∀ c, 0 < c → c < n → parent c = j → f c ≤ f (parent j)

/-- The element at `j` may be below its children. -/
structure DownHole (f : ℕ → α) (n j : ℕ) : Prop where
  order : ∀ c, 0 < c → c < n → parent c ≠ j → f c ≤ f (parent c)
  grand : 0 < j → ∀ c, 0 < c → c < n → parent c = j → f c ≤ f (parent j)

variable {f : ℕ → α} {n i j m : ℕ}

theorem Heap.mono (h : Heap f n) (hm : m ≤ n) : Heap f m := fun c hc hlt => h c hc (Nat.lt_of_lt_of_le hlt hm)

theorem Heap.congr {f' : ℕ → α} (h : Heap f n) (hf : ∀ k, k < n → f' k = f k) : Heap f' n := by
  intro c hc hlt
  have hp := parent_lt hc
  rw [hf c hlt, hf (parent c) (by omega)]
  exact h c hc hlt

/-- The largest element is at the top. -/
theorem Heap.le_top (h : Heap f n) {k : ℕ} (hk : k < n) : f k ≤ f 0 := by
  induction k using Nat.strong_induction_on with
  | _ k ih =>
    rcases Nat.eq_zero_or_pos k with rfl | hpos
    · exact le_rfl
    · have hp := parent_lt hpos
      exact le_trans (h k hpos hk) (ih (parent k) hp (by omega))

/-- An element behind a heap. -/
theorem Heap.upHole (h : Heap f n) : UpHole f (n + 1) n where
  order := fun c hc hlt hne => h c hc (by omega)
  grand := by
    intro _ c hc hlt hp
    rw [parent_eq_iff hc] at hp
    omega

/-- A heap whose top is exchanged. -/
theorem Heap.downHole {f' : ℕ → α} (h : Heap f n) (hf : ∀ k, 0 < k → k < n → f' k = f k) : DownHole f' n 0 where
  order := by
    intro c hc hlt hp
    have hlt' := parent_lt hc
    rw [hf c hc hlt, hf (parent c) (by omega) (by omega)]
    exact h c hc hlt
  grand := fun h0 => absurd h0 (Nat.lt_irrefl 0)

theorem UpHole.heap (h : UpHole f n j) (hstop : 0 < j → f j ≤ f (parent j)) : Heap f n := by
  intro c hc hlt
  by_cases hcj : c = j
  · rw [hcj]
    exact hstop (hcj ▸ hc)
  · exact h.order c hc hlt hcj

theorem UpHole.swap (h : UpHole f n j) (hj : 0 < j) (hjn : j < n) (hlt : f (parent j) < f j) :
    UpHole (f ∘ Equiv.swap j (parent j)) n (parent j) := by
  have hp := parent_lt hj
  refine ⟨fun c hc hcn hne => ?_,fun hpos c hc hcn hcp => ?_⟩
  · have hcp := parent_lt hc
    by_cases hcj : c = j
    · rw [hcj, Function.comp_apply, Function.comp_apply, Equiv.swap_apply_left, Equiv.swap_apply_right]
      exact hlt.le
    · rw [Function.comp_apply, Equiv.swap_apply_of_ne_of_ne hcj hne, Function.comp_apply]
      by_cases hcpj : parent c = j
      · rw [hcpj, Equiv.swap_apply_left]
        exact h.grand hj c hc hcn hcpj
      · by_cases hcpp : parent c = parent j
        · rw [hcpp, Equiv.swap_apply_right]
          exact le_trans (hcpp ▸ h.order c hc hcn hcj) hlt.le
        · rw [Equiv.swap_apply_of_ne_of_ne hcpj hcpp]
          exact h.order c hc hcn hcj
  · have hpp := parent_lt hpos
    have hup : f (parent j) ≤ f (parent (parent j)) := h.order (parent j) hpos (by omega) (by omega)
    rw [Function.comp_apply, Function.comp_apply,
      Equiv.swap_apply_of_ne_of_ne (a := j) (x := parent (parent j)) (by omega) (by omega)]
    by_cases hcj : c = j
    · rw [hcj, Equiv.swap_apply_left]
      exact hup
    · have hcne : c ≠ parent j := by
        have := parent_lt hc
        omega
      rw [Equiv.swap_apply_of_ne_of_ne hcj hcne]
      exact le_trans (hcp ▸ h.order c hc hcn hcj) hup

theorem DownHole.heap (h : DownHole f n j) (hstop : ∀ c, 0 < c → c < n → parent c = j → f c ≤ f j) : Heap f n := by
  intro c hc hlt
  by_cases hcj : parent c = j
  · rw [hcj]
    exact hstop c hc hlt hcj
  · exact h.order c hc hlt hcj

/-- With the largest child, which is not below the element. -/
theorem DownHole.swap (h : DownHole f n j) (hm : 0 < m) (hmn : m < n) (hp : parent m = j)
    (hmax : ∀ c, 0 < c → c < n → parent c = j → f c ≤ f m) (hle : f j ≤ f m) :
    DownHole (f ∘ Equiv.swap j m) n m := by
  have hjm : j < m := hp ▸ parent_lt hm
  refine ⟨fun c hc hcn hne => ?_,fun _ c hc hcn hcm => ?_⟩
  · by_cases hcp : parent c = j
    · rw [Function.comp_apply, Function.comp_apply, hcp, Equiv.swap_apply_left]
      by_cases hcm : c = m
      · rw [hcm, Equiv.swap_apply_right]
        exact hle
      · have hcj : c ≠ j := by
          have := parent_lt hc
          omega
        rw [Equiv.swap_apply_of_ne_of_ne hcj hcm]
        exact hmax c hc hcn hcp
    · have hcm : c ≠ m := fun heq => hcp (heq ▸ hp)
      rw [Function.comp_apply, Function.comp_apply, Equiv.swap_apply_of_ne_of_ne hcp hne]
      by_cases hcj : c = j
      · rw [hcj, Equiv.swap_apply_left]
        exact h.grand (hcj ▸ hc) m hm hmn hp
      · rw [Equiv.swap_apply_of_ne_of_ne hcj hcm]
        exact h.order c hc hcn hcp
  · have hmc : m < c := hcm ▸ parent_lt hc
    rw [Function.comp_apply, Function.comp_apply, hp, Equiv.swap_apply_left,
      Equiv.swap_apply_of_ne_of_ne (by omega) (by omega)]
    exact hcm ▸ h.order c hc hcn (by omega)

end CompilerRt.ArrayHeap
