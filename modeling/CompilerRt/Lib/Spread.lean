import Mathlib

/-! # Items spread over places

Each item is at one place, once. Items move between places and new ones come in; none is lost and none is in two places.
-/
namespace CompilerRt

structure Spread {ι α : Type*} (f : ι → List α) (items : List α) : Prop where
  nodup : ∀ i, (f i).Nodup
  disjoint : ∀ i j x, x ∈ f i → x ∈ f j → i = j
  mem_iff : ∀ x, x ∈ items ↔ ∃ i, x ∈ f i

namespace Spread
variable {ι α : Type*} {f : ι → List α} {items new u v : List α} {i j : ι} {x : α}

theorem empty : Spread (fun _ : ι => ([] : List α)) [] where
  nodup := fun _ => List.nodup_nil
  disjoint := fun _ _ _ h => absurd h List.not_mem_nil
  mem_iff := fun _ => by simp

/-- An item has its one place. -/
theorem existsUnique (h : Spread f items) (hx : x ∈ items) : ∃! i, x ∈ f i := by
  obtain ⟨i,hi⟩ := (h.mem_iff x).mp hx
  exact ⟨i,hi,fun j hj => h.disjoint j i x hj hi⟩

theorem mem (h : Spread f items) (hx : x ∈ f i) : x ∈ items := (h.mem_iff x).mpr ⟨i,hx⟩

/-- Only membership of the items counts. -/
theorem congr {items' : List α} (h : Spread f items) (hmem : ∀ x, x ∈ items' ↔ x ∈ items) : Spread f items' :=
  ⟨h.nodup,h.disjoint,fun x => (hmem x).trans (h.mem_iff x)⟩

variable [DecidableEq ι]

/-- The items of one place in another order. -/
theorem perm (h : Spread f items) (hp : u.Perm (f i)) : Spread (Function.update f i u) items := by
  have hmem : ∀ j x, x ∈ Function.update f i u j ↔ x ∈ f j := by
    intro j x
    by_cases hj : j = i
    · rw [hj, Function.update_self, hp.mem_iff]
    · rw [Function.update_of_ne hj]
  refine ⟨fun j => ?_,fun j k x hj hk => ?_,fun x => ?_⟩
  · by_cases hj : j = i
    · rw [hj, Function.update_self]
      exact hp.nodup_iff.mpr (h.nodup i)
    · rw [Function.update_of_ne hj]
      exact h.nodup j
  · exact h.disjoint j k x ((hmem j x).mp hj) ((hmem k x).mp hk)
  · rw [h.mem_iff x]
    exact exists_congr fun j => (hmem j x).symm

/-- Two places exchange items. -/
theorem exchange (h : Spread f items) (hij : i ≠ j) (hp : (u ++ v).Perm (f i ++ f j)) :
    Spread (Function.update (Function.update f i u) j v) items := by
  have hnodup : (u ++ v).Nodup := by
    refine hp.nodup_iff.mpr (List.nodup_append.mpr ⟨h.nodup i,h.nodup j,fun x hx y hy hxy => ?_⟩)
    exact hij (h.disjoint i j x hx (hxy ▸ hy))
  have hmem : ∀ x, x ∈ u ∨ x ∈ v ↔ x ∈ f i ∨ x ∈ f j := by
    intro x
    rw [← List.mem_append, ← List.mem_append, hp.mem_iff]
  have hi : Function.update (Function.update f i u) j v i = u := by
    rw [Function.update_of_ne hij, Function.update_self]
  have hother : ∀ k, k ≠ i → k ≠ j → Function.update (Function.update f i u) j v k = f k := by
    intro k hki hkj
    rw [Function.update_of_ne hkj, Function.update_of_ne hki]
  have hplace : ∀ k x, x ∈ Function.update (Function.update f i u) j v k →
      k = i ∧ x ∈ u ∨ k = j ∧ x ∈ v ∨ k ≠ i ∧ k ≠ j ∧ x ∈ f k := by
    intro k x hx
    by_cases hkj : k = j
    · rw [hkj, Function.update_self] at hx
      exact .inr (.inl ⟨hkj,hx⟩)
    · by_cases hki : k = i
      · rw [hki, hi] at hx
        exact .inl ⟨hki,hx⟩
      · rw [hother k hki hkj] at hx
        exact .inr (.inr ⟨hki,hkj,hx⟩)
  have haway : ∀ k x, k ≠ i → k ≠ j → x ∈ f k → x ∉ u ∧ x ∉ v := by
    intro k x hki hkj hx
    rw [← not_or, hmem]
    rintro (hxi | hxj)
    · exact hki (h.disjoint k i x hx hxi)
    · exact hkj (h.disjoint k j x hx hxj)
  have hapart : ∀ x, x ∈ u → x ∉ v := fun x hx hy => (List.nodup_append.mp hnodup).2.2 x hx x hy rfl
  refine ⟨fun k => ?_,fun k l x hk hl => ?_,fun x => ?_⟩
  · by_cases hkj : k = j
    · rw [hkj, Function.update_self]
      exact (List.nodup_append.mp hnodup).2.1
    · by_cases hki : k = i
      · rw [hki, hi]
        exact (List.nodup_append.mp hnodup).1
      · rw [hother k hki hkj]
        exact h.nodup k
  · rcases hplace k x hk with ⟨rfl,hx⟩ | ⟨rfl,hx⟩ | ⟨hki,hkj,hx⟩
    · rcases hplace l x hl with ⟨rfl,-⟩ | ⟨rfl,hy⟩ | ⟨hli,hlj,hy⟩
      · rfl
      · exact absurd hy (hapart x hx)
      · exact absurd hx (haway l x hli hlj hy).1
    · rcases hplace l x hl with ⟨rfl,hy⟩ | ⟨rfl,-⟩ | ⟨hli,hlj,hy⟩
      · exact absurd hx (hapart x hy)
      · rfl
      · exact absurd hx (haway l x hli hlj hy).2
    · rcases hplace l x hl with ⟨rfl,hy⟩ | ⟨rfl,hy⟩ | ⟨hli,hlj,hy⟩
      · exact absurd hy (haway k x hki hkj hx).1
      · exact absurd hy (haway k x hki hkj hx).2
      · exact h.disjoint k l x hx hy
  · rw [h.mem_iff x]
    constructor
    · rintro ⟨k,hk⟩
      by_cases hkij : k = i ∨ k = j
      · have hx : x ∈ f i ∨ x ∈ f j := by
          rcases hkij with rfl | rfl
          · exact .inl hk
          · exact .inr hk
        rcases (hmem x).mpr hx with hx | hx
        · exact ⟨i,by rwa [hi]⟩
        · exact ⟨j,by rwa [Function.update_self]⟩
      · rw [not_or] at hkij
        exact ⟨k,by rwa [hother k hkij.1 hkij.2]⟩
    · rintro ⟨k,hk⟩
      rcases hplace k x hk with ⟨-,hx⟩ | ⟨-,hx⟩ | ⟨-,-,hx⟩
      · rcases (hmem x).mp (.inl hx) with hx | hx
        · exact ⟨i,hx⟩
        · exact ⟨j,hx⟩
      · rcases (hmem x).mp (.inr hx) with hx | hx
        · exact ⟨i,hx⟩
        · exact ⟨j,hx⟩
      · exact ⟨k,hx⟩

/-- New items come to a place. -/
theorem grow (h : Spread f items) (hnew : new.Nodup) (hfresh : ∀ x ∈ new, x ∉ items) :
    Spread (Function.update f i (new ++ f i)) (items ++ new) := by
  have hmem : ∀ k x, x ∈ Function.update f i (new ++ f i) k ↔ k = i ∧ x ∈ new ∨ x ∈ f k := by
    intro k x
    by_cases hk : k = i
    · rw [hk, Function.update_self, List.mem_append]
      simp
    · rw [Function.update_of_ne hk]
      simp [hk]
  refine ⟨fun k => ?_,fun k l x hk hl => ?_,fun x => ?_⟩
  · by_cases hk : k = i
    · rw [hk, Function.update_self]
      refine List.nodup_append.mpr ⟨hnew,h.nodup i,fun x hx y hy hxy => ?_⟩
      exact hfresh x hx (h.mem (hxy ▸ hy))
    · rw [Function.update_of_ne hk]
      exact h.nodup k
  · rcases (hmem k x).mp hk with ⟨rfl,hx⟩ | hx
    · rcases (hmem l x).mp hl with ⟨rfl,-⟩ | hy
      · rfl
      · exact absurd (h.mem hy) (hfresh x hx)
    · rcases (hmem l x).mp hl with ⟨rfl,hy⟩ | hy
      · exact absurd (h.mem hx) (hfresh x hy)
      · exact h.disjoint k l x hx hy
  · rw [List.mem_append, h.mem_iff x]
    constructor
    · rintro (⟨k,hk⟩ | hx)
      · exact ⟨k,(hmem k x).mpr (.inr hk)⟩
      · exact ⟨i,(hmem i x).mpr (.inl ⟨rfl,hx⟩)⟩
    · rintro ⟨k,hk⟩
      rcases (hmem k x).mp hk with ⟨-,hx⟩ | hx
      · exact .inr hx
      · exact .inl ⟨k,hx⟩

end Spread
end CompilerRt
