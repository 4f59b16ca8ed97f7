import CompilerRt.Lib.ArrayHeap
import Mathlib

/-! # Heapsort

`SortArray` of `lib/sanitizer_common/sanitizer_common.cc`. An access outside the array has no result.
-/
namespace CompilerRt.Sanitizer
open ArrayHeap

def Swap (array : Array ℕ) (i j : ℕ) : Option (Array ℕ) :=
  if h : i < array.size ∧ j < array.size then some (array.swap i j h.1 h.2) else none

namespace SortArray

/-- The inner loop of the first stage: the element goes up from `j`. -/
def insert (array : Array ℕ) (j : ℕ) : Option (Array ℕ) :=
  if 0 < j then
    let p := (j - 1) / 2
    (array[j]?).bind fun x => (array[p]?).bind fun y =>
      if x > y then (Swap array j p).bind fun array => insert array p else some array
  else some array
termination_by j

/-- The larger of `max_ind` and the child, if the child is below `i`. -/
def larger (array : Array ℕ) (i child max_ind : ℕ) : Option ℕ :=
  if child < i then
    (array[child]?).bind fun x => (array[max_ind]?).map fun y => if x > y then child else max_ind
  else some max_ind

def maxInd (array : Array ℕ) (i j : ℕ) : Option ℕ :=
  (larger array i (2 * j + 1) j).bind fun max_ind => larger array i (2 * j + 2) max_ind

/-- The inner loop of the second stage: the element goes down from `j` in the first `i`. -/
def sink (i : ℕ) : ℕ → Array ℕ → ℕ → Option (Array ℕ)
  | 0, _, _ => none
  | fuel + 1, array, j =>
    if j < i then
      (maxInd array i j).bind fun max_ind =>
        if max_ind ≠ j then (Swap array j max_ind).bind fun array => sink i fuel array max_ind else some array
    else some array

/-- The first stage, from the element `i` on. -/
def build (size : ℕ) : ℕ → Array ℕ → ℕ → Option (Array ℕ)
  | 0, _, _ => none
  | fuel + 1, array, i =>
    if i < size then (insert array i).bind fun array => build size fuel array (i + 1) else some array

/-- The second stage, down from the element `i`. -/
def extract (array : Array ℕ) : ℕ → Option (Array ℕ)
  | 0 => some array
  | i + 1 => (Swap array 0 (i + 1)).bind fun array =>
    (sink (i + 1) (i + 2) array 0).bind fun array => extract array i

end SortArray

/-- None where an access is outside the array. -/
def SortArray (array : Array ℕ) : Option (Array ℕ) :=
  let size := array.size
  if size < 2 then some array
  else (SortArray.build size size array 1).bind fun array => SortArray.extract array (size - 1)

namespace SortArray

/-- The elements by their positions. -/
def key (array : Array ℕ) (i : ℕ) : ℕ := array.getD i 0

variable {a a' : Array ℕ} {i j n : ℕ}

theorem getElem?_eq_key (h : i < a.size) : a[i]? = some (key a i) := by
  rw [key, Array.getD_eq_getD_getElem?, Array.getElem?_eq_getElem h, Option.getD_some]

/-- The result of a part of the sort: the same elements, with an order of their positions that leaves those from `n`
on. -/
structure Rearranged (a : Array ℕ) (n : ℕ) (a' : Array ℕ) : Prop where
  perm : a'.Perm a
  above : ∀ k, n ≤ k → key a' k = key a k
  below : ∀ k, k < n → ∃ l, l < n ∧ key a' k = key a l

theorem Rearranged.refl : Rearranged a n a where
  perm := Array.Perm.refl a
  above _ _ := rfl
  below k hk := ⟨k,hk,rfl⟩

theorem Rearranged.size_eq (h : Rearranged a n a') : a'.size = a.size := h.perm.size_eq

theorem Rearranged.trans {a'' : Array ℕ} (h : Rearranged a n a') (h' : Rearranged a' n a'') :
    Rearranged a n a'' where
  perm := h'.perm.trans h.perm
  above k hk := (h'.above k hk).trans (h.above k hk)
  below k hk := by
    obtain ⟨l,hl,heq⟩ := h'.below k hk
    obtain ⟨l',hl',heq'⟩ := h.below l hl
    exact ⟨l',hl',heq.trans heq'⟩

theorem Rearranged.mono {m : ℕ} (h : Rearranged a n a') (hm : n ≤ m) : Rearranged a m a' where
  perm := h.perm
  above k hk := h.above k (hm.trans hk)
  below k hk := by
    by_cases hkn : k < n
    · obtain ⟨l,hl,heq⟩ := h.below k hkn
      exact ⟨l,by omega,heq⟩
    · exact ⟨k,hk,h.above k (by omega)⟩

/-- An exchange has a result inside the array. -/
theorem swap_spec (hi : i < n) (hj : j < n) (hn : n ≤ a.size) : ∃ a', Swap a i j = some a' ∧
    Rearranged a n a' ∧ key a' = key a ∘ Equiv.swap i j := by
  have hi' : i < a.size := by omega
  have hj' : j < a.size := by omega
  have hkey : key (a.swap i j hi' hj') = key a ∘ Equiv.swap i j := by
    funext k
    rw [Function.comp_apply, key, key, Array.getD_eq_getD_getElem?, Array.getD_eq_getD_getElem?, Array.getElem?_swap]
    by_cases hki : k = i
    · rw [hki, Equiv.swap_apply_left, if_pos rfl, Array.getElem?_eq_getElem hj']
      split_ifs with hji
      · simp only [hji]
      · rfl
    · by_cases hkj : k = j
      · rw [hkj, Equiv.swap_apply_right, if_pos rfl, Array.getElem?_eq_getElem hi']
      · rw [Equiv.swap_apply_of_ne_of_ne hki hkj, if_neg (Ne.symm hkj), if_neg (Ne.symm hki)]
  refine ⟨_,dif_pos ⟨hi',hj'⟩,⟨Array.swap_perm hi' hj',fun k hk => ?_,fun k hk => ?_⟩,hkey⟩
  · rw [hkey, Function.comp_apply, Equiv.swap_apply_of_ne_of_ne (by omega) (by omega)]
  · refine ⟨Equiv.swap i j k,?_,congrFun hkey k⟩
    rw [Equiv.swap_apply_def]
    split_ifs <;> assumption

theorem insert_spec (h : UpHole (key a) n j) (hj : j < n) (hn : n ≤ a.size) :
    ∃ a', insert a j = some a' ∧ Rearranged a n a' ∧ Heap (key a') n := by
  induction j using Nat.strongRecOn generalizing a with
  | _ j ih =>
    rw [insert]
    by_cases hpos : 0 < j
    · have hp := parent_lt hpos
      rw [if_pos hpos, getElem?_eq_key (Nat.lt_of_lt_of_le hj hn), Option.bind_some]
      change ∃ a', ((a[parent j]?).bind _) = some a' ∧ _
      rw [getElem?_eq_key (by omega), Option.bind_some]
      by_cases hlt : key a j > key a (parent j)
      · rw [if_pos hlt]
        obtain ⟨a₁,hswap,hr,hkey⟩ := swap_spec (j := parent j) hj (by omega) hn
        have hsize := hr.size_eq
        obtain ⟨a₂,hins,hr',hheap⟩ := ih (parent j) hp (a := a₁) (hkey ▸ h.swap hpos hj hlt) (by omega) (by omega)
        refine ⟨a₂,?_,hr.trans hr',hheap⟩
        change (Swap a j (parent j)).bind _ = _
        rw [hswap]
        exact hins
      · rw [if_neg hlt]
        exact ⟨a,rfl,Rearranged.refl,h.heap fun _ => Nat.le_of_not_lt hlt⟩
    · rw [if_neg hpos]
      exact ⟨a,rfl,Rearranged.refl,h.heap fun h0 => absurd h0 hpos⟩

theorem build_spec {q : ℕ} (h : Heap (key a) i) (hi : i ≤ a.size) (hfuel : a.size - i < q) :
    ∃ a', build a.size q a i = some a' ∧ a'.Perm a ∧
      Heap (key a') a.size := by
  induction q generalizing a i with
  | zero => omega
  | succ q ih =>
    rw [build]
    by_cases hlt : i < a.size
    · rw [if_pos hlt]
      obtain ⟨a₁,hins,hr,hheap⟩ := insert_spec h.upHole (Nat.lt_succ_self i) hlt
      have hsize := hr.size_eq
      obtain ⟨a₂,hbuild,hperm,hheap'⟩ := ih hheap (by omega) (by omega)
      rw [hsize] at hbuild hheap'
      exact ⟨a₂,by rw [hins]; exact hbuild,hperm.trans hr.perm,hheap'⟩
    · rw [if_neg hlt]
      have hsize : i = a.size := by omega
      exact ⟨a,rfl,Array.Perm.refl a,hsize ▸ h⟩

/-- The child that is exchanged is the largest one, and above the element. -/
theorem maxInd_spec (hj : j < n) (hn : n ≤ a.size) : ∃ m, maxInd a n j = some m ∧ m < n ∧
    (m ≠ j → 0 < m ∧ parent m = j) ∧ key a j ≤ key a m ∧
    ∀ c, 0 < c → c < n → parent c = j → key a c ≤ key a m := by
  have hlarger : ∀ child max_ind, max_ind < n → ∃ m, larger a n child max_ind = some m ∧
      (m = max_ind ∨ m = child) ∧ m < n ∧ key a max_ind ≤ key a m ∧
      (child < n → key a child ≤ key a m) := by
    intro child max_ind hmax
    rw [larger]
    by_cases hc : child < n
    · rw [if_pos hc, getElem?_eq_key (by omega), Option.bind_some, getElem?_eq_key (by omega), Option.map_some]
      by_cases hgt : key a child > key a max_ind
      · exact ⟨child,by rw [if_pos hgt],Or.inr rfl,hc,hgt.le,fun _ => le_rfl⟩
      · exact ⟨max_ind,by rw [if_neg hgt],Or.inl rfl,hmax,le_rfl,fun _ => Nat.le_of_not_lt hgt⟩
    · rw [if_neg hc]
      exact ⟨max_ind,rfl,Or.inl rfl,hmax,le_rfl,fun h => absurd h hc⟩
  obtain ⟨m₁,h₁,hcase₁,hlt₁,hle₁,hchild₁⟩ := hlarger (2 * j + 1) j hj
  obtain ⟨m₂,h₂,hcase₂,hlt₂,hle₂,hchild₂⟩ := hlarger (2 * j + 2) m₁ hlt₁
  refine ⟨m₂,?_,hlt₂,fun hne => ?_,hle₁.trans hle₂,fun c hc hcn hp => ?_⟩
  · rw [maxInd, h₁]
    exact h₂
  · have hm : m₂ = 2 * j + 1 ∨ m₂ = 2 * j + 2 := by omega
    have hpos : 0 < m₂ := by omega
    exact ⟨hpos,(parent_eq_iff hpos).mpr hm⟩
  · rcases (parent_eq_iff hc).mp hp with rfl | rfl
    · exact (hchild₁ hcn).trans hle₂
    · exact hchild₂ hcn

theorem sink_spec {q : ℕ} (h : DownHole (key a) n j) (hj : j < n) (hn : n ≤ a.size) (hfuel : n - j < q) :
    ∃ a', sink n q a j = some a' ∧ Rearranged a n a' ∧ Heap (key a') n := by
  induction q generalizing a j with
  | zero => omega
  | succ q ih =>
    obtain ⟨m,hm,hmn,hchild,hle,hmax⟩ := maxInd_spec (a := a) hj hn
    rw [sink, if_pos hj, hm, Option.bind_some]
    by_cases hne : m = j
    · rw [if_neg (not_not.mpr hne)]
      exact ⟨a,rfl,Rearranged.refl,h.heap fun c hc hcn hp => hne ▸ hmax c hc hcn hp⟩
    · rw [if_pos hne]
      obtain ⟨hpos,hp⟩ := hchild hne
      have hjm : j < m := hp ▸ parent_lt hpos
      obtain ⟨a₁,hswap,hr,hkey⟩ := swap_spec hj hmn hn
      have hsize := hr.size_eq
      obtain ⟨a₂,hsink,hr',hheap⟩ := ih (a := a₁) (hkey ▸ h.swap hpos hmn hp hmax hle) hmn (by omega) (by omega)
      exact ⟨a₂,by rw [hswap]; exact hsink,hr.trans hr',hheap⟩

/-- The elements from `i` on are in order, and none before them is above one of them. -/
structure Extracted (a : Array ℕ) (i : ℕ) : Prop where
  heap : Heap (key a) i
  sorted : ∀ k l, i ≤ k → k ≤ l → l < a.size → key a k ≤ key a l
  bound : ∀ k l, k < i → i ≤ l → l < a.size → key a k ≤ key a l

theorem extract_spec (h : Extracted a (i + 1)) (hi : i < a.size) : ∃ a', extract a i = some a' ∧
    a'.Perm a ∧ ∀ k l, k ≤ l → l < a.size → key a' k ≤ key a' l := by
  induction i generalizing a with
  | zero =>
    refine ⟨a,rfl,Array.Perm.refl a,fun k l hkl hl => ?_⟩
    rcases Nat.eq_zero_or_pos k with rfl | hpos
    · rcases Nat.eq_zero_or_pos l with rfl | hl0
      · exact le_rfl
      · exact h.bound 0 l (by omega) (by omega) hl
    · exact h.sorted k l (by omega) hkl hl
  | succ i ih =>
    obtain ⟨a₁,hswap,hr,hkey⟩ := swap_spec (a := a) (i := 0) (j := i + 1) (n := i + 2) (by omega) (by omega) hi
    have hsize := hr.size_eq
    have htop : key a₁ (i + 1) = key a 0 := by
      rw [hkey, Function.comp_apply, Equiv.swap_apply_right]
    have hdown : DownHole (key a₁) (i + 1) 0 := (h.heap.mono (Nat.le_succ _)).downHole fun k hk hlt => by
      rw [hkey, Function.comp_apply, Equiv.swap_apply_of_ne_of_ne (by omega) (by omega)]
    obtain ⟨a₂,hsink,hr',hheap⟩ := sink_spec (q := i + 2) hdown (by omega) (by omega) (by omega)
    have hsize' := hr'.size_eq
    have hall := hr.trans (hr'.mono (Nat.le_succ (i + 1)))
    have hnew : key a₂ (i + 1) = key a 0 := (hr'.above (i + 1) le_rfl).trans htop
    have hextracted : Extracted a₂ (i + 1) := by
      refine ⟨hheap,fun k l hk hkl hl => ?_,fun k l hk hl hlt => ?_⟩
      · rcases Nat.eq_or_lt_of_le hk with rfl | hk'
        · rcases Nat.eq_or_lt_of_le hkl with rfl | hkl'
          · exact le_rfl
          · rw [hnew, hall.above l hkl']
            exact h.bound 0 l (by omega) hkl' (by omega)
        · rw [hall.above k hk', hall.above l (by omega)]
          exact h.sorted k l hk' hkl (by omega)
      · obtain ⟨k',hk',heq⟩ := hall.below k (by omega)
        rw [heq]
        rcases Nat.eq_or_lt_of_le hl with rfl | hl'
        · rw [hnew]
          exact h.heap.le_top hk'
        · rw [hall.above l hl']
          exact h.bound k' l hk' hl' (by omega)
    obtain ⟨a₃,hext,hperm,hsorted⟩ := ih hextracted (by omega)
    refine ⟨a₃,?_,hperm.trans hall.perm,fun k l hkl hl => hsorted k l hkl (by omega)⟩
    rw [extract, hswap, Option.bind_some, hsink]
    exact hext

end SortArray

/-- The sort does not leave the array and ends with the same elements in their order. -/
theorem SortArray_sorts (a : Array ℕ) : ∃ a', SortArray a = some a' ∧ a'.Perm a ∧
    a'.toList.Pairwise (· ≤ ·) := by
  have hpairwise : ∀ {a : Array ℕ}, (∀ k l, k ≤ l → l < a.size → SortArray.key a k ≤ SortArray.key a l) →
      a.toList.Pairwise (· ≤ ·) := by
    intro a h
    refine List.pairwise_iff_getElem.mpr fun k l hk hl hkl => ?_
    have hle := h k l hkl.le (by simpa using hl)
    rw [Array.length_toList] at hk hl
    simpa [SortArray.key, hk, hl] using hle
  rw [SortArray]
  by_cases hsmall : a.size < 2
  · refine ⟨a,if_pos hsmall,Array.Perm.refl a,hpairwise fun k l hkl hl => ?_⟩
    rw [show k = l by omega]
  · rw [if_neg hsmall]
    have hone : Heap (SortArray.key a) 1 := fun c hc hlt => by omega
    obtain ⟨a₁,hbuild,hperm,hheap⟩ := SortArray.build_spec (q := a.size) hone (by omega) (by omega)
    have hsize := hperm.size_eq
    have hextracted : SortArray.Extracted a₁ (a.size - 1 + 1) := by
      rw [show a.size - 1 + 1 = a.size by omega]
      exact ⟨hheap,fun k l _ _ _ => by omega,fun k l _ _ _ => by omega⟩
    obtain ⟨a₂,hext,hperm',hsorted⟩ := SortArray.extract_spec hextracted (by omega)
    refine ⟨a₂,?_,hperm'.trans hperm,hpairwise fun k l hkl hl => hsorted k l hkl ?_⟩
    · rw [hbuild]
      exact hext
    · have hsize' := hperm'.size_eq
      omega

end CompilerRt.Sanitizer
