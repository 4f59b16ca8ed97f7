import CompilerRt.Asan.ChunkLists
import Mathlib

/-! # The group of an address

`FindPageGroupUnlocked` sorts the groups where some are new, and searches the first one that does not end below the
address.
-/
namespace CompilerRt.AsanAllocator
open Sanitizer AsanMapping

variable {flags : Flags} {s s' : MallocInfo} {L : Layout} {g g' : Group} {addr beg last n fuel : ℕ} {l : List ℕ}

/-- The groups up to the number that is stored are sorted where these are all. -/
def Indexed (s : MallocInfo) : Prop :=
  s.n_sorted_page_groups_ ≤ s.page_groups_.length ∧
    (s.n_sorted_page_groups_ = s.page_groups_.length → s.page_groups_.Pairwise (· ≤ ·))

theorem sortArray_perm (l : List ℕ) : ∃ a, SortArray l.toArray = some a ∧ a.toList.Perm l ∧
    ∀ i j, i ≤ j → j < l.length → a.toList.getD i 0 ≤ a.toList.getD j 0 := by
  rw [SortArray]
  by_cases hsmall : l.toArray.size < 2
  · refine ⟨l.toArray,if_pos hsmall,List.Perm.refl l,fun i j hij hj => ?_⟩
    have hsize : l.toArray.size = l.length := rfl
    rw [show i = j by omega]
  · rw [if_neg hsmall]
    have hone : ArrayHeap.Heap (SortArray.key l.toArray) 1 := fun c hc hlt => by omega
    obtain ⟨a₁,hbuild,hperm,hheap⟩ := SortArray.build_spec (q := l.toArray.size) hone (by omega) (by omega)
    have hsize := hperm.size_eq
    have hextracted : SortArray.Extracted a₁ (l.toArray.size - 1 + 1) := by
      rw [Nat.sub_add_cancel (by omega)]
      exact ⟨hsize ▸ hheap,fun i j _ _ _ => by omega,fun i j _ _ _ => by omega⟩
    obtain ⟨a₂,hext,hperm',hsorted⟩ := SortArray.extract_spec hextracted (by omega)
    refine ⟨a₂,hbuild ▸ hext,(Array.perm_iff_toList_perm.mp (hperm'.trans hperm)),fun i j hij hj => ?_⟩
    have hkey := hsorted i j hij (by have hsize' : l.toArray.size = l.length := rfl; omega)
    simpa [SortArray.key] using hkey

/-- The groups below are before the address, and those from the end on are not. -/
structure Searched (l : List ℕ) (addr beg last : ℕ) : Prop where
  le : beg ≤ last
  le_length : last ≤ l.length
  below : ∀ i < beg, l.getD i 0 < addr
  above : ∀ i, last ≤ i → i < l.length → addr ≤ l.getD i 0

theorem search_spec (fuel : ℕ) (hsorted : ∀ i j, i ≤ j → j < l.length → l.getD i 0 ≤ l.getD j 0) (h : Searched l addr beg last)
    (hfuel : last - beg ≤ fuel) :
    Searched l addr (MallocInfo.search l addr fuel beg last) (MallocInfo.search l addr fuel beg last) := by
  have hstop : last ≤ beg → Searched l addr beg beg := by
    intro hle
    have heq : last = beg := le_antisymm hle h.le
    subst heq
    exact h
  induction fuel generalizing beg last with
  | zero => exact hstop (by omega)
  | succ fuel ih =>
    have hle := h.le
    have hlen := h.le_length
    rw [MallocInfo.search]
    split_ifs with hlt
    · dsimp only
      split_ifs with hgt
      · have hstep : Searched l addr ((beg + last) / 2 + 1) last := by
          refine ⟨by omega,hlen,fun i hi => ?_,h.above⟩
          exact (hsorted i ((beg + last) / 2) (by omega) (by omega)).trans_lt hgt
        exact ih hstep (by omega) fun hle' => le_antisymm hle' hstep.le ▸ hstep
      · have hstep : Searched l addr beg ((beg + last) / 2) := by
          refine ⟨by omega,by omega,h.below,fun i hi hilt => ?_⟩
          exact (not_lt.mp hgt).trans (hsorted ((beg + last) / 2) i hi hilt)
        refine ih hstep (by omega) fun hle' => ?_
        have heq : (beg + last) / 2 = beg := le_antisymm hle' hstep.le
        rwa [heq] at hstep
    · exact hstop (not_lt.mp hlt)

/-- The address is in the group, or at the structure behind its chunks. -/
def Group.Finds (g : Group) (addr : ℕ) : Prop := g.beg ≤ addr ∧ addr ≤ g.pg

/-- Only the groups have another order. -/
structure Resorted (s s' : MallocInfo) : Prop where
  rest : s' = { s with page_groups_ := s'.page_groups_, n_sorted_page_groups_ := s'.n_sorted_page_groups_ }
  perm : s'.page_groups_.Perm s.page_groups_
  indexed : Indexed s'

namespace Resorted

theorem memory (h : Resorted s s') : s'.memory = s.memory := by rw [h.rest]

theorem shadow (h : Resorted s s') : s'.shadow = s.shadow := by rw [h.rest]

theorem threads (h : Resorted s s') : s'.threads = s.threads := by rw [h.rest]

theorem core (h : Resorted s s') (hc : Core flags s L) : Core flags s' L := by
  rw [h.rest]
  exact ⟨h.perm.trans hc.pages,hc.used,hc.mapped,hc.page,hc.tail,hc.apart,hc.spread,hc.chunk⟩

theorem lists (h : Resorted s s') (hl : Lists s L) : Lists s' L := by
  rw [h.rest]
  intro p
  refine (hl p).congr ?_ (fun _ _ => rfl) fun _ _ => rfl
  cases p with
  | free c => rfl
  | cached t c => exact fun x hx => ⟨x,hx,rfl⟩
  | waiting t => exact fun x hx => ⟨x,hx,rfl⟩
  | quarantine => rfl
  | taken => trivial
  | user => trivial

end Resorted

/-- What the search has found. -/
structure FoundGroup (s s' : MallocInfo) (L : Layout) (addr r : ℕ) : Prop where
  resorted : Resorted s s'
  found : ∀ g ∈ L.groups, g.Finds addr → r = g.pg
  none : (∀ g ∈ L.groups, ¬g.Finds addr) → r = 0

theorem Core.finds_unique (h : Core flags s L) (hg : g ∈ L.groups) (hg' : g' ∈ L.groups) (hf : g.Finds addr)
    (hf' : g'.Finds addr) : g = g' := by
  by_contra hne
  have hp := h.page_le hg
  have hp' := h.page_le hg'
  obtain ⟨h1,h2⟩ := hf
  obtain ⟨h3,h4⟩ := hf'
  rcases h.groups_apart hg hg' hne with hle | hle
  · omega
  · omega

theorem sortPageGroups_ok (hi : Indexed s) : ∃ l, s.sortPageGroups =
      .ok { s with page_groups_ := l, n_sorted_page_groups_ := s.page_groups_.length } ∧
    l.Perm s.page_groups_ ∧ ∀ i j, i ≤ j → j < l.length → l.getD i 0 ≤ l.getD j 0 := by
  rw [MallocInfo.sortPageGroups]
  split_ifs with hlt
  · obtain ⟨a,ha,hperm,hsorted⟩ := sortArray_perm s.page_groups_
    refine ⟨a.toList,?_,hperm,fun i j hij hj => hsorted i j hij (hperm.length_eq ▸ hj)⟩
    rw [ha]
    rfl
  · have heq : s.n_sorted_page_groups_ = s.page_groups_.length := le_antisymm hi.1 (not_lt.mp hlt)
    refine ⟨s.page_groups_,?_,List.Perm.refl _,fun i j hij hj => ?_⟩
    · rw [← heq]
      rfl
    · have hpair := hi.2 heq
      rw [List.getD_eq_getElem _ _ hj, List.getD_eq_getElem _ _ (hij.trans_lt hj)]
      rcases Nat.lt_or_eq_of_le hij with hlt' | rfl
      · exact List.pairwise_iff_getElem.mp hpair i j (hij.trans_lt hj) hj hlt'
      · exact le_rfl

theorem findPageGroup_ok (h : Core flags s L) (hi : Indexed s) (addr : ℕ) :
    ∃ r s', s.FindPageGroupUnlocked addr = .ok (r,s') ∧ FoundGroup s s' L addr r := by
  obtain ⟨l,hstate,hperm,hsorted⟩ := sortPageGroups_ok hi
  have hlen := hperm.length_eq
  have hindexed : Indexed { s with page_groups_ := l, n_sorted_page_groups_ := s.page_groups_.length } := by
    refine ⟨hlen.ge,fun _ => List.pairwise_iff_getElem.mpr fun i j hi hj hij => ?_⟩
    have hle := hsorted i j hij.le hj
    rwa [List.getD_eq_getElem _ _ hj, List.getD_eq_getElem _ _ hi] at hle
  have hpages : ∀ x, x ∈ l ↔ ∃ g ∈ L.groups, g.pg = x := by
    intro x
    rw [(hperm.trans h.pages).mem_iff, List.mem_map]
  have hsearch := search_spec l.length hsorted
    (⟨Nat.zero_le _,le_rfl,fun i hi => absurd hi (Nat.not_lt_zero i),fun i hi hlt => absurd hlt (not_lt.mpr hi)⟩ :
      Searched l addr 0 l.length) (Nat.sub_le _ _)
  rw [MallocInfo.FindPageGroupUnlocked, hstate, ok_bind]
  dsimp only
  generalize MallocInfo.search l addr l.length 0 l.length = r at hsearch
  have hbelow : ∀ g ∈ L.groups, ∃ i < l.length, l.getD i 0 = g.pg := by
    intro g hg
    obtain ⟨i,hi,heq⟩ := List.mem_iff_getElem.mp ((hpages g.pg).mpr ⟨g,hg,rfl⟩)
    exact ⟨i,hi,(List.getD_eq_getElem _ _ hi).trans heq⟩
  by_cases hnone : r ≥ l.length
  · rw [if_pos hnone]
    refine ⟨0,_,rfl,⟨rfl,hperm,hindexed⟩,fun g hg hf => ?_,fun _ => rfl⟩
    obtain ⟨i,hi,heq⟩ := hbelow g hg
    have hlt := hsearch.below i (by omega)
    exact absurd (heq ▸ hlt) (not_lt.mpr hf.2)
  · have hr : r < l.length := not_le.mp hnone
    obtain ⟨g,hg,hpg⟩ := (hpages (l.getD r 0)).mp (by
      rw [List.getD_eq_getElem _ _ hr]
      exact List.getElem_mem hr)
    have hp := h.page_le hg
    have hbeg := (h.mapped g hg).1
    have hge : addr ≤ g.pg := hpg ▸ hsearch.above r le_rfl hr
    have hfirst : ∀ g' ∈ L.groups, addr ≤ g'.pg → g.pg ≤ g'.pg := by
      intro g' hg' hle
      obtain ⟨i,hi,heq⟩ := hbelow g' hg'
      rw [← heq] at hle ⊢
      rw [hpg]
      refine hsorted r i ?_ hi
      by_contra hlt
      exact absurd (hsearch.below i (not_le.mp hlt)) (not_lt.mpr hle)
    rw [if_neg hnone, ← hpg, CHECK_of (by omega), ok_bind, h.page g hg]
    have hin : PageGroup.InRange g.page addr = true ↔ g.Finds addr := by
      have hlt : addr < g.end_ := by omega
      simp [PageGroup.InRange, Group.page, Group.Finds, hge, hlt]
    refine ⟨_,_,rfl,⟨rfl,hperm,hindexed⟩,fun g' hg' hf => ?_,fun hno => if_neg fun hyes => hno g hg (hin.mp hyes)⟩
    have heq : g = g' := by
      by_contra hne
      have hle := hfirst g' hg' hf.2
      have hp' := h.page_le hg'
      rcases h.groups_apart hg hg' hne with hap | hap
      · have hf1 := hf.1
        omega
      · omega
    subst heq
    exact if_pos (hin.mpr hf)

end CompilerRt.AsanAllocator
