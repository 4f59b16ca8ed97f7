import CompilerRt.Sanitizer.LargeMmap
import Mathlib

/-! # The list of large blocks

The headers of the live blocks, and no others, are in the list; each block and its header are in a mapping of their own.
-/
namespace CompilerRt.Sanitizer
open DoublyLinked

/-- The block and the page of its header lie in the mapping of the block. -/
structure Block.Placed (b : Block) : Prop where
  header : b.map_beg + 4096 ≤ b.res
  fits : b.res + LargeMmap.pages b.size ≤ b.map_beg + b.map_size
  below : b.map_beg + b.map_size < 2^64
  page : b.res % 4096 = 0

def Block.Apart (b b' : Block) : Prop :=
  b.map_beg + b.map_size ≤ b'.map_beg ∨ b'.map_beg + b'.map_size ≤ b.map_beg

namespace LargeMmap

def nextOf (s : LargeMmap) (h : ℕ) : Option ℕ := (s.headers h).next
def prevOf (s : LargeMmap) (h : ℕ) : Option ℕ := (s.headers h).prev

/-- The header of each block. -/
def headerOf (b : Block) : ℕ := GetHeader b.res

structure Inv (s : LargeMmap) : Prop where
  links : Links s.nextOf s.prevOf none s.list_ (s.live.map headerOf)
  contents : ∀ b ∈ s.live, (s.headers (headerOf b)).map_beg = b.map_beg ∧
    (s.headers (headerOf b)).map_size = b.map_size ∧ (s.headers (headerOf b)).size = b.size
  placed : ∀ b ∈ s.live, b.Placed
  apart : s.live.Pairwise Block.Apart

variable {s s' : LargeMmap} {b b' : Block} {p h x size map_beg k : ℕ}

theorem headerOf_add (hb : b.Placed) : headerOf b + 4096 = b.res := by
  have hheader := hb.header
  rw [headerOf, GetHeader, kPageSize_eq]
  omega

theorem headerOf_ne (hb : b.Placed) (hb' : b'.Placed) (h : b.Apart b') : headerOf b ≠ headerOf b' := by
  obtain ⟨h1,h2,h3,-⟩ := hb
  obtain ⟨h1',h2',h3',-⟩ := hb'
  rw [headerOf, headerOf, GetHeader, GetHeader, kPageSize_eq]
  rcases h with h | h <;> omega

theorem Inv.nodup (h : s.Inv) : (s.live.map headerOf).Nodup := by
  rw [List.Nodup, List.pairwise_map]
  exact h.apart.imp_of_mem fun hb hb' hapart => headerOf_ne (h.placed _ hb) (h.placed _ hb') hapart

theorem init_inv : Init.Inv where
  links := rfl
  contents := fun _ h => absurd h List.not_mem_nil
  placed := fun _ h => absurd h List.not_mem_nil
  apart := List.Pairwise.nil

/-! ## Insertion -/

theorem setNext_apply (headers : ℕ → Header) (q v : Option ℕ) (x : ℕ) :
    setNext headers q v x = { headers x with next := if q = some x then v else (headers x).next } := by
  cases q with
  | none => rfl
  | some l =>
    rw [setNext]
    by_cases hx : x = l
    · rw [hx, Function.update_self, if_pos rfl]
    · rw [Function.update_of_ne hx, if_neg fun heq => hx (Option.some.inj heq).symm]

theorem setPrev_apply (headers : ℕ → Header) (q v : Option ℕ) (x : ℕ) :
    setPrev headers q v x = { headers x with prev := if q = some x then v else (headers x).prev } := by
  cases q with
  | none => rfl
  | some l =>
    rw [setPrev]
    by_cases hx : x = l
    · rw [hx, Function.update_self, if_pos rfl]
    · rw [Function.update_of_ne hx, if_neg fun heq => hx (Option.some.inj heq).symm]

theorem headers_insert (hne : s.list_ ≠ some (headerOf b)) (x : ℕ) : (s.insert b).headers x =
    if x = headerOf b then ⟨b.map_beg,b.map_size,b.size,s.list_,none⟩
    else { s.headers x with prev := if s.list_ = some x then some (headerOf b) else s.prevOf x } := by
  have hset := setPrev_apply (Function.update s.headers (headerOf b) ⟨b.map_beg,b.map_size,b.size,s.list_,none⟩)
    s.list_ (some (headerOf b)) x
  refine hset.trans ?_
  by_cases hx : x = headerOf b
  · rw [if_pos hx, hx, if_neg hne, Function.update_self]
  · rw [if_neg hx, Function.update_of_ne hx]
    rfl

/-- A block whose mapping is apart from those of the others is put to the front. -/
theorem insert_inv (h : s.Inv) (hb : b.Placed) (hapart : ∀ b' ∈ s.live, b.Apart b') : (s.insert b).Inv := by
  have hnew : headerOf b ∉ s.live.map headerOf := by
    intro hmem
    obtain ⟨b',hb',heq⟩ := List.mem_map.mp hmem
    exact headerOf_ne hb (h.placed b' hb') (hapart b' hb') heq.symm
  have hhead : s.list_ = (s.live.map headerOf).head? := h.links.head
  have hne : s.list_ ≠ some (headerOf b) := by
    rw [hhead]
    exact fun heq => hnew (List.mem_of_mem_head? heq)
  have hheaders := headers_insert hne
  refine ⟨?_,?_,?_,?_⟩
  · have hlist : (s.insert b).list_ = some (headerOf b) := rfl
    rw [hlist]
    refine h.links.push hnew h.nodup ?_ ?_ ?_ ?_ ?_
    · rw [nextOf, hheaders, if_pos rfl]
    · rw [prevOf, hheaders, if_pos rfl]
    · intro x hx
      have hxne : x ≠ headerOf b := fun heq => hnew (heq ▸ List.mem_of_mem_head? hx)
      rw [prevOf, hheaders, if_neg hxne, hhead]
      exact if_pos hx
    · intro x hx
      have hxne : x ≠ headerOf b := fun heq => hnew (heq ▸ hx)
      rw [nextOf, hheaders, if_neg hxne]
      rfl
    · intro x hx hfirst
      have hxne : x ≠ headerOf b := fun heq => hnew (heq ▸ hx)
      rw [prevOf, hheaders, if_neg hxne, hhead]
      exact if_neg hfirst
  · intro b' hb'
    rcases List.mem_cons.mp hb' with rfl | hb'
    · rw [hheaders, if_pos rfl]
      exact ⟨rfl,rfl,rfl⟩
    · have hxne : headerOf b' ≠ headerOf b := fun heq => hnew (heq ▸ List.mem_map_of_mem hb')
      rw [hheaders, if_neg hxne]
      exact h.contents b' hb'
  · intro b' hb'
    rcases List.mem_cons.mp hb' with rfl | hb'
    · exact hb
    · exact h.placed b' hb'
  · exact List.pairwise_cons.mpr ⟨hapart,h.apart⟩

/-! ## Removal -/

theorem headers_Deallocate (s : LargeMmap) (p x : ℕ) : (s.Deallocate p).2.headers x =
    { s.headers x with
      next := if s.prevOf (GetHeader p) = some x then s.nextOf (GetHeader p) else s.nextOf x
      prev := if s.nextOf (GetHeader p) = some x then s.prevOf (GetHeader p) else s.prevOf x } := by
  rw [Deallocate]
  dsimp only
  rw [setPrev_apply, setNext_apply]
  rfl

/-- The list without a block that it had. -/
theorem filter_ne {l₁ l₂ : List Block} (hlive : s.live = l₁ ++ b :: l₂) (h : s.Inv) :
    (s.live.filter fun b' => b'.res ≠ b.res) = l₁ ++ l₂ := by
  have hn := h.nodup
  rw [hlive, List.map_append, List.map_cons, List.nodup_append] at hn
  have hkeep : ∀ b' ∈ l₁ ++ l₂, decide (b'.res ≠ b.res) = true := by
    intro b' hb'
    have hne : headerOf b' ≠ headerOf b := by
      rcases List.mem_append.mp hb' with hb' | hb'
      · exact hn.2.2 _ (List.mem_map_of_mem hb') _ List.mem_cons_self
      · intro heq
        exact (List.nodup_cons.mp hn.2.1).1 (heq ▸ List.mem_map_of_mem hb')
    rw [decide_eq_true_iff]
    exact fun heq => hne (by rw [headerOf, headerOf, heq])
  have hout : decide (b.res ≠ b.res) = false := decide_eq_false (not_not_intro rfl)
  rw [hlive, List.filter_append, List.filter_cons, hout, if_neg Bool.false_ne_true, ← List.filter_append]
  exact List.filter_eq_self.mpr hkeep

theorem Deallocate_inv (h : s.Inv) (hb : b ∈ s.live) : (s.Deallocate b.res).2.Inv ∧
    (s.Deallocate b.res).1 = (b.map_beg,b.map_size) ∧ (s.Deallocate b.res).2.live = s.live.erase b := by
  obtain ⟨l₁,l₂,hlive⟩ := List.append_of_mem hb
  have hheaders := headers_Deallocate s b.res
  have hmem : ∀ b' ∈ l₁ ++ l₂, b' ∈ s.live := by
    intro b' hb'
    rw [hlive, List.mem_append, List.mem_cons]
    rcases List.mem_append.mp hb' with hb' | hb'
    · exact .inl hb'
    · exact .inr (.inr hb')
  have hn := h.nodup
  have hnb : s.live.Nodup := hn.of_map headerOf
  have hrest : (s.Deallocate b.res).2.live = l₁ ++ l₂ := filter_ne hlive h
  refine ⟨⟨?_,?_,?_,?_⟩,?_,?_⟩
  · have hlinks := h.links
    rw [hlive, List.map_append, List.map_cons] at hlinks hn
    rw [hrest, List.map_append]
    refine hlinks.remove hn (fun x hx => absurd hx.symm (Option.some_ne_none x)) (fun x _ => ?_) fun x _ => ?_
    · rw [nextOf, hheaders]
      rfl
    · rw [prevOf, hheaders]
      rfl
  · intro b' hb'
    rw [hrest] at hb'
    rw [hheaders]
    exact h.contents b' (hmem b' hb')
  · intro b' hb'
    rw [hrest] at hb'
    exact h.placed b' (hmem b' hb')
  · rw [hrest]
    refine h.apart.sublist ?_
    rw [hlive]
    exact (List.sublist_cons_self b l₂).append_left l₁
  · have hfields : (s.Deallocate b.res).1 =
        (((s.Deallocate b.res).2.headers (headerOf b)).map_beg,((s.Deallocate b.res).2.headers (headerOf b)).map_size) := rfl
    obtain ⟨hbeg,hsize,-⟩ := h.contents b hb
    rw [hfields, hheaders, ← hbeg, ← hsize]
  · rw [hlive, List.nodup_append] at hnb
    have hnot : b ∉ l₁ := fun hmem => hnb.2.2 b hmem b List.mem_cons_self rfl
    rw [hrest, hlive, List.erase_append_right _ hnot, List.erase_cons_head]

/-! ## Lookup -/

/-- The loop finds the first header of the list that passes the test. -/
theorem find_eq {p : Option ℕ} {before : Option ℕ} {hs : List ℕ} (h : Links s.nextOf s.prevOf before p hs)
    (test : ℕ → Bool) {fuel : ℕ} (hfuel : hs.length < fuel) : s.find test fuel p = some (hs.find? test) := by
  induction hs generalizing before p fuel with
  | nil =>
    cases fuel with
    | zero => exact absurd hfuel (Nat.not_lt_zero _)
    | succ fuel =>
      have hp : p = none := h
      rw [hp]
      rfl
  | cons l hs ih =>
    cases fuel with
    | zero => exact absurd hfuel (Nat.not_lt_zero _)
    | succ fuel =>
      obtain ⟨hp,-,htail⟩ := h
      rw [hp, find, List.find?_cons]
      cases test l with
      | true => rfl
      | false => exact ih htail (Nat.lt_of_succ_lt_succ hfuel)

/-- The address is in the block. -/
def In (p : ℕ) (b : Block) : Prop := b.res ≤ p ∧ p < b.res + b.size

/-- The test of the loop. -/
def holds (p : ℕ) (b : Block) : Bool := b.res ≤ p && p < b.res + b.size

theorem holds_iff : holds p b = true ↔ In p b := by
  rw [holds, Bool.and_eq_true, decide_eq_true_iff, decide_eq_true_iff, In]

instance : Std.Symm Block.Apart := ⟨fun _ _ h => h.symm⟩

/-- An address is in one block at most. -/
theorem eq_of_in (h : s.Inv) (hb : b ∈ s.live) (hb' : b' ∈ s.live) (hp : In p b) (hp' : In p b') : b = b' := by
  by_contra hne
  obtain ⟨h1,h2,-,-⟩ := h.placed b hb
  obtain ⟨h1',h2',-,-⟩ := h.placed b' hb'
  have hle := le_pages b.size
  have hle' := le_pages b'.size
  rw [In] at hp hp'
  rcases h.apart.forall hb hb' hne with hapart | hapart <;> omega

/-- The loop sees the blocks in their order. -/
theorem GetBlockBegin_eq (h : s.Inv) {fuel : ℕ} (hfuel : s.live.length < fuel) (p : ℕ) :
    s.GetBlockBegin fuel p = some (((s.live.find? (holds p)).map Block.res).getD 0) := by
  have hlength : (s.live.map headerOf).length < fuel := by rwa [List.length_map]
  rw [GetBlockBegin, find_eq h.links _ hlength, List.find?_map, Option.map_some]
  have htest : s.live.find? ((fun l => GetUser l ≤ p && p < GetUser l + (s.headers l).size) ∘ headerOf) =
      s.live.find? (holds p) := by
    refine List.find?_congr fun b hb => ?_
    have huser : GetUser (headerOf b) = b.res := headerOf_add (h.placed b hb)
    rw [Function.comp_apply, huser, (h.contents b hb).2.2, holds]
  rw [htest]
  cases hfind : s.live.find? (holds p) with
  | none => rfl
  | some b =>
    have huser : GetUser (headerOf b) = b.res := headerOf_add (h.placed b (List.mem_of_find?_eq_some hfind))
    exact congrArg some huser

theorem GetBlockBegin_in (h : s.Inv) (hb : b ∈ s.live) (hp : In p b) {fuel : ℕ} (hfuel : s.live.length < fuel) :
    s.GetBlockBegin fuel p = some b.res := by
  rw [GetBlockBegin_eq h hfuel]
  cases hfind : s.live.find? (holds p) with
  | none => exact absurd (holds_iff.mpr hp) (List.find?_eq_none.mp hfind b hb)
  | some b' =>
    have hp' : In p b' := holds_iff.mp (List.find?_some hfind)
    rw [eq_of_in h hb (List.mem_of_find?_eq_some hfind) hp hp']
    rfl

theorem GetBlockBegin_out (h : s.Inv) (hp : ∀ b ∈ s.live, ¬In p b) {fuel : ℕ} (hfuel : s.live.length < fuel) :
    s.GetBlockBegin fuel p = some 0 := by
  have hfind : s.live.find? (holds p) = none := by
    rw [List.find?_eq_none]
    exact fun b hb htest => hp b hb (holds_iff.mp htest)
  rw [GetBlockBegin_eq h hfuel, hfind]
  rfl

/-! ## Allocation -/

/-- A size that is too large once it is rounded. -/
theorem Allocate_overflow (s : LargeMmap) (hsize : size < 2^64) (hk : k < 64) (hover : 2^64 ≤ needed size (2^k)) :
    s.Allocate map_beg size (2^k) = some (0,s) := by
  obtain ⟨hmap,hless⟩ := mapSize_eq hsize hk
  rw [Allocate, if_pos (isPowerOfTwo_pow hk), hmap, Option.bind_some, if_pos (hless.mpr hover)]

/-- The block that is allocated in a new mapping. -/
def newBlock (map_beg size alignment : ℕ) : Block :=
  ⟨blockBegin map_beg alignment,size,map_beg,needed size alignment⟩

theorem Asked.fresh (h : s.Asked map_beg size (2^k)) (hk : k < 64) (hfit : needed size (2^k) < 2^64) :
    s.Fresh map_beg (needed size (2^k)) := by
  obtain ⟨hmap,hless⟩ := mapSize_eq h.1 hk
  rw [Nat.mod_eq_of_lt hfit] at hmap hless
  exact h.2.2 _ hmap (not_lt.mp fun hlt => absurd (hless.mp hlt) (not_le.mpr hfit))

theorem newBlock_placed (h : s.Fresh map_beg (needed size (2^k))) (hk : k < 64) :
    (newBlock map_beg size (2^k)).Placed ∧ ∀ b ∈ s.live, (newBlock map_beg size (2^k)).Apart b := by
  obtain ⟨hpage,-,hend,hapart⟩ := h
  obtain ⟨-,hheader,hfits,haligned⟩ := blockBegin_eq hk hpage hend
  exact ⟨⟨hheader,hfits,hend,haligned⟩,hapart⟩

/-- No check fails, and the block is aligned. -/
theorem Allocate_fresh (h : s.Fresh map_beg (needed size (2^k))) (hsize : size < 2^64) (hk : k < 64) :
    s.Allocate map_beg size (2^k) =
      some ((newBlock map_beg size (2^k)).res,s.insert (newBlock map_beg size (2^k))) ∧
    (newBlock map_beg size (2^k)).res % 2^k = 0 := by
  obtain ⟨hpage,-,hend,-⟩ := h
  obtain ⟨hmod,hheader,hfits,-⟩ := blockBegin_eq hk hpage hend
  obtain ⟨hmap,hless⟩ := mapSize_eq hsize hk
  have hfit : needed size (2^k) % 2^64 = needed size (2^k) := Nat.mod_eq_of_lt (by omega)
  have hle : ¬needed size (2^k) < size := by omega
  have hmap_end : (map_beg + needed size (2^k)) % 2^64 = map_beg + needed size (2^k) := Nat.mod_eq_of_lt hend
  have hpages := le_pages size
  have hblock_end : (blockBegin map_beg (2^k) + size) % 2^64 = blockBegin map_beg (2^k) + size :=
    Nat.mod_eq_of_lt (by omega)
  refine ⟨?_,hmod⟩
  rw [Allocate, if_pos (isPowerOfTwo_pow hk), hmap, Option.bind_some, hfit, if_neg hle]
  dsimp only
  rw [hmap_end, hblock_end, and_mask_pow hk, if_pos ⟨hmod,by omega⟩]
  rfl

/-! ## Runs -/

theorem step_inv {o : Op} (h : s.Inv) (hs : s.step o = some s') : s'.Inv := by
  cases o with
  | Allocate map_beg size alignment =>
    rw [step, Option.ite_none_right_eq_some] at hs
    obtain ⟨hasked,hs⟩ := hs
    obtain ⟨k,hk,rfl⟩ := hasked.2.1
    by_cases hfit : needed size (2^k) < 2^64
    · have hfresh := hasked.fresh hk hfit
      obtain ⟨hplaced,hapart⟩ := newBlock_placed hfresh hk
      rw [(Allocate_fresh hfresh hasked.1 hk).1] at hs
      cases hs
      exact insert_inv h hplaced hapart
    · rw [Allocate_overflow s hasked.1 hk (not_lt.mp hfit)] at hs
      cases hs
      exact h
  | Deallocate p =>
    rw [step, Option.ite_none_right_eq_some, List.mem_map] at hs
    obtain ⟨⟨b,hb,rfl⟩,hs⟩ := hs
    cases hs
    exact (Deallocate_inv h hb).1

/-- What holds of the list, the blocks and the operations. -/
structure Sound (s : LargeMmap) : Prop where
  linked : Links s.nextOf s.prevOf none s.list_ (s.live.map headerOf) ∧ (s.live.map headerOf).Nodup
  inside : ∀ b ∈ s.live, b.map_beg ≤ headerOf b ∧ headerOf b + kPageSize = b.res ∧
    b.res + b.size ≤ b.map_beg + b.map_size
  apart : s.live.Pairwise Block.Apart
  found : ∀ b ∈ s.live, ∀ p, In p b → ∀ fuel, s.live.length < fuel → s.GetBlockBegin fuel p = some b.res
  not_found : ∀ p, (∀ b ∈ s.live, ¬In p b) → ∀ fuel, s.live.length < fuel → s.GetBlockBegin fuel p = some 0
  unmapped : ∀ b ∈ s.live, (s.Deallocate b.res).1 = (b.map_beg,b.map_size) ∧
    (s.Deallocate b.res).2.live = s.live.erase b
  served : ∀ map_beg size k, k < 64 → needed size (2^k) < 2^64 → s.Asked map_beg size (2^k) →
    ∃ b s', s.Allocate map_beg size (2^k) = some (b.res,s') ∧ s'.live = b :: s.live ∧ b.size = size ∧
      b.map_beg = map_beg ∧ mapSize size (2^k) = some b.map_size ∧ b.res % 2^k = 0
  overflow : ∀ map_beg size k, size < 2^64 → k < 64 → 2^64 ≤ needed size (2^k) →
    s.Allocate map_beg size (2^k) = some (0,s)

theorem Inv.sound (h : s.Inv) : s.Sound where
  linked := ⟨h.links,h.nodup⟩
  inside := fun b hb => by
    have hadd := headerOf_add (h.placed b hb)
    have hheader := (h.placed b hb).header
    exact ⟨by omega,hadd,(Nat.add_le_add_left (le_pages b.size) _).trans (h.placed b hb).fits⟩
  apart := h.apart
  found := fun _ hb _ hp _ hfuel => GetBlockBegin_in h hb hp hfuel
  not_found := fun _ hp _ hfuel => GetBlockBegin_out h hp hfuel
  unmapped := fun _ hb => (Deallocate_inv h hb).2
  served := fun map_beg size k hk hfit hasked => by
    obtain ⟨hresult,hmod⟩ := Allocate_fresh (hasked.fresh hk hfit) hasked.1 hk
    refine ⟨newBlock map_beg size (2^k),_,hresult,rfl,rfl,rfl,?_,hmod⟩
    rw [(mapSize_eq hasked.1 hk).1, Nat.mod_eq_of_lt hfit]
    rfl
  overflow := fun _ _ _ hsize hk hover => Allocate_overflow s hsize hk hover

/-- In every state of every run the list, the lookup and the mappings are right. -/
theorem large_blocks (ops : List Op) : Transition.AllStates step Sound Init ops :=
  Transition.allStates_of_inv (fun _ _ _ h _ hs => step_inv h hs) (fun _ h => h.sound) init_inv
    (Transition.AllSteps.of_forall (Q := fun _ _ => True) fun _ _ => trivial)

end LargeMmap
end CompilerRt.Sanitizer
