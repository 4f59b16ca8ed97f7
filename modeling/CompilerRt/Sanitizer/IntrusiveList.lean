import CompilerRt.Lib.LinkedQueue
import CompilerRt.Lib.Transition
import Mathlib

/-! # Intrusive lists

`lib/sanitizer_common/sanitizer_list.h`. The links are in the items, so all lists share one memory; a list stands for
the sequence of its items.
-/
namespace CompilerRt.Sanitizer
open LinkedQueue

structure IntrusiveList (α : Type*) where
  size_ : ℕ
  first_ : Option α
  last_ : Option α

namespace IntrusiveList
variable {α : Type*}

/-- `clear()` of a list. -/
def zero : IntrusiveList α := ⟨0,none,none⟩

def empty (l : IntrusiveList α) : Bool := l.size_ == 0

/-- The loop of `CheckConsistency` up to the last item: the count, or none where a null pointer is followed. -/
def countTo (next : α → Option α) [DecidableEq α] (last_ : Option α) : ℕ → Option α → Option ℕ
  | 0, _ => none
  | fuel + 1, i =>
    if i = last_ then some 1
    else i.bind fun x => (countTo next last_ fuel (next x)).map Nat.succ

def CheckConsistency [DecidableEq α] (next : α → Option α) (l : IntrusiveList α) : Prop :=
  if l.size_ = 0 then l.first_ = none ∧ l.last_ = none
  else (∃ fuel, countTo next l.last_ fuel l.first_ = some l.size_) ∧ ∃ x, l.last_ = some x ∧ next x = none

end IntrusiveList

/-- The links of all items, and the lists. -/
structure Lists (L α : Type*) where
  next : α → Option α
  list : L → IntrusiveList α

inductive ListOp (L α : Type*) where
  | push_back (l : L) (x : α)
  | push_front (l : L) (x : α)
  | pop_front (l : L)
  | append_front (this l : L)
  | append_back (this l : L)
  | clear (l : L)

namespace Lists
variable {L α : Type*} [DecidableEq L] [DecidableEq α] (s : Lists L α)

def set (l : L) (v : IntrusiveList α) : Lists L α := { s with list := Function.update s.list l v }

/-- `x->next = y`. -/
def link (x : α) (y : Option α) : Lists L α := { s with next := Function.update s.next x y }

def push_back (l : L) (x : α) : Option (Lists L α) :=
  if (s.list l).empty then some ((s.link x none).set l ⟨1,some x,some x⟩)
  else (s.list l).last_.map fun last =>
    ((s.link x none).link last (some x)).set l ⟨(s.list l).size_ + 1,(s.list l).first_,some x⟩

def push_front (l : L) (x : α) : Option (Lists L α) :=
  if (s.list l).empty then some ((s.link x none).set l ⟨1,some x,some x⟩)
  else some ((s.link x (s.list l).first_).set l ⟨(s.list l).size_ + 1,some x,(s.list l).last_⟩)

def pop_front (l : L) : Option (Lists L α) :=
  if (s.list l).empty then none
  else (s.list l).first_.map fun first =>
    s.set l ⟨(s.list l).size_ - 1,s.next first,if s.next first = none then none else (s.list l).last_⟩

def append_front (this l : L) : Option (Lists L α) :=
  if this = l then none
  else if (s.list this).empty then some ((s.set this (s.list l)).set l .zero)
  else if !(s.list l).empty then (s.list l).last_.map fun last =>
    ((s.link last (s.list this).first_).set this ⟨(s.list this).size_ + (s.list l).size_,(s.list l).first_,
      (s.list this).last_⟩).set l .zero
  else some (s.set l .zero)

def append_back (this l : L) : Option (Lists L α) :=
  if this = l then none
  else if (s.list this).empty then some ((s.set this (s.list l)).set l .zero)
  else (s.list this).last_.map fun last =>
    ((s.link last (s.list l).first_).set this ⟨(s.list this).size_ + (s.list l).size_,(s.list this).first_,
      (s.list l).last_⟩).set l .zero

def exec : ListOp L α → Option (Lists L α)
  | .push_back l x => s.push_back l x
  | .push_front l x => s.push_front l x
  | .pop_front l => s.pop_front l
  | .append_front this l => s.append_front this l
  | .append_back this l => s.append_back this l
  | .clear l => some (s.set l .zero)

end Lists

/-! ## Sequences -/

namespace ListOp
variable {L α : Type*} [DecidableEq L]

/-- The operation on the sequences that the lists stand for. -/
def denote (a : L → List α) : ListOp L α → L → List α
  | push_back l x => Function.update a l (a l ++ [x])
  | push_front l x => Function.update a l (x :: a l)
  | pop_front l => Function.update a l (a l).tail
  | append_front this l => Function.update (Function.update a this (a l ++ a this)) l []
  | append_back this l => Function.update (Function.update a this (a this ++ a l)) l []
  | clear l => Function.update a l []

/-- What the caller owes: a new item is in no list, a list that is popped has an item, and no list is appended to
itself. -/
def Allowed (a : L → List α) : ListOp L α → Prop
  | push_back _ x | push_front _ x => ∀ l, x ∉ a l
  | pop_front l => a l ≠ []
  | append_front this l | append_back this l => this ≠ l
  | clear _ => True

/-- All but the append of an empty list behind one that is not empty. -/
def Keeps (a : L → List α) : ListOp L α → Prop
  | append_back this l => a this = [] ∨ a l ≠ []
  | _ => True

end ListOp

/-- The list stands for the sequence. -/
structure IntrusiveList.Denotes {α : Type*} (next : α → Option α) (v : IntrusiveList α) (xs : List α) : Prop where
  links : Links next v.first_ xs
  back : v.last_ = xs.getLast?
  size : v.size_ = xs.length

/-- The lists with the sequences they stand for. -/
structure Lists.Tracked (L α : Type*) where
  lists : Lists L α
  seqs : L → List α

namespace Lists.Tracked
variable {L α : Type*} [DecidableEq L] [DecidableEq α]

open Classical in
/-- An operation that the caller may use. -/
noncomputable def step (c : Tracked L α) (op : ListOp L α) : Option (Tracked L α) :=
  if op.Allowed c.seqs then (c.lists.exec op).map fun s => ⟨s,op.denote c.seqs⟩ else none

/-- The lists are consistent and stand for the sequences, and no operation that is allowed fails. -/
structure Sound (c : Tracked L α) : Prop where
  consistent : ∀ l, (c.lists.list l).CheckConsistency c.lists.next
  denotes : ∀ l, (c.lists.list l).Denotes c.lists.next (c.seqs l)
  runs : ∀ op : ListOp L α, op.Allowed c.seqs → c.lists.exec op ≠ none

end Lists.Tracked

/-! ## Consistency -/

namespace IntrusiveList
variable {α : Type*} {next next' : α → Option α} {v w : IntrusiveList α} {xs ys : List α} {x y : α}

theorem Denotes.empty_iff (h : v.Denotes next xs) : v.empty = true ↔ xs = [] := by
  rw [IntrusiveList.empty, beq_iff_eq, h.size, List.length_eq_zero_iff]

theorem Denotes.nodup (h : v.Denotes next xs) : xs.Nodup := h.links.nodup

theorem denotes_zero : (zero : IntrusiveList α).Denotes next [] := ⟨rfl,rfl,rfl⟩

theorem Denotes.eq_zero (h : v.Denotes next []) : v = zero := by
  obtain ⟨hlinks,hback,hsize⟩ := h
  cases v
  cases hlinks
  cases hback
  cases hsize
  rfl

/-- Only the links of the items of the list count. -/
theorem Denotes.congr (h : v.Denotes next xs) (hnext : ∀ x ∈ xs, next' x = next x) : v.Denotes next' xs :=
  ⟨h.links.congr hnext,h.back,h.size⟩

theorem Denotes.unique (h : v.Denotes next xs) (h' : v.Denotes next ys) : xs = ys := h.links.unique h'.links

theorem Denotes.last_next (h : v.Denotes next (xs ++ [x])) : next x = none := (h.links.suffix).2

variable [DecidableEq α]

/-- The loop counts the items up to the last one. -/
theorem countTo_eq {p : Option α} (h : Links next p (xs ++ [x])) :
    countTo next (some x) (xs.length + 1) p = some (xs.length + 1) := by
  induction xs generalizing p with
  | nil =>
    obtain ⟨hp,-⟩ := h
    rw [hp]
    exact if_pos rfl
  | cons y xs ih =>
    have hn := h.nodup
    obtain ⟨hp,htail⟩ := h
    rw [List.cons_append, List.nodup_cons] at hn
    have hne : some y ≠ some x := fun heq => hn.1 (by simp [Option.some.inj heq])
    rw [hp, List.length_cons, countTo, if_neg hne, Option.bind_some, ih htail]
    rfl

/-- A loop that ends has run over a list. -/
theorem links_of_countTo {fuel n : ℕ} {p : Option α} (hx : next x = none)
    (h : countTo next (some x) fuel p = some n) : ∃ xs, Links next p (xs ++ [x]) ∧ n = (xs ++ [x]).length := by
  induction fuel generalizing p n with
  | zero => cases h
  | succ fuel ih =>
    rw [countTo] at h
    by_cases hp : p = some x
    · rw [if_pos hp] at h
      cases h
      exact ⟨[],⟨hp,hx⟩,rfl⟩
    · rw [if_neg hp] at h
      obtain ⟨y,rfl,h⟩ := Option.bind_eq_some_iff.mp h
      obtain ⟨m,hm,rfl⟩ := Option.map_eq_some_iff.mp h
      obtain ⟨xs,hlinks,rfl⟩ := ih hm
      exact ⟨y :: xs,⟨rfl,hlinks⟩,rfl⟩

/-- A list is consistent if it stands for a sequence. -/
theorem checkConsistency_iff : v.CheckConsistency next ↔ ∃ xs, v.Denotes next xs := by
  constructor
  · intro h
    rw [CheckConsistency] at h
    by_cases hsize : v.size_ = 0
    · rw [if_pos hsize] at h
      exact ⟨[],h.1,h.2,hsize⟩
    · rw [if_neg hsize] at h
      obtain ⟨⟨fuel,hcount⟩,x,hlast,hx⟩ := h
      rw [hlast] at hcount
      obtain ⟨xs,hlinks,hlength⟩ := links_of_countTo hx hcount
      refine ⟨xs ++ [x],hlinks,?_,hlength⟩
      rw [hlast, List.getLast?_concat]
  · rintro ⟨xs,h⟩
    rw [CheckConsistency]
    rcases List.eq_nil_or_concat' xs with rfl | ⟨xs,x,rfl⟩
    · rw [h.eq_zero]
      exact if_pos rfl ▸ ⟨rfl,rfl⟩
    · have hlast : v.last_ = some x := by rw [h.back, List.getLast?_concat]
      have hsize : v.size_ = xs.length + 1 := by rw [h.size, List.length_append, List.length_singleton]
      rw [if_neg (by omega), hlast, hsize]
      exact ⟨⟨_,countTo_eq h.links⟩,x,rfl,h.last_next⟩

/-! ## One list -/

omit [DecidableEq α] in
theorem Denotes.pop_front (h : v.Denotes next (x :: xs)) :
    (IntrusiveList.mk (v.size_ - 1) (next x) (if next x = none then none else v.last_)).Denotes next xs := by
  refine ⟨h.links.2,?_,?_⟩
  · cases xs with
    | nil =>
      have hnone : next x = none := h.links.2
      exact if_pos hnone
    | cons y xs =>
      have hsome : next x = some y := h.links.2.1
      rw [if_neg (by simp [hsome]), h.back, List.getLast?_cons_cons]
  · rw [h.size, List.length_cons, Nat.add_sub_cancel]

theorem denotes_singleton : (IntrusiveList.mk 1 (some x) (some x)).Denotes (Function.update next x none) [x] :=
  ⟨⟨rfl,Function.update_self ..⟩,rfl,rfl⟩

theorem Denotes.push_front (h : v.Denotes next xs) (hx : x ∉ xs) (hne : xs ≠ []) :
    (IntrusiveList.mk (v.size_ + 1) (some x) v.last_).Denotes (Function.update next x v.first_) (x :: xs) := by
  refine ⟨⟨rfl,?_⟩,?_,?_⟩
  · rw [Function.update_self]
    refine h.links.congr fun y hy => Function.update_of_ne ?_ _ _
    rintro rfl
    exact hx hy
  · rw [h.back, List.getLast?_cons_of_ne_nil hne]
  · rw [h.size, List.length_cons]

/-- The last item of a list is linked to the first one of another. -/
theorem Denotes.append (h : v.Denotes next (xs ++ [x])) (h' : w.Denotes next ys) (hx : x ∉ ys) (hne : ys ≠ []) :
    (IntrusiveList.mk (v.size_ + w.size_) v.first_ w.last_).Denotes (Function.update next x w.first_)
      (xs ++ [x] ++ ys) := by
  refine ⟨?_,?_,?_⟩
  · rw [List.append_assoc]
    exact h.links.append h'.links hx
  · rw [h'.back, List.getLast?_append_of_ne_nil _ hne]
  · rw [h.size, h'.size, ← List.length_append]

end IntrusiveList

/-! ## All lists -/

namespace Lists
variable {L α : Type*} {s s' : Lists L α} {a : L → List α} {this l : L} {x : α}

/-- The lists stand for disjoint sequences. -/
structure Represents (s : Lists L α) (a : L → List α) : Prop where
  denotes : ∀ l, (s.list l).Denotes s.next (a l)
  disjoint : ∀ l l' x, x ∈ a l → x ∈ a l' → l = l'

variable [DecidableEq L]

/-- One list changes, with links that are not those of the others. -/
theorem Represents.set (h : s.Represents a) {next' : α → Option α} {v : IntrusiveList α} {xs : List α}
    (hnext : ∀ l', l' ≠ l → ∀ x ∈ a l', next' x = s.next x) (hv : v.Denotes next' xs)
    (hxs : ∀ x ∈ xs, ∀ l', l' ≠ l → x ∉ a l') :
    (Lists.mk next' (Function.update s.list l v)).Represents (Function.update a l xs) where
  denotes := by
    intro l'
    dsimp only
    by_cases hl : l' = l
    · subst hl
      rwa [Function.update_self, Function.update_self]
    · rw [Function.update_of_ne hl, Function.update_of_ne hl]
      exact (h.denotes l').congr (hnext l' hl)
  disjoint := by
    intro l₁ l₂ x h₁ h₂
    by_cases hl₁ : l₁ = l
    · by_cases hl₂ : l₂ = l
      · rw [hl₁, hl₂]
      · rw [hl₁, Function.update_self] at h₁
        rw [Function.update_of_ne hl₂] at h₂
        exact absurd h₂ (hxs x h₁ l₂ hl₂)
    · rw [Function.update_of_ne hl₁] at h₁
      by_cases hl₂ : l₂ = l
      · rw [hl₂, Function.update_self] at h₂
        exact absurd h₁ (hxs x h₂ l₁ hl₁)
      · rw [Function.update_of_ne hl₂] at h₂
        exact h.disjoint l₁ l₂ x h₁ h₂

theorem Represents.clear (h : s.Represents a) (l : L) : (s.set l .zero).Represents (Function.update a l []) :=
  h.set (fun _ _ _ _ => rfl) IntrusiveList.denotes_zero fun _ hx => absurd hx List.not_mem_nil

/-- A list takes what another one had. -/
theorem Represents.take (h : s.Represents a) (hne : this ≠ l) {next' : α → Option α} {v : IntrusiveList α}
    {xs : List α} (hnext : ∀ l', l' ≠ this → l' ≠ l → ∀ x ∈ a l', next' x = s.next x) (hv : v.Denotes next' xs)
    (hxs : ∀ x ∈ xs, x ∈ a this ∨ x ∈ a l) :
    ((Lists.mk next' (Function.update s.list this v)).set l .zero).Represents
      (Function.update (Function.update a this xs) l []) := by
  have hclear : (Lists.mk s.next (Function.update s.list l .zero)).Represents (Function.update a l []) := h.clear l
  rw [Lists.set, Function.update_comm hne, Function.update_comm hne]
  refine hclear.set (fun l' hl' x hx => ?_) hv fun x hx l' hl' hmem => ?_
  · by_cases hl : l' = l
    · rw [hl, Function.update_self] at hx
      exact absurd hx List.not_mem_nil
    · rw [Function.update_of_ne hl] at hx
      exact hnext l' hl' hl x hx
  · by_cases hl : l' = l
    · rw [hl, Function.update_self] at hmem
      exact List.not_mem_nil hmem
    · rw [Function.update_of_ne hl] at hmem
      rcases hxs x hx with h' | h'
      · exact hl' (h.disjoint l' this x hmem h')
      · exact hl (h.disjoint l' l x hmem h')

variable [DecidableEq α]

theorem Represents.push_back (h : s.Represents a) (hx : ∀ l', x ∉ a l') :
    ∃ s', s.push_back l x = some s' ∧ s'.Represents (Function.update a l (a l ++ [x])) := by
  have hother : ∀ l', l' ≠ l → ∀ y ∈ a l', y ≠ x := by
    rintro l' - y hy rfl
    exact hx l' hy
  have hfresh : ∀ y ∈ a l ++ [x], ∀ l', l' ≠ l → y ∉ a l' := by
    intro y hy l' hl' hmem
    rcases List.mem_append.mp hy with hy | hy
    · exact hl' (h.disjoint l' l y hmem hy)
    · rw [List.mem_singleton.mp hy] at hmem
      exact hx l' hmem
  have hl := h.denotes l
  rw [Lists.push_back]
  rcases List.eq_nil_or_concat' (a l) with hnil | ⟨xs,t,hcons⟩
  · rw [if_pos (hl.empty_iff.mpr hnil)]
    refine ⟨_,rfl,h.set (fun l' hl' y hy => Function.update_of_ne (hother l' hl' y hy) _ _) ?_ hfresh⟩
    rw [hnil]
    exact IntrusiveList.denotes_singleton
  · have ht : x ≠ t := by
      rintro rfl
      exact hx l (by simp [hcons])
    rw [if_neg fun he => by simp [hl.empty_iff.mp he] at hcons]
    rw [hcons] at hl
    rw [hl.back, List.getLast?_concat]
    refine ⟨_,rfl,h.set (fun l' hl' y hy => ?_) ?_ hfresh⟩
    · have hne : y ≠ t := by
        rintro rfl
        exact hl' (h.disjoint l' l y hy (by simp [hcons]))
      exact (Function.update_of_ne hne _ _).trans (Function.update_of_ne (hother l' hl' y hy) _ _)
    · rw [hcons]
      have hlinked : (s.list l).Denotes (Function.update s.next x none) (xs ++ [t]) :=
        hl.congr fun y hy => Function.update_of_ne (by
          rintro rfl
          exact hx l (hcons ▸ hy)) _ _
      exact hlinked.append IntrusiveList.denotes_singleton (by simpa using ht.symm) (by simp)

theorem Represents.push_front (h : s.Represents a) (hx : ∀ l', x ∉ a l') :
    ∃ s', s.push_front l x = some s' ∧ s'.Represents (Function.update a l (x :: a l)) := by
  have hother : ∀ l', l' ≠ l → ∀ y ∈ a l', y ≠ x := by
    rintro l' - y hy rfl
    exact hx l' hy
  have hfresh : ∀ y ∈ x :: a l, ∀ l', l' ≠ l → y ∉ a l' := by
    intro y hy l' hl' hmem
    rcases List.mem_cons.mp hy with hy | hy
    · rw [hy] at hmem
      exact hx l' hmem
    · exact hl' (h.disjoint l' l y hmem hy)
  have hl := h.denotes l
  rw [Lists.push_front]
  by_cases hnil : a l = []
  · rw [if_pos (hl.empty_iff.mpr hnil)]
    refine ⟨_,rfl,h.set (fun l' hl' y hy => Function.update_of_ne (hother l' hl' y hy) _ _) ?_ hfresh⟩
    rw [hnil]
    exact IntrusiveList.denotes_singleton
  · rw [if_neg fun he => hnil (hl.empty_iff.mp he)]
    exact ⟨_,rfl,h.set (fun l' hl' y hy => Function.update_of_ne (hother l' hl' y hy) _ _)
      (hl.push_front (hx l) hnil) hfresh⟩

omit [DecidableEq α] in
theorem Represents.pop_front (h : s.Represents a) (hne : a l ≠ []) :
    ∃ s', s.pop_front l = some s' ∧ s'.Represents (Function.update a l (a l).tail) := by
  have hl := h.denotes l
  rw [Lists.pop_front, if_neg fun he => hne (hl.empty_iff.mp he)]
  obtain ⟨x,xs,hcons⟩ := List.exists_cons_of_ne_nil hne
  rw [hcons] at hl
  rw [hl.links.1, hcons]
  refine ⟨_,rfl,h.set (fun _ _ _ _ => rfl) hl.pop_front fun y hy l' hl' hmem => ?_⟩
  exact hl' (h.disjoint l' l y hmem (hcons ▸ List.mem_cons_of_mem x hy))

theorem Represents.append_front (h : s.Represents a) (hne : this ≠ l) : ∃ s', s.append_front this l = some s' ∧
    s'.Represents (Function.update (Function.update a this (a l ++ a this)) l []) := by
  have hthis := h.denotes this
  have hl := h.denotes l
  have hfrom : ∀ x ∈ a l ++ a this, x ∈ a this ∨ x ∈ a l := fun x hx => (List.mem_append.mp hx).symm
  rw [Lists.append_front, if_neg hne]
  by_cases hempty : a this = []
  · rw [if_pos (hthis.empty_iff.mpr hempty)]
    refine ⟨_,rfl,h.take hne (fun _ _ _ _ _ => rfl) ?_ hfrom⟩
    rwa [hempty, List.append_nil]
  · rw [if_neg fun he => hempty (hthis.empty_iff.mp he)]
    rcases List.eq_nil_or_concat' (a l) with hnil | ⟨xs,t,hcons⟩
    · have hsame : Function.update a this (a l ++ a this) = a := by rw [hnil, List.nil_append, Function.update_eq_self]
      rw [hl.empty_iff.mpr hnil, hsame]
      exact ⟨_,rfl,h.clear l⟩
    · have hnot : (s.list l).empty = false := by
        rw [Bool.eq_false_iff]
        intro he
        simp [hl.empty_iff.mp he] at hcons
      have ht : t ∈ a l := by simp [hcons]
      rw [hcons] at hl
      rw [hnot, hl.back, List.getLast?_concat]
      refine ⟨_,rfl,h.take hne (fun l' hthis' hl' x hx => ?_) ?_ hfrom⟩
      · refine Function.update_of_ne ?_ _ _
        rintro rfl
        exact hl' (h.disjoint l' l x hx ht)
      · rw [hcons, Nat.add_comm]
        exact hl.append hthis (fun hmem => hne (h.disjoint this l t hmem ht)) hempty

/-- Appending goes well unless the argument is empty and the receiver is not. -/
theorem Represents.append_back (h : s.Represents a) (hne : this ≠ l) (hkeeps : a this = [] ∨ a l ≠ []) :
    ∃ s', s.append_back this l = some s' ∧
      s'.Represents (Function.update (Function.update a this (a this ++ a l)) l []) := by
  have hthis := h.denotes this
  have hl := h.denotes l
  have hfrom : ∀ x ∈ a this ++ a l, x ∈ a this ∨ x ∈ a l := fun x hx => List.mem_append.mp hx
  rw [Lists.append_back, if_neg hne]
  rcases List.eq_nil_or_concat' (a this) with hempty | ⟨xs,t,hcons⟩
  · rw [if_pos (hthis.empty_iff.mpr hempty)]
    refine ⟨_,rfl,h.take hne (fun _ _ _ _ _ => rfl) ?_ hfrom⟩
    rwa [hempty, List.nil_append]
  · have hnot : a this ≠ [] := by simp [hcons]
    have ht : t ∈ a this := by simp [hcons]
    rw [if_neg fun he => hnot (hthis.empty_iff.mp he)]
    rw [hcons] at hthis
    rw [hthis.back, List.getLast?_concat]
    refine ⟨_,rfl,h.take hne (fun l' hthis' hl' x hx => ?_) ?_ hfrom⟩
    · refine Function.update_of_ne ?_ _ _
      rintro rfl
      exact hthis' (h.disjoint l' this x hx ht)
    · rw [hcons]
      exact hthis.append hl (fun hmem => hne (h.disjoint this l t ht hmem)) (hkeeps.resolve_left hnot)

/-- The receiver is left without a last item. -/
theorem Represents.append_back_empty (h : s.Represents a) (hne : this ≠ l) (hthis : a this ≠ []) (hl : a l = []) :
    ∃ s', s.append_back this l = some s' ∧ ¬ (s'.list this).CheckConsistency s'.next := by
  have hdenotes := h.denotes this
  rw [Lists.append_back, if_neg hne, if_neg fun he => hthis (hdenotes.empty_iff.mp he)]
  have hzero : s.list l = .zero := (hl ▸ h.denotes l).eq_zero
  obtain ⟨xs,t,hcons⟩ := (List.eq_nil_or_concat' (a this)).resolve_left hthis
  rw [hdenotes.back, hcons, List.getLast?_concat, hzero]
  refine ⟨_,rfl,fun hcheck => ?_⟩
  obtain ⟨ys,hys⟩ := IntrusiveList.checkConsistency_iff.mp hcheck
  have hlist : ∀ v : IntrusiveList α, Function.update (Function.update s.list this v) l .zero this = v := by
    intro v
    rw [Function.update_of_ne hne, Function.update_self]
  have hback := hys.back
  have hsize := hys.size
  dsimp only [Lists.set, Lists.link] at hback hsize
  rw [hlist] at hback hsize
  have hnil : ys = [] := List.getLast?_eq_none_iff.mp hback.symm
  rw [hnil, hdenotes.size, hcons] at hsize
  simp at hsize

end Lists

/-! ## Runs -/

namespace Lists.Tracked
variable {L α : Type*} [DecidableEq L] [DecidableEq α] {c c' : Tracked L α} {op : ListOp L α}

theorem exec_represents (h : c.lists.Represents c.seqs) (ha : op.Allowed c.seqs) (hk : op.Keeps c.seqs) :
    ∃ s', c.lists.exec op = some s' ∧ s'.Represents (op.denote c.seqs) := by
  cases op with
  | push_back l x => exact h.push_back ha
  | push_front l x => exact h.push_front ha
  | pop_front l => exact h.pop_front ha
  | append_front this l => exact h.append_front ha
  | append_back this l => exact h.append_back ha hk
  | clear l => exact ⟨_,rfl,h.clear l⟩

theorem exec_not_keeps (h : c.lists.Represents c.seqs) (ha : op.Allowed c.seqs) (hk : ¬ op.Keeps c.seqs) :
    ∃ s' l, c.lists.exec op = some s' ∧ ¬ (s'.list l).CheckConsistency s'.next := by
  cases op with
  | append_back this l =>
    rw [ListOp.Keeps, not_or, not_not] at hk
    obtain ⟨s',he,hs'⟩ := h.append_back_empty ha hk.1 hk.2
    exact ⟨s',this,he,hs'⟩
  | _ => exact absurd trivial hk

theorem sound_of_represents (h : c.lists.Represents c.seqs) : c.Sound where
  consistent := fun l => IntrusiveList.checkConsistency_iff.mpr ⟨_,h.denotes l⟩
  denotes := h.denotes
  runs := by
    intro op ha hnone
    by_cases hk : op.Keeps c.seqs
    · obtain ⟨s',he,-⟩ := exec_represents h ha hk
      rw [hnone] at he
      cases he
    · obtain ⟨s',l,he,-⟩ := exec_not_keeps h ha hk
      rw [hnone] at he
      cases he

theorem step_eq_some (he : step c op = some c') :
    op.Allowed c.seqs ∧ ∃ s', c.lists.exec op = some s' ∧ c' = ⟨s',op.denote c.seqs⟩ := by
  rw [step] at he
  split_ifs at he with ha
  obtain ⟨s',hs',rfl⟩ := Option.map_eq_some_iff.mp he
  exact ⟨ha,s',hs',rfl⟩

theorem step_of_allowed {s' : Lists L α} (ha : op.Allowed c.seqs) (he : c.lists.exec op = some s') :
    step c op = some ⟨s',op.denote c.seqs⟩ := by
  rw [step, if_pos ha, he]
  rfl

theorem step_represents (h : c.lists.Represents c.seqs) (hk : op.Keeps c.seqs) (he : step c op = some c') :
    c'.lists.Represents c'.seqs := by
  obtain ⟨ha,s',hs',rfl⟩ := step_eq_some he
  obtain ⟨s₁,h₁,hrep⟩ := exec_represents h ha hk
  cases hs'.symm.trans h₁
  exact hrep

theorem keeps_of_sound (h : c.lists.Represents c.seqs) (he : step c op = some c') (hs : c'.Sound) :
    op.Keeps c.seqs := by
  by_contra hk
  obtain ⟨ha,s',hs',rfl⟩ := step_eq_some he
  obtain ⟨s₁,l,h₁,hbad⟩ := exec_not_keeps h ha hk
  cases hs'.symm.trans h₁
  exact hbad (hs.consistent l)

/-- Lists of disjoint items that are consistent stay so, and stand for the sequences, in just those runs in which no
empty list is appended behind one that has items. -/
theorem intrusive_list {s : Lists L α} (hc : ∀ l, (s.list l).CheckConsistency s.next) :
    ∃ a, (∀ l, (s.list l).Denotes s.next (a l)) ∧ ((∀ l l' x, x ∈ a l → x ∈ a l' → l = l') → ∀ ops,
      Transition.AllStates step Sound ⟨s,a⟩ ops ↔
        Transition.AllSteps step (fun c op => op.Keeps c.seqs) ⟨s,a⟩ ops) := by
  choose a ha using fun l => IntrusiveList.checkConsistency_iff.mp (hc l)
  refine ⟨a,ha,fun hdisjoint ops => ?_⟩
  have hrep : Represents s a := ⟨ha,hdisjoint⟩
  constructor
  · intro hstates
    exact Transition.allSteps_of_allStates (I := fun c : Tracked L α => c.lists.Represents c.seqs)
      (fun c op c' h _ he hs => keeps_of_sound h he hs) (fun c op c' h _ hk he => step_represents h hk he) hrep
      (.of_forall fun _ _ => trivial) hstates
  · intro hsteps
    exact Transition.allStates_of_inv (I := fun c : Tracked L α => c.lists.Represents c.seqs)
      (fun c op c' h hk he => step_represents h hk he) (fun c h => sound_of_represents h) hrep hsteps

/-- Lists that are cleared. -/
def cleared : Lists Bool ℕ := ⟨fun _ => none,fun _ => .zero⟩

theorem intrusive_list_cleared : ∃ a, (∀ l, (cleared.list l).Denotes cleared.next (a l)) ∧
    ((∀ l l' x, x ∈ a l → x ∈ a l' → l = l') → ∀ ops, Transition.AllStates step Sound ⟨cleared,a⟩ ops ↔
      Transition.AllSteps step (fun c op => op.Keeps c.seqs) ⟨cleared,a⟩ ops) :=
  intrusive_list fun _ => IntrusiveList.checkConsistency_iff.mpr ⟨[],IntrusiveList.denotes_zero⟩

/-- A list with one item loses its last item when an empty list is appended. -/
theorem append_back_loses_last : ∃ c, Transition.run step ⟨cleared,fun _ => []⟩
    [.push_back true 7,.append_back true false] = some c ∧ c.seqs true = [7] ∧ (c.lists.list true).size_ = 1 ∧
    (c.lists.list true).last_ = none ∧ ¬ c.Sound := by
  let c₀ : Tracked Bool ℕ := ⟨cleared,fun _ => []⟩
  have hpush : step c₀ (.push_back true 7) = some _ := step_of_allowed (fun _ => List.not_mem_nil) rfl
  rw [Transition.run_cons, hpush, Option.bind_some, Transition.run_cons, step_of_allowed Bool.noConfusion rfl]
  refine ⟨_,rfl,rfl,rfl,rfl,fun hs => ?_⟩
  have hcheck := hs.consistent true
  rw [IntrusiveList.CheckConsistency, if_neg (by decide)] at hcheck
  obtain ⟨-,x,hx,-⟩ := hcheck
  cases hx

end Lists.Tracked
end CompilerRt.Sanitizer
