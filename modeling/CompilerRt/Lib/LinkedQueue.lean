import Mathlib.Data.List.Basic
import Mathlib.Data.List.Nodup
import Mathlib.Logic.Function.Basic

/-! # Queues of linked nodes

A queue is a chain of nodes with a pointer to the first and the last one and a count. It stands for the list
of its nodes: a node is put to the end and taken from the front.
-/
namespace CompilerRt

structure LinkedQueue (α : Type*) where
  next : α → Option α
  head : Option α
  tail : Option α
  size : ℕ

namespace LinkedQueue
variable {α : Type*}

/-- The nodes from a pointer on are those of the list, and the last one has no next node. -/
def Links (next : α → Option α) : Option α → List α → Prop
  | p, [] => p = none
  | p, a :: l => p = some a ∧ Links next (next a) l

namespace Links
variable {next next' : α → Option α} {p : Option α} {a : α} {l : List α}

/-- Only the nodes of the list count. -/
theorem congr (h : Links next p l) (hnext : ∀ x ∈ l, next' x = next x) : Links next' p l := by
  induction l generalizing p with
  | nil => exact h
  | cons b l ih =>
    obtain ⟨hp,htail⟩ := h
    constructor
    · exact hp
    · rw [hnext b List.mem_cons_self]
      exact ih htail fun x hx => hnext x (List.mem_cons_of_mem b hx)

/-- A pointer has one list. -/
theorem unique {l' : List α} (h : Links next p l) (h' : Links next p l') : l = l' := by
  induction l generalizing p l' with
  | nil =>
    cases l' with
    | nil => rfl
    | cons b l' => exact absurd (h'.1.symm.trans h) (Option.some_ne_none b)
  | cons b l ih =>
    cases l' with
    | nil => exact absurd (h.1.symm.trans h') (Option.some_ne_none b)
    | cons c l' =>
      obtain ⟨hb,htail⟩ := h
      obtain ⟨hc,htail'⟩ := h'
      cases hb.symm.trans hc
      rw [ih htail htail']

theorem of_none (h : Links next none l) : l = [] := h.unique rfl

/-- A pointer to a node goes on with the next one. -/
theorem of_some (h : Links next (some a) l) : ∃ l', l = a :: l' ∧ Links next (next a) l' := by
  cases l with
  | nil => cases h
  | cons b l =>
    obtain ⟨hp,htail⟩ := h
    cases hp
    exact ⟨l,rfl,htail⟩

/-- What is behind a node of the list. -/
theorem suffix {l' : List α} (h : Links next p (l ++ a :: l')) : Links next (some a) (a :: l') := by
  induction l generalizing p with
  | nil => exact ⟨rfl,h.2⟩
  | cons b l ih => exact ih h.2

/-- A chain that ends has no node twice. -/
theorem nodup (h : Links next p l) : l.Nodup := by
  induction l generalizing p with
  | nil => exact List.nodup_nil
  | cons b l ih =>
    refine List.nodup_cons.mpr ⟨fun hmem => ?_,ih h.2⟩
    obtain ⟨l₁,l₂,rfl⟩ := List.append_of_mem hmem
    have hagain : Links next (some b) (b :: l₂) := suffix (l := b :: l₁) h
    have hsame := h.unique (h.1 ▸ hagain)
    have hlen := congrArg List.length hsame
    simp at hlen
    omega

variable [DecidableEq α]

/-- The chain of the last node goes on with another list. -/
theorem append {q : Option α} {l' : List α} (h : Links next p (l ++ [a])) (h' : Links next q l') (ha : a ∉ l') :
    Links (Function.update next a q) p (l ++ a :: l') := by
  have hn := h.nodup
  induction l generalizing p with
  | nil =>
    refine ⟨h.1,?_⟩
    rw [Function.update_self]
    refine h'.congr fun x hx => Function.update_of_ne ?_ _ _
    rintro rfl
    exact ha hx
  | cons b l ih =>
    rw [List.cons_append, List.nodup_cons] at hn
    have hb : b ≠ a := fun heq => hn.1 (by simp [heq])
    refine ⟨h.1,?_⟩
    rw [Function.update_of_ne hb]
    exact ih h.2 hn.2

/-- The node behind another one is taken out. -/
theorem remove {b : α} {l' : List α} (h : Links next p (l ++ a :: b :: l')) (hn : (l ++ a :: b :: l').Nodup) :
    Links (Function.update next a (next b)) p (l ++ a :: l') := by
  induction l generalizing p with
  | nil =>
    obtain ⟨hp,-,htail⟩ := h
    have ha : a ∉ l' := fun hmem => (List.nodup_cons.mp hn).1 (List.mem_cons_of_mem b hmem)
    refine ⟨hp,?_⟩
    rw [Function.update_self]
    refine htail.congr fun x hx => ?_
    have hne : x ≠ a := by
      rintro rfl
      exact ha hx
    rw [Function.update_of_ne hne]
  | cons c l ih =>
    obtain ⟨hp,htail⟩ := h
    rw [List.cons_append, List.nodup_cons] at hn
    have hc : c ≠ a := fun heq => hn.1 (by simp [heq])
    refine ⟨hp,?_⟩
    rw [Function.update_of_ne hc]
    exact ih htail hn.2

/-- A new node goes behind the last one. -/
theorem concat {t : α} (h : Links next p (l ++ [t])) (hn : (l ++ [t]).Nodup) (ha : a ∉ l ++ [t])
    (hnext : next' = Function.update (Function.update next a none) t (some a)) :
    Links next' p (l ++ [t] ++ [a]) := by
  subst hnext
  induction l generalizing p with
  | nil =>
    obtain ⟨hp,-⟩ := h
    have hat : a ≠ t := by simpa using ha
    simp [Links, hp, hat]
  | cons b l ih =>
    obtain ⟨hp,htail⟩ := h
    have hb : b ≠ t ∧ b ≠ a := by
      simp only [List.cons_append, List.nodup_cons, List.mem_append, List.mem_singleton, not_or] at hn
      simp only [List.cons_append, List.mem_cons, not_or] at ha
      exact ⟨hn.1.2,Ne.symm ha.1⟩
    refine ⟨hp,?_⟩
    rw [Function.update_of_ne hb.1, Function.update_of_ne hb.2]
    exact ih htail (List.nodup_cons.mp hn).2 fun hmem => ha (List.mem_cons_of_mem b hmem)

end Links

/-- The queue stands for the list. -/
structure Holds (q : LinkedQueue α) (l : List α) : Prop where
  links : Links q.next q.head l
  tail : ∀ a ∈ l.getLast?, q.tail = some a
  size : q.size = l.length
  nodup : l.Nodup

def empty : LinkedQueue α := ⟨fun _ => none,none,none,0⟩

theorem holds_empty : (empty : LinkedQueue α).Holds [] := ⟨rfl,by simp,rfl,List.nodup_nil⟩

section Push
variable [DecidableEq α] (q : LinkedQueue α) (a : α)

/-- Put a node to the end. -/
def push : LinkedQueue α where
  next := if q.size = 0 then Function.update q.next a none
    else match q.tail with
      | none => Function.update q.next a none
      | some t => Function.update (Function.update q.next a none) t (some a)
  head := if q.size = 0 then some a else q.head
  tail := some a
  size := q.size + 1

/-- Take the first node off. -/
def pop : LinkedQueue α := { q with head := q.head.bind q.next, size := q.size - 1 }

end Push

namespace Holds
variable {q q' : LinkedQueue α} {a : α} {l : List α}

theorem eq_nil (h : q.Holds l) (hs : q.size = 0) : l = [] := List.eq_nil_of_length_eq_zero (h.size ▸ hs)

/-- Links of nodes outside the queue are free. -/
theorem congr (h : q.Holds l) (hnext : ∀ x ∈ l, q'.next x = q.next x) (hhead : q'.head = q.head)
    (htail : q'.tail = q.tail) (hsize : q'.size = q.size) : q'.Holds l where
  links := by
    rw [hhead]
    exact h.links.congr hnext
  tail := by
    rw [htail]
    exact h.tail
  size := hsize.trans h.size
  nodup := h.nodup

theorem push [DecidableEq α] (h : q.Holds l) (ha : a ∉ l) : (q.push a).Holds (l ++ [a]) where
  links := by
    rcases List.eq_nil_or_concat' l with rfl | ⟨l',t,rfl⟩
    · have hs : q.size = 0 := h.size
      simp [LinkedQueue.push, Links, hs]
    · have hs : q.size ≠ 0 := by simp [h.size]
      have ht : q.tail = some t := h.tail t (by simp)
      simp only [LinkedQueue.push, hs, if_false, ht]
      exact h.links.concat h.nodup ha rfl
  tail := by simp [LinkedQueue.push]
  size := by simp [LinkedQueue.push, h.size]
  nodup := List.nodup_append.mpr ⟨h.nodup,List.nodup_singleton a,by
    intro x hx y hy hxy
    rw [List.mem_singleton.mp hy] at hxy
    exact ha (hxy ▸ hx)⟩

theorem head (h : q.Holds (a :: l)) : q.head = some a := h.links.1

theorem pop (h : q.Holds (a :: l)) : q.pop.Holds l where
  links := by
    rw [LinkedQueue.pop, h.head]
    exact h.links.2
  tail := by
    intro x hx
    refine h.tail x ?_
    rw [Option.mem_def] at hx ⊢
    rw [List.getLast?_cons, hx]
    rfl
  size := by simp [LinkedQueue.pop, h.size]
  nodup := (List.nodup_cons.mp h.nodup).2

/-- A queue that is not empty has a first node. -/
theorem eq_cons (h : q.Holds l) (hs : q.size ≠ 0) : ∃ b l', l = b :: l' := by
  cases l with
  | nil => exact absurd h.size hs
  | cons b l' => exact ⟨b,l',rfl⟩

end Holds
end LinkedQueue
end CompilerRt
