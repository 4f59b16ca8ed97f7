import CompilerRt.Lib.WhileLoop
import Mathlib

/-! # Unwinding by frame pointers

`FastUnwindStack` of `lib/sanitizer_common/sanitizer_stacktrace.cc`. A frame is two words, the address of the caller's
frame and the return address, and what the program left there may be anything.
-/
namespace CompilerRt.Sanitizer.FastUnwind

/-- The frame the loop is at and the one before, the trace, and the addresses of the words read and the indices of the
entries stored so far. -/
structure Unwinding where
  frame : ℕ
  prev_frame : ℕ
  trace : List ℕ
  reads : List ℕ
  stores : List ℕ

def kWordSize : ℕ := 8

section Loop
variable (mem : ℕ → ℕ) (pc bp stack_top stack_bottom max_size : ℕ)

def guard (u : Unwinding) : Bool :=
  u.frame ≥ u.prev_frame && u.frame < stack_top - 2 * kWordSize && u.frame > stack_bottom && u.trace.length < max_size

def body (u : Unwinding) : Unwinding :=
  let pc1 := mem (u.frame + kWordSize)
  { frame := mem u.frame
    prev_frame := u.frame
    trace := if pc1 ≠ pc then u.trace ++ [pc1] else u.trace
    reads := u.reads ++ [u.frame + kWordSize,u.frame]
    stores := if pc1 ≠ pc then u.stores ++ [u.trace.length] else u.stores }

/-- The caller has put `pc` in front of the trace. -/
def start : Unwinding := ⟨bp,bp,[pc],[],[]⟩

def FastUnwindStack (fuel : ℕ) : Option Unwinding :=
  WhileLoop.run (guard stack_top stack_bottom max_size) (body mem pc) fuel (start pc bp)

/-- The states of the loop, also if it does not end. -/
def Visits (u : Unwinding) : Prop :=
  WhileLoop.Visits (guard stack_top stack_bottom max_size) (body mem pc) (start pc bp) u

/-- The unwinding ends, and stays inside the stack and the trace. -/
structure Unwinds : Prop where
  terminates : ∃ fuel u, FastUnwindStack mem pc bp stack_top stack_bottom max_size fuel = some u
  reads : ∀ u, Visits mem pc bp stack_top stack_bottom max_size u → ∀ a ∈ u.reads,
    stack_bottom < a ∧ a + kWordSize < stack_top
  stores : ∀ u, Visits mem pc bp stack_top stack_bottom max_size u →
    u.stores.length ≤ max_size ∧ ∀ i ∈ u.stores, i < max_size

/-- The frame after `n` others. -/
def frameAt (n : ℕ) : ℕ := mem^[n] bp

/-- The entries for the first `n` frames. -/
def entries (n : ℕ) : ℕ := (List.range n).countP fun i => mem (frameAt mem bp i + kWordSize) ≠ pc

/-- Frames inside the stack, each above the one before, lead to one that is its own caller and returns to `pc`, and the
trace is not full by then. -/
def Loops : Prop := ∃ n, (∀ i < n, frameAt mem bp i < frameAt mem bp (i + 1)) ∧
  (∀ i ≤ n, stack_bottom < frameAt mem bp i ∧ frameAt mem bp i < stack_top - 2 * kWordSize) ∧
  mem (frameAt mem bp n) = frameAt mem bp n ∧ mem (frameAt mem bp n + kWordSize) = pc ∧
  1 + entries mem pc bp n < max_size

end Loop

section Unwind
variable {mem : ℕ → ℕ} {pc bp stack_top stack_bottom max_size : ℕ}

theorem guard_iff (u : Unwinding) : guard stack_top stack_bottom max_size u = true ↔ u.prev_frame ≤ u.frame ∧
    u.frame < stack_top - 2 * kWordSize ∧ stack_bottom < u.frame ∧ u.trace.length < max_size := by
  simp [guard, and_assoc]

/-! ## What is read and stored -/

/-- The entries stored so far are those behind the first one. -/
structure Inside (stack_top stack_bottom max_size : ℕ) (u : Unwinding) : Prop where
  reads : ∀ a ∈ u.reads, stack_bottom < a ∧ a + kWordSize < stack_top
  length : u.trace.length = u.stores.length + 1
  le : u.stores.length ≤ max_size
  stores : ∀ i ∈ u.stores, i < max_size

theorem inside_start : Inside stack_top stack_bottom max_size (start pc bp) :=
  ⟨nofun,rfl,Nat.zero_le _,nofun⟩

theorem Inside.body {u : Unwinding} (h : Inside stack_top stack_bottom max_size u)
    (hg : guard stack_top stack_bottom max_size u = true) : Inside stack_top stack_bottom max_size (body mem pc u) := by
  rw [guard_iff, kWordSize] at hg
  obtain ⟨-,htop,hbottom,hsize⟩ := hg
  have hlen := h.length
  refine ⟨?_,?_,?_,?_⟩
  · intro a ha
    simp only [FastUnwind.body, List.mem_append, List.mem_cons, List.not_mem_nil, or_false] at ha
    rcases ha with ha | rfl | rfl
    · exact h.reads a ha
    · rw [kWordSize]
      omega
    · rw [kWordSize]
      omega
  · unfold FastUnwind.body
    dsimp only
    split_ifs
    · rw [List.length_append, List.length_append, hlen]
      rfl
    · exact hlen
  · unfold FastUnwind.body
    dsimp only
    split_ifs
    · rw [List.length_append, List.length_singleton]
      omega
    · exact h.le
  · unfold FastUnwind.body
    dsimp only
    split_ifs
    · intro i hi
      rcases List.mem_append.mp hi with hi | hi
      · exact h.stores i hi
      · rw [List.mem_singleton.mp hi]
        exact hsize
    · exact h.stores

theorem Visits.inside {u : Unwinding} (h : Visits mem pc bp stack_top stack_bottom max_size u) :
    Inside stack_top stack_bottom max_size u :=
  h.inv inside_start fun _ hu hg => hu.body hg

/-! ## The frames -/

theorem frameAt_succ (n : ℕ) : frameAt mem bp (n + 1) = mem (frameAt mem bp n) := Function.iterate_succ_apply' ..

theorem entries_succ (n : ℕ) : entries mem pc bp (n + 1) =
    entries mem pc bp n + if mem (frameAt mem bp n + kWordSize) ≠ pc then 1 else 0 := by
  simp only [entries, List.range_succ, List.countP_append, List.countP_singleton, decide_eq_true_eq]

theorem frame_iterate (n : ℕ) : ((body mem pc)^[n] (start pc bp)).frame = frameAt mem bp n := by
  induction n with
  | zero => rfl
  | succ n ih =>
    rw [Function.iterate_succ_apply', frameAt_succ, ← ih]
    rfl

theorem prev_frame_iterate (n : ℕ) : ((body mem pc)^[n] (start pc bp)).prev_frame = frameAt mem bp (n - 1) := by
  cases n with
  | zero => rfl
  | succ n =>
    rw [Function.iterate_succ_apply', Nat.add_sub_cancel, ← frame_iterate]
    rfl

theorem length_body (u : Unwinding) : (body mem pc u).trace.length =
    u.trace.length + if mem (u.frame + kWordSize) ≠ pc then 1 else 0 := by
  unfold body
  dsimp only
  split_ifs
  · rw [List.length_append, List.length_singleton]
  · rfl

theorem length_iterate (n : ℕ) : ((body mem pc)^[n] (start pc bp)).trace.length = 1 + entries mem pc bp n := by
  induction n with
  | zero => rfl
  | succ n ih =>
    rw [Function.iterate_succ_apply', entries_succ, length_body, frame_iterate, ih, Nat.add_assoc]

theorem guard_iterate_iff (n : ℕ) : guard stack_top stack_bottom max_size ((body mem pc)^[n] (start pc bp)) = true ↔
    frameAt mem bp (n - 1) ≤ frameAt mem bp n ∧ frameAt mem bp n < stack_top - 2 * kWordSize ∧
      stack_bottom < frameAt mem bp n ∧ 1 + entries mem pc bp n < max_size := by
  rw [guard_iff, frame_iterate, prev_frame_iterate, length_iterate]

/-- From a frame that is its own caller the loop gets nowhere. -/
theorem frameAt_add {n : ℕ} (h : mem (frameAt mem bp n) = frameAt mem bp n) (k : ℕ) :
    frameAt mem bp (n + k) = frameAt mem bp n := by
  induction k with
  | zero => rfl
  | succ k ih => rw [← Nat.add_assoc, frameAt_succ, ih, h]

theorem entries_add {n : ℕ} (h : mem (frameAt mem bp n) = frameAt mem bp n) (k : ℕ) :
    entries mem pc bp (n + k) =
      entries mem pc bp n + if mem (frameAt mem bp n + kWordSize) ≠ pc then k else 0 := by
  induction k with
  | zero => simp
  | succ k ih =>
    rw [← Nat.add_assoc, entries_succ, ih, frameAt_add h]
    split_ifs <;> omega

theorem entries_mono {m n : ℕ} (h : m ≤ n) : entries mem pc bp m ≤ entries mem pc bp n := by
  induction n, h using Nat.le_induction with
  | base => exact le_rfl
  | succ n _ ih =>
    rw [entries_succ]
    exact ih.trans (Nat.le_add_right _ _)

/-- Addresses below a bound that never go down stay the same at last. -/
theorem exists_frameAt_eq {bound : ℕ} (hle : ∀ n, frameAt mem bp n ≤ frameAt mem bp (n + 1))
    (hlt : ∀ n, frameAt mem bp n < bound) : ∃ n, frameAt mem bp (n + 1) = frameAt mem bp n := by
  by_contra hne
  have hgrow : ∀ n, n ≤ frameAt mem bp n := by
    intro n
    induction n with
    | zero => exact Nat.zero_le _
    | succ n ih =>
      have hlt := lt_of_le_of_ne (hle n) fun heq => hne ⟨n,heq.symm⟩
      omega
  exact absurd (hgrow bound) (Nat.not_le.mpr (hlt bound))

/-- The loop goes on for ever if it comes to a frame that keeps it. -/
theorem guard_of_loops (h : Loops mem pc bp stack_top stack_bottom max_size) (m : ℕ) :
    guard stack_top stack_bottom max_size ((body mem pc)^[m] (start pc bp)) = true := by
  obtain ⟨n,hup,hin,hself,hpc,hsize⟩ := h
  rw [guard_iterate_iff]
  rcases Nat.le_total m n with hm | hm
  · obtain ⟨hbottom,htop⟩ := hin m hm
    refine ⟨?_,htop,hbottom,?_⟩
    · cases m with
      | zero => exact le_rfl
      | succ m => exact (hup m hm).le
    · have hle : entries mem pc bp m ≤ entries mem pc bp n := entries_mono hm
      omega
  · obtain ⟨k,rfl⟩ := Nat.exists_eq_add_of_le hm
    obtain ⟨hbottom,htop⟩ := hin n le_rfl
    rw [frameAt_add hself, entries_add hself, if_neg (not_not.mpr hpc)]
    refine ⟨?_,htop,hbottom,hsize⟩
    cases k with
    | zero =>
      cases n with
      | zero => exact le_rfl
      | succ n => exact (hup n (Nat.lt_succ_self n)).le
    | succ k =>
      rw [Nat.add_succ_sub_one, frameAt_add hself]

/-- A loop that does not end comes to such a frame. -/
theorem loops_of_guard
    (h : ∀ n, guard stack_top stack_bottom max_size ((body mem pc)^[n] (start pc bp)) = true) :
    Loops mem pc bp stack_top stack_bottom max_size := by
  simp only [guard_iterate_iff] at h
  have hle : ∀ n, frameAt mem bp n ≤ frameAt mem bp (n + 1) := fun n => (h (n + 1)).1
  have hex := exists_frameAt_eq hle fun n => (h n).2.1
  have hself : mem (frameAt mem bp (Nat.find hex)) = frameAt mem bp (Nat.find hex) := by
    have hspec := Nat.find_spec hex
    rwa [frameAt_succ] at hspec
  refine ⟨Nat.find hex,fun i hi => ?_,fun i _ => ⟨(h i).2.2.1,(h i).2.1⟩,hself,?_,(h _).2.2.2⟩
  · exact lt_of_le_of_ne (hle i) fun heq => Nat.find_min hex hi heq.symm
  · -- each round would add an entry
    by_contra hpc
    have hsize := (h (Nat.find hex + max_size)).2.2.2
    rw [entries_add hself, if_pos hpc] at hsize
    omega

end Unwind
end CompilerRt.Sanitizer.FastUnwind
