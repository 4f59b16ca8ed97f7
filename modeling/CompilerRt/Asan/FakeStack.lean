import CompilerRt.Asan.SizeClasses
import CompilerRt.Lib.Transition
import Mathlib

/-! # Fake stacks

`FakeStack` of `lib/asan/asan_allocator.cc`: frames come from a queue for their size class, and go back to it when a
later call tells that their functions have returned. The shadow memory is left out.
-/
namespace CompilerRt.AsanAllocator

/-- The checks that can fail: the one on an empty queue, and the others. -/
inductive FailedCheck
  | exhausted
  | other
  deriving DecidableEq, Repr

/-- The lists, with the fields of the frames by their addresses; the top of the call stack is first. -/
structure FakeStack where
  stack_size_ : ℕ
  alive_ : Bool
  allocated_size_classes_ : ℕ → ℕ
  size_classes_ : ℕ → List ℕ
  call_stack_ : List ℕ
  size_minus_one : ℕ → ℕ
  real_stack : ℕ → ℕ

namespace FakeStack

def kPageSize : ℕ := 4096
def kMinStackFrameSizeLog : ℕ := 9
def kMaxStackFrameSizeLog : ℕ := 16
def kMaxStackMallocSize : ℕ := 1 <<< kMaxStackFrameSizeLog
def kNumberOfFrameClasses : ℕ := kMaxStackFrameSizeLog - kMinStackFrameSizeLog + 1

def Init (stack_size : ℕ) : FakeStack where
  stack_size_ := stack_size
  alive_ := true
  allocated_size_classes_ _ := 0
  size_classes_ _ := []
  call_stack_ := []
  size_minus_one _ := 0
  real_stack _ := 0

def ClassSize (size_class : ℕ) : ℕ := shl 1 (size_class + kMinStackFrameSizeLog)

def ComputeSizeClass (alloc_size : ℕ) : Option ℕ := do
  let rounded_size ← RoundUpToPowerOfTwo alloc_size
  let log ← Log2 rounded_size
  if alloc_size ≤ shl 1 log ∧ alloc_size > shl 1 ((log + (2^64 - 1)) % 2^64) then
    let res := if log < kMinStackFrameSizeLog then 0 else log - kMinStackFrameSizeLog
    if res < kNumberOfFrameClasses ∧ ClassSize res ≥ rounded_size then some res else none
  else none

def ClassMmapSize (f : FakeStack) : Option ℕ := RoundUpToPowerOfTwo f.stack_size_

/-- The loop that cuts the memory into frames, with the counter at its end. -/
def slotLoop (mmap size new_mem : ℕ) : ℕ → ℕ → List ℕ → Option (List ℕ × ℕ)
  | 0, _, _ => none
  | fuel + 1, i, fifo =>
    if i < mmap then slotLoop mmap size new_mem fuel (i + size) (fifo ++ [new_mem + i]) else some (fifo,i)

/-- `new_mem` is what `MmapOrDie` returns. -/
def AllocateOneSizeClass (f : FakeStack) (size_class new_mem : ℕ) : Option FakeStack := do
  let mmap ← f.ClassMmapSize
  if mmap ≥ kPageSize then
    let (fifo, i) ← slotLoop mmap (ClassSize size_class) new_mem (mmap + 1) 0 (f.size_classes_ size_class)
    if i = mmap then
      some { f with
        size_classes_ := Function.update f.size_classes_ size_class fifo
        allocated_size_classes_ := Function.update f.allocated_size_classes_ size_class new_mem }
    else none
  else none

def AddrIsInSizeClass (f : FakeStack) (addr size_class : ℕ) : Option Bool :=
  let mem := f.allocated_size_classes_ size_class
  f.ClassMmapSize.map fun size => mem ≠ 0 && addr ≥ mem && addr < mem + size

def DeallocateFrame (f : FakeStack) (fake_frame : ℕ) : Option FakeStack := do
  let size := f.size_minus_one fake_frame + 1
  let size_class ← ComputeSizeClass size
  let first ← f.AddrIsInSizeClass fake_frame size_class
  let last ← f.AddrIsInSizeClass (fake_frame + size - 1) size_class
  if f.alive_ ∧ f.allocated_size_classes_ size_class ≠ 0 ∧ first ∧ last then
    some { f with
      size_classes_ := Function.update f.size_classes_ size_class (f.size_classes_ size_class ++ [fake_frame]) }
  else none

/-- The loop over the call stack. -/
def reclaim (real_stack : ℕ) : List ℕ → FakeStack → Option FakeStack
  | [], f => some { f with call_stack_ := [] }
  | top :: rest, f =>
    if f.real_stack top > real_stack then some { f with call_stack_ := top :: rest }
    else (f.DeallocateFrame top).bind fun f => reclaim real_stack rest f

/-- The frame that is taken from the queue, and what is left in it. -/
def AllocateStack (f : FakeStack) (size real_stack new_mem : ℕ) : Except FailedCheck (FakeStack × ℕ) :=
  if f.alive_ then
    if size ≤ kMaxStackMallocSize ∧ size > 1 then
      match ComputeSizeClass size with
      | none => .error .other
      | some size_class =>
        match if f.allocated_size_classes_ size_class = 0 then f.AllocateOneSizeClass size_class new_mem else some f with
        | none => .error .other
        | some f =>
          match f.size_classes_ size_class with
          | [] => .error .exhausted
          | fake_frame :: fifo =>
            let f := { f with
              size_classes_ := Function.update f.size_classes_ size_class fifo
              -- the fields have 16 and 48 bits
              size_minus_one := Function.update f.size_minus_one fake_frame ((size - 1) % 2^16)
              real_stack := Function.update f.real_stack fake_frame (real_stack % 2^48) }
            match reclaim real_stack f.call_stack_ f with
            | none => .error .other
            | some f => .ok ({ f with call_stack_ := fake_frame :: f.call_stack_ },fake_frame)
    else .error .other
  else .ok (f,real_stack)

/-- `magic` and `descr` are the instrumented code's. -/
def OnFree (f : FakeStack) (ptr size : ℕ) : Except FailedCheck FakeStack :=
  if f.size_minus_one ptr = size - 1 then .ok f else .error .other

inductive Act
  | AllocateStack (size real_stack new_mem : ℕ)
  | OnFree (ptr size : ℕ)
  deriving DecidableEq

def act (f : FakeStack) : Act → Except FailedCheck FakeStack
  | .AllocateStack size real_stack new_mem => (f.AllocateStack size real_stack new_mem).map Prod.fst
  | .OnFree ptr size => f.OnFree ptr size

instance (f : FakeStack) (a : Act) : Decidable (f.act a = .error .exhausted) :=
  match f.act a with
  | .ok _ => isFalse nofun
  | .error .exhausted => isTrue rfl
  | .error .other => isFalse nofun

/-- A call that returns. -/
def step (f : FakeStack) (a : Act) : Option FakeStack := (f.act a).toOption

/-! ## Size classes -/

variable {size c m mem : ℕ}

theorem ClassSize_eq (hc : c < 8) : ClassSize c = 2^(c + 9) := shl_one (by unfold kMinStackFrameSizeLog; omega)

/-- The class of a size. -/
def frameClass (size : ℕ) : ℕ := (ComputeSizeClass size).getD 0

/-- The class whose frames are just large enough. -/
structure IsClass (size c : ℕ) : Prop where
  lt : c < 8
  le : size ≤ 2^(c + 9)
  least : c = 0 ∨ 2^(c + 9) < 2 * size

theorem ComputeSizeClass_spec (hpos : 1 < size) (hle : size ≤ 2^16) :
    ComputeSizeClass size = some (frameClass size) ∧ IsClass size (frameClass size) := by
  obtain ⟨k,hk,hround,hup,hlt⟩ := roundUpToPowerOfTwo_spec (Nat.zero_lt_of_lt hpos) (by omega)
  have hkpos : 0 < k := by
    rcases Nat.eq_zero_or_pos k with rfl | h
    · omega
    · exact h
  have hk16 : k ≤ 16 := by
    rcases Nat.lt_or_ge 16 k with h | h
    · have h17 : 2^17 ≤ 2^k := Nat.pow_le_pow_right (by decide) h
      omega
    · exact h
  have hhalf : 2^(k - 1) < size := by
    obtain ⟨j,rfl⟩ : ∃ j, k = j + 1 := ⟨k - 1,by omega⟩
    rw [Nat.pow_succ] at hlt
    rw [Nat.add_sub_cancel]
    omega
  have hwrap : (k + (2^64 - 1)) % 2^64 = k - 1 := by omega
  have hres : (if k < 9 then 0 else k - 9) < 8 := by
    split_ifs
    · omega
    · omega
  have hclass : ComputeSizeClass size = some (if k < 9 then 0 else k - 9) := by
    have hsize : ClassSize (if k < 9 then 0 else k - 9) ≥ 2^k := by
      rw [ClassSize_eq hres]
      exact Nat.pow_le_pow_right (by decide) (by split_ifs <;> omega)
    rw [ComputeSizeClass, hround, Option.bind_eq_bind, Option.bind_some, log2_pow (by omega), Option.bind_some,
      hwrap, shl_one (by omega), shl_one (by omega), if_pos ⟨hup,hhalf⟩]
    exact if_pos ⟨hres,hsize⟩
  rw [frameClass, hclass, Option.getD_some]
  refine ⟨rfl,hres,?_,?_⟩
  · split_ifs with h9
    · exact hup.trans (Nat.pow_le_pow_right (by decide) (by omega))
    · rw [Nat.sub_add_cancel (Nat.le_of_not_lt h9)]
      exact hup
  · split_ifs with h9
    · exact Or.inl rfl
    · rw [Nat.sub_add_cancel (Nat.le_of_not_lt h9)]
      exact Or.inr hlt

/-- The size of a frame is not larger than a power of two which its size is not larger than. -/
theorem IsClass.log_le (h : IsClass size c) (hsize : size ≤ 2^m) (hm : 9 ≤ m) : c + 9 ≤ m := by
  rcases h.least with rfl | hlt
  · exact hm
  · have hpow : 2^(c + 9) < 2^(m + 1) := by
      rw [Nat.pow_succ 2 m]
      omega
    exact Nat.lt_succ_iff.mp ((Nat.pow_lt_pow_iff_right (by decide)).mp hpow)

/-- The frames of a class. -/
def slots (m c mem : ℕ) : List ℕ := (List.range (2^(m - (c + 9)))).map fun j => mem + j * 2^(c + 9)

theorem slotLoop_spec (mem n : ℕ) (fifo : List ℕ) {j fuel d : ℕ} (hd : 0 < d) (hj : j ≤ n) (hfuel : n < j + fuel) :
    slotLoop (n * d) d mem fuel (j * d) fifo =
      some (fifo ++ (List.range' j (n - j)).map fun j => mem + j * d,n * d) := by
  induction fuel generalizing j fifo with
  | zero => omega
  | succ fuel ih =>
    rw [slotLoop]
    rcases Nat.lt_or_eq_of_le hj with hlt | rfl
    · obtain ⟨k,hk⟩ : ∃ k, n - j = k + 1 := ⟨n - j - 1,by omega⟩
      have hk' : n - (j + 1) = k := by omega
      rw [if_pos (Nat.mul_lt_mul_of_pos_right hlt hd), ← Nat.succ_mul, ih _ hlt (by omega), hk, hk', List.range'_succ,
        List.map_cons, List.append_assoc, List.singleton_append]
    · rw [if_neg (lt_irrefl _), Nat.sub_self]
      simp

theorem mem_slots {p : ℕ} : p ∈ slots m c mem ↔ ∃ j < 2^(m - (c + 9)), p = mem + j * 2^(c + 9) := by
  simp only [slots, List.mem_map, List.mem_range, eq_comm]

theorem slots_nodup (m c mem : ℕ) : (slots m c mem).Nodup := by
  refine List.Nodup.map (fun i j h => ?_) List.nodup_range
  exact Nat.eq_of_mul_eq_mul_right (Nat.two_pow_pos _) (Nat.add_left_cancel h)

theorem length_slots (m c mem : ℕ) : (slots m c mem).length = 2^(m - (c + 9)) := by
  rw [slots, List.length_map, List.length_range]

/-- A frame lies in the memory of its class. -/
theorem slot_le {p : ℕ} (h : p ∈ slots m c mem) (hc : c + 9 ≤ m) : mem ≤ p ∧ p + 2^(c + 9) ≤ mem + 2^m := by
  obtain ⟨j,hj,rfl⟩ := mem_slots.mp h
  have hmul := Nat.mul_le_mul_right (2^(c + 9)) (Nat.succ_le_of_lt hj)
  rw [← Nat.pow_add, Nat.sub_add_cancel hc, Nat.succ_mul] at hmul
  omega

/-! ## Calls that were not passed by later ones -/

/-- The real stacks of the calls. -/
def realStacks : List Act → List ℕ
  | [] => []
  | .AllocateStack _ real_stack _ :: acts => real_stack :: realStacks acts
  | .OnFree _ _ :: acts => realStacks acts

/-- The sizes and the real stacks of the calls whose real stack, in its 48 bits, is above those of all later calls. -/
def kept : List Act → List (ℕ × ℕ)
  | [] => []
  | .AllocateStack size real_stack _ :: acts =>
    if ∀ r ∈ realStacks acts, r < real_stack % 2^48 then (size,real_stack % 2^48) :: kept acts else kept acts
  | .OnFree _ _ :: acts => kept acts

section Kept
variable {acts : List Act} {size real_stack new_mem ptr : ℕ}

theorem realStacks_append (acts acts' : List Act) : realStacks (acts ++ acts') = realStacks acts ++ realStacks acts' := by
  induction acts with
  | nil => rfl
  | cons a acts ih =>
    cases a with
    | AllocateStack size real_stack new_mem => rw [List.cons_append, realStacks, realStacks, ih, List.cons_append]
    | OnFree ptr size => exact ih

/-- A call passes those whose real stack is not above its own. -/
theorem kept_AllocateStack : kept (acts ++ [.AllocateStack size real_stack new_mem]) =
    (kept acts).filter (fun k => real_stack < k.2) ++ [(size,real_stack % 2^48)] := by
  induction acts with
  | nil => rfl
  | cons a acts ih =>
    cases a with
    | OnFree ptr size => exact ih
    | AllocateStack size' real_stack' new_mem' =>
      have hlast : realStacks [.AllocateStack size real_stack new_mem] = [real_stack] := rfl
      rw [List.cons_append, kept, kept, realStacks_append, hlast, ih]
      by_cases hold : ∀ r ∈ realStacks acts, r < real_stack' % 2^48
      · rw [if_pos hold]
        by_cases hnew : real_stack < real_stack' % 2^48
        · rw [if_pos, List.filter_cons_of_pos (by simpa using hnew), List.cons_append]
          intro r hr
          rcases List.mem_append.mp hr with hr | hr
          · exact hold r hr
          · rw [List.mem_singleton.mp hr]
            exact hnew
        · rw [if_neg, List.filter_cons_of_neg (by simpa using hnew)]
          intro hall
          exact hnew (hall real_stack (List.mem_append_right _ (List.mem_singleton.mpr rfl)))
      · rw [if_neg hold, if_neg fun hall => hold fun r hr => hall r (List.mem_append_left _ hr)]

theorem kept_OnFree : kept (acts ++ [.OnFree ptr size]) = kept acts := by
  have hstacks : ∀ acts, realStacks (acts ++ [.OnFree ptr size]) = realStacks acts := by
    intro acts
    rw [realStacks_append]
    exact List.append_nil _
  induction acts with
  | nil => rfl
  | cons a acts ih =>
    cases a with
    | OnFree ptr size => exact ih
    | AllocateStack size real_stack new_mem => rw [List.cons_append, kept, kept, hstacks, ih]

end Kept

/-! ## Frames and queues -/

/-- The frames of a class that has memory. -/
def cells (m c mem : ℕ) : List ℕ := if mem = 0 then [] else slots m c mem

/-- Every frame of a class is in its queue or in use, and is that once; `frames` are those in use. -/
structure Shape (S m : ℕ) (frames : List ℕ) (f : FakeStack) : Prop where
  alive : f.alive_ = true
  mmap : f.ClassMmapSize = some (2^m)
  sizes : ∀ p ∈ frames, 1 < f.size_minus_one p + 1 ∧ f.size_minus_one p + 1 ≤ 2^16 ∧ f.size_minus_one p + 1 ≤ S
  parts : ∀ c, (f.size_classes_ c ++ frames.filter fun p => frameClass (f.size_minus_one p + 1) = c).Perm
    (cells m c (f.allocated_size_classes_ c))
  apart : ∀ c c', c ≠ c' → f.allocated_size_classes_ c ≠ 0 → f.allocated_size_classes_ c' ≠ 0 →
    f.allocated_size_classes_ c + 2^m ≤ f.allocated_size_classes_ c' ∨
      f.allocated_size_classes_ c' + 2^m ≤ f.allocated_size_classes_ c
  classes : ∀ c, f.allocated_size_classes_ c ≠ 0 → c < kNumberOfFrameClasses ∧ c + 9 ≤ m

namespace Shape
variable {S p q new_mem size : ℕ} {frames rest : List ℕ} {f : FakeStack}

theorem setCall (h : Shape S m frames f) (call_stack : List ℕ) : Shape S m frames { f with call_stack_ := call_stack } :=
  ⟨h.alive,h.mmap,h.sizes,h.parts,h.apart,h.classes⟩

/-- What is in the queue or in use is a frame of the class. -/
theorem mem_slots_of_mem (h : Shape S m frames f)
    (hp : p ∈ f.size_classes_ c ++ frames.filter fun p => frameClass (f.size_minus_one p + 1) = c) :
    f.allocated_size_classes_ c ≠ 0 ∧ p ∈ slots m c (f.allocated_size_classes_ c) := by
  have hmem := (h.parts c).mem_iff.mp hp
  rw [cells] at hmem
  split_ifs at hmem with h0
  · cases hmem
  · exact ⟨h0,hmem⟩

theorem mem_slots (h : Shape S m frames f) (hp : p ∈ frames) :
    f.allocated_size_classes_ (frameClass (f.size_minus_one p + 1)) ≠ 0 ∧
      p ∈ slots m (frameClass (f.size_minus_one p + 1)) (f.allocated_size_classes_ (frameClass (f.size_minus_one p + 1))) :=
  h.mem_slots_of_mem (List.mem_append_right _ (List.mem_filter.mpr ⟨hp,decide_eq_true rfl⟩))

theorem nodup (h : Shape S m frames f) (c : ℕ) :
    (f.size_classes_ c ++ frames.filter fun p => frameClass (f.size_minus_one p + 1) = c).Nodup := by
  rw [(h.parts c).nodup_iff, cells]
  split_ifs
  · exact List.nodup_nil
  · exact slots_nodup _ _ _

/-- A frame belongs to one class. -/
theorem class_unique (h : Shape S m frames f) {c' : ℕ} (hc : f.allocated_size_classes_ c ≠ 0)
    (hc' : f.allocated_size_classes_ c' ≠ 0) (hp : p ∈ slots m c (f.allocated_size_classes_ c))
    (hp' : p ∈ slots m c' (f.allocated_size_classes_ c')) : c = c' := by
  by_contra hne
  have hle := slot_le hp (h.classes c hc).2
  have hle' := slot_le hp' (h.classes c' hc').2
  have hpos := Nat.two_pow_pos (c + 9)
  have hpos' := Nat.two_pow_pos (c' + 9)
  rcases h.apart c c' hne hc hc' with hapart | hapart
  · omega
  · omega

/-- What is in a queue is not in use. -/
theorem not_mem_of_queue (h : Shape S m frames f) (hp : p ∈ f.size_classes_ c) : p ∉ frames := by
  intro hframe
  obtain ⟨hc,hslot⟩ := h.mem_slots_of_mem (List.mem_append_left _ hp)
  obtain ⟨hc',hslot'⟩ := h.mem_slots hframe
  have hclass := h.class_unique hc hc' hslot hslot'
  have hdisjoint := (List.nodup_append.mp (h.nodup c)).2.2
  exact hdisjoint p hp p (List.mem_filter.mpr ⟨hframe,decide_eq_true hclass.symm⟩) rfl

/-- A frame that is not in use any more goes to the end of its queue. -/
theorem DeallocateFrame (h : Shape S m (p :: frames) f) : ∃ f', f.DeallocateFrame p = some f' ∧ Shape S m frames f' ∧
    f'.size_minus_one = f.size_minus_one ∧ f'.real_stack = f.real_stack := by
  obtain ⟨hpos,hle,hstack⟩ := h.sizes p List.mem_cons_self
  obtain ⟨hclass,hsize⟩ := ComputeSizeClass_spec hpos hle
  obtain ⟨halloc,hslot⟩ := h.mem_slots List.mem_cons_self
  generalize hc : frameClass (f.size_minus_one p + 1) = c at hclass hsize halloc hslot
  obtain ⟨hlow,hhigh⟩ := slot_le hslot (h.classes c halloc).2
  have hfit := hsize.le
  have hin : ∀ a, f.allocated_size_classes_ c ≤ a → a < f.allocated_size_classes_ c + 2^m →
      f.AddrIsInSizeClass a c = some true := by
    intro a hle hlt
    rw [AddrIsInSizeClass, h.mmap]
    simp [halloc, hle, hlt]
  refine ⟨{ f with size_classes_ := Function.update f.size_classes_ c (f.size_classes_ c ++ [p]) },?_,?_,rfl,rfl⟩
  · rw [FakeStack.DeallocateFrame, hclass]
    simp only [Option.bind_eq_bind, Option.bind_some]
    rw [hin p hlow (by omega), Option.bind_some, hin _ (by omega) (by omega), Option.bind_some,
      if_pos ⟨h.alive,halloc,rfl,rfl⟩]
  · refine ⟨h.alive,h.mmap,fun q hq => h.sizes q (List.mem_cons_of_mem _ hq),fun c' => ?_,h.apart,h.classes⟩
    have hparts := h.parts c'
    dsimp only
    by_cases heq : c' = c
    · subst heq
      rw [List.filter_cons_of_pos (by simpa using hc)] at hparts
      rw [Function.update_self, List.append_assoc, List.singleton_append]
      exact hparts
    · rw [List.filter_cons_of_neg (by simpa [hc] using Ne.symm heq)] at hparts
      rw [Function.update_of_ne heq]
      exact hparts

/-- The frames up to the first one above the real stack are given back. -/
theorem reclaim {held : List ℕ} (real_stack : ℕ) (h : Shape S m (held ++ rest) f) :
    ∃ f', reclaim real_stack rest f = some f' ∧
      f'.call_stack_ = rest.dropWhile (fun p => f.real_stack p ≤ real_stack) ∧ Shape S m (held ++ f'.call_stack_) f' ∧
        f'.size_minus_one = f.size_minus_one ∧ f'.real_stack = f.real_stack := by
  induction rest generalizing f with
  | nil => exact ⟨_,rfl,rfl,h.setCall [],rfl,rfl⟩
  | cons top rest ih =>
    rw [FakeStack.reclaim]
    by_cases habove : f.real_stack top > real_stack
    · rw [if_pos habove, List.dropWhile_cons_of_neg (by simpa using habove)]
      exact ⟨_,rfl,rfl,h.setCall _,rfl,rfl⟩
    · have hmoved : Shape S m (top :: (held ++ rest)) f := by
        have hperm : (held ++ top :: rest).Perm (top :: (held ++ rest)) := List.perm_middle
        refine ⟨h.alive,h.mmap,fun q hq => h.sizes q (hperm.mem_iff.mpr hq),fun c => ?_,h.apart,h.classes⟩
        exact ((hperm.filter _).symm.append_left _).trans (h.parts c)
      obtain ⟨f₁,h₁,hshape,hsize,hreal⟩ := hmoved.DeallocateFrame
      obtain ⟨f',h',hcall,hshape',hsize',hreal'⟩ := ih hshape
      refine ⟨f',?_,?_,hshape',hsize'.trans hsize,hreal'.trans hreal⟩
      · rw [if_neg habove, h₁, Option.bind_some, h']
      · rw [hcall, hreal, List.dropWhile_cons_of_pos (by simpa using habove)]

/-- Memory for a class that has none yet. -/
theorem AllocateOneSizeClass (h : Shape S m frames f) (hc : c < 8) (hlog : c + 9 ≤ m) (hm : 12 ≤ m)
    (hnone : f.allocated_size_classes_ c = 0) (hmem : new_mem ≠ 0)
    (hfree : ∀ c', f.allocated_size_classes_ c' ≠ 0 →
      f.allocated_size_classes_ c' + 2^m ≤ new_mem ∨ new_mem + 2^m ≤ f.allocated_size_classes_ c') :
    ∃ f', f.AllocateOneSizeClass c new_mem = some f' ∧ Shape S m frames f' ∧ f'.allocated_size_classes_ c ≠ 0 ∧
      f'.call_stack_ = f.call_stack_ ∧ f'.size_minus_one = f.size_minus_one ∧ f'.real_stack = f.real_stack := by
  have hparts := h.parts c
  rw [cells, if_pos hnone, List.perm_nil, List.append_eq_nil_iff] at hparts
  obtain ⟨hqueue,hframes⟩ := hparts
  have hcount : 2^(m - (c + 9)) * 2^(c + 9) = 2^m := by rw [← Nat.pow_add, Nat.sub_add_cancel hlog]
  have hloop : slotLoop (2^m) (ClassSize c) new_mem (2^m + 1) 0 (f.size_classes_ c) =
      some (slots m c new_mem,2^m) := by
    have hle := Nat.le_mul_of_pos_right (2^(m - (c + 9))) (Nat.two_pow_pos (c + 9))
    have hspec := slotLoop_spec new_mem (2^(m - (c + 9))) [] (j := 0) (Nat.two_pow_pos (c + 9)) (Nat.zero_le _)
      (Nat.lt_add_left 0 (Nat.lt_succ_of_le hle))
    rw [hcount, Nat.zero_mul, Nat.sub_zero, ← List.range_eq_range'] at hspec
    rw [ClassSize_eq hc, hqueue, hspec]
    rfl
  have hpage : kPageSize ≤ 2^m := Nat.pow_le_pow_right (by decide : 0 < 2) hm
  refine ⟨{ f with
    size_classes_ := Function.update f.size_classes_ c (slots m c new_mem)
    allocated_size_classes_ := Function.update f.allocated_size_classes_ c new_mem },?_,?_,?_,rfl,rfl,rfl⟩
  · rw [FakeStack.AllocateOneSizeClass, h.mmap, Option.bind_eq_bind, Option.bind_some, if_pos hpage, hloop,
      Option.bind_eq_bind, Option.bind_some]
    exact if_pos rfl
  · refine ⟨h.alive,h.mmap,h.sizes,fun c' => ?_,fun c₁ c₂ hne h₁ h₂ => ?_,fun c' h' => ?_⟩
    · dsimp only
      by_cases heq : c' = c
      · subst heq
        rw [Function.update_self, Function.update_self, hframes, List.append_nil, cells, if_neg hmem]
      · rw [Function.update_of_ne heq, Function.update_of_ne heq]
        exact h.parts c'
    · dsimp only at h₁ h₂ ⊢
      simp only [Function.update_apply] at h₁ h₂ ⊢
      split_ifs at h₁ h₂ ⊢ with heq₁ heq₂ heq₂
      · exact absurd (heq₁.trans heq₂.symm) hne
      · exact (hfree c₂ h₂).symm
      · exact hfree c₁ h₁
      · exact h.apart c₁ c₂ hne h₁ h₂
    · dsimp only at h'
      rw [Function.update_apply] at h'
      split_ifs at h' with heq
      · exact heq ▸ ⟨hc,hlog⟩
      · exact h.classes c' h'
  · dsimp only
    rw [Function.update_self]
    exact hmem

/-- The first frame of a queue is taken into use. -/
theorem take {fifo : List ℕ} (h : Shape S m frames f) (hqueue : f.size_classes_ (frameClass size) = p :: fifo)
    (hpos : 1 < size) (hle : size ≤ 2^16) (hstack : size ≤ S) (real_stack : ℕ) : Shape S m (p :: frames) { f with
      size_classes_ := Function.update f.size_classes_ (frameClass size) fifo
      size_minus_one := Function.update f.size_minus_one p ((size - 1) % 2^16)
      real_stack := Function.update f.real_stack p real_stack } := by
  have hfirst : p ∈ f.size_classes_ (frameClass size) := hqueue ▸ List.mem_cons_self
  have hnot : p ∉ frames := h.not_mem_of_queue hfirst
  have hother : ∀ q ∈ frames, Function.update f.size_minus_one p ((size - 1) % 2^16) q = f.size_minus_one q :=
    fun q hq => Function.update_of_ne (ne_of_mem_of_not_mem hq hnot) _ _
  have hself : (size - 1) % 2^16 + 1 = size := by omega
  refine ⟨h.alive,h.mmap,fun q hq => ?_,fun c => ?_,h.apart,h.classes⟩
  · dsimp only
    rcases List.mem_cons.mp hq with rfl | hq
    · rw [Function.update_self, hself]
      exact ⟨hpos,hle,hstack⟩
    · rw [hother q hq]
      exact h.sizes q hq
  · have hparts := h.parts c
    have hclass : frameClass (Function.update f.size_minus_one p ((size - 1) % 2^16) p + 1) = frameClass size := by
      rw [Function.update_self, hself]
    have hfilter : (frames.filter fun q => frameClass (Function.update f.size_minus_one p ((size - 1) % 2^16) q + 1) = c) =
        frames.filter fun q => frameClass (f.size_minus_one q + 1) = c :=
      List.filter_congr fun q hq => by rw [hother q hq]
    dsimp only
    by_cases hc : frameClass size = c
    · subst hc
      rw [hqueue, List.cons_append] at hparts
      rw [Function.update_self, List.filter_cons_of_pos (by rw [decide_eq_true_eq]; exact hclass),
        hfilter]
      exact List.perm_middle.trans hparts
    · rw [Function.update_of_ne (Ne.symm hc), List.filter_cons_of_neg (by rw [hclass]; simpa using hc),
        hfilter]
      exact hparts

end Shape

/-! ## Runs -/

/-- The call stack holds the calls that were not passed, and the one with the lowest real stack is its top. -/
structure Good (S m : ℕ) (acts : List Act) (f : FakeStack) : Prop where
  shape : Shape S m f.call_stack_ f
  history : f.call_stack_.map (fun p => (f.size_minus_one p + 1,f.real_stack p)) = (kept acts).reverse
  sorted : f.call_stack_.Pairwise fun p q => f.real_stack p < f.real_stack q

/-- The frames of a size's class among the calls that were not passed. -/
def pending (acts : List Act) (size : ℕ) : ℕ := ((kept acts).filter fun k => frameClass k.1 = frameClass size).length

/-- Sizes are those of frames on the stack, memory for a class is new, and a frame is freed with its size. -/
def Legal (S m : ℕ) (f : FakeStack) : Act → Prop
  | .AllocateStack size _ new_mem => 1 < size ∧ size ≤ 2^16 ∧ size ≤ S ∧
    (f.allocated_size_classes_ (frameClass size) = 0 → new_mem ≠ 0 ∧
      ∀ c < kNumberOfFrameClasses, f.allocated_size_classes_ c ≠ 0 →
      f.allocated_size_classes_ c + 2^m ≤ new_mem ∨ new_mem + 2^m ≤ f.allocated_size_classes_ c)
  | .OnFree ptr size => f.size_minus_one ptr = size - 1

instance {S : ℕ} (f : FakeStack) (a : Act) : Decidable (Legal S m f a) :=
  match a with
  | .AllocateStack .. => inferInstanceAs (Decidable (_ ∧ _))
  | .OnFree .. => inferInstanceAs (Decidable (_ = _))

/-- The frames of a size's class. -/
def frameCount (m size : ℕ) : ℕ := 2^(m - (frameClass size + 9))

/-- Fewer of the earlier calls are pending than there are frames. -/
def RoomFor (m : ℕ) (acts : List Act) : Act → Prop
  | .AllocateStack size _ _ => pending acts size < frameCount m size
  | .OnFree _ _ => True

instance (acts : List Act) (a : Act) : Decidable (RoomFor m acts a) :=
  match a with
  | .AllocateStack .. => inferInstanceAs (Decidable (_ < _))
  | .OnFree .. => isTrue trivial

/-- There is room for every call that comes after `acts`. -/
def Room (m : ℕ) : List Act → List Act → Prop
  | _, [] => True
  | acts, a :: rest => RoomFor m acts a ∧ Room m (acts ++ [a]) rest

instance decidableRoom : ∀ acts rest, Decidable (Room m acts rest)
  | _,[] => isTrue trivial
  | acts,a :: rest =>
    have := decidableRoom (acts ++ [a]) rest
    inferInstanceAs (Decidable (RoomFor m acts a ∧ Room m (acts ++ [a]) rest))

/-- Every frame is in its queue or on the call stack, once, and live frames do not overlap. -/
structure Partitioned (m : ℕ) (f : FakeStack) : Prop where
  parts : ∀ c, (f.size_classes_ c ++ f.call_stack_.filter fun p => frameClass (f.size_minus_one p + 1) = c).Perm
    (cells m c (f.allocated_size_classes_ c))
  apart : f.call_stack_.Pairwise fun p q => p + (f.size_minus_one p + 1) ≤ q ∨ q + (f.size_minus_one q + 1) ≤ p

namespace Good
variable {S size real_stack new_mem : ℕ} {acts : List Act} {f : FakeStack}

/-- The queue of a class with memory has the frames that are not pending. -/
theorem length_queue (h : Good S m acts f) (halloc : f.allocated_size_classes_ (frameClass size) ≠ 0) :
    (f.size_classes_ (frameClass size)).length + pending acts size = frameCount m size := by
  have hlen := (h.shape.parts (frameClass size)).length_eq
  rw [List.length_append, cells, if_neg halloc, length_slots] at hlen
  have hpending : (f.call_stack_.filter fun p => frameClass (f.size_minus_one p + 1) = frameClass size).length =
      pending acts size := by
    have hmap : (f.call_stack_.filter fun p => frameClass (f.size_minus_one p + 1) = frameClass size).length =
        ((f.call_stack_.map fun p => (f.size_minus_one p + 1,f.real_stack p)).filter
          fun k => frameClass k.1 = frameClass size).length := by
      rw [List.filter_map, List.length_map]
      rfl
    rw [hmap, h.history, List.filter_reverse, List.length_reverse]
    rfl
  rw [← hpending]
  exact hlen

/-- The calls that are passed are the first ones on the call stack. -/
theorem dropWhile_eq {frames : List ℕ} {key : ℕ → ℕ} (h : frames.Pairwise fun p q => key p < key q) (r : ℕ) :
    frames.dropWhile (fun p => key p ≤ r) = frames.filter fun p => r < key p := by
  induction frames with
  | nil => rfl
  | cons p frames ih =>
    obtain ⟨hp,hframes⟩ := List.pairwise_cons.mp h
    by_cases hle : key p ≤ r
    · rw [List.dropWhile_cons_of_pos (by simpa using hle), List.filter_cons_of_neg (by simpa using hle), ih hframes]
    · have hlt := Nat.lt_of_not_le hle
      rw [List.dropWhile_cons_of_neg (by simpa using hle), List.filter_eq_self.mpr]
      intro q hq
      rcases List.mem_cons.mp hq with rfl | hq
      · exact decide_eq_true hlt
      · exact decide_eq_true (hlt.trans (hp q hq))

/-- A frame is taken from a queue that is not empty. -/
theorem AllocateStack_cons (real_stack new_mem : ℕ) {p : ℕ} {fifo : List ℕ} (h : Good S m acts f)
    (hqueue : f.size_classes_ (frameClass size) = p :: fifo) (hpos : 1 < size) (hle : size ≤ 2^16) (hstack : size ≤ S) :
    ∃ f', reclaim real_stack f.call_stack_ { f with
        size_classes_ := Function.update f.size_classes_ (frameClass size) fifo
        size_minus_one := Function.update f.size_minus_one p ((size - 1) % 2^16)
        real_stack := Function.update f.real_stack p (real_stack % 2^48) } = some f' ∧
      Good S m (acts ++ [.AllocateStack size real_stack new_mem]) { f' with call_stack_ := p :: f'.call_stack_ } := by
  have hfirst : p ∈ f.size_classes_ (frameClass size) := hqueue ▸ List.mem_cons_self
  have hnot : p ∉ f.call_stack_ := h.shape.not_mem_of_queue hfirst
  have hne : ∀ q ∈ f.call_stack_, q ≠ p := fun q hq => ne_of_mem_of_not_mem hq hnot
  have hself : (size - 1) % 2^16 + 1 = size := by omega
  have htake : Shape S m ([p] ++ f.call_stack_) _ := h.shape.take hqueue hpos hle hstack (real_stack % 2^48)
  obtain ⟨f',h',hcall,hshape,hsize,hreal⟩ := htake.reclaim real_stack
  dsimp only at hcall hsize hreal
  have hcall' : f'.call_stack_ = f.call_stack_.filter fun q => real_stack < f.real_stack q := by
    have hsame : (f.call_stack_.dropWhile fun q => Function.update f.real_stack p (real_stack % 2^48) q ≤ real_stack) =
        f.call_stack_.dropWhile fun q => f.real_stack q ≤ real_stack := by
      have hsorted : f.call_stack_.Pairwise fun q q' => Function.update f.real_stack p (real_stack % 2^48) q <
          Function.update f.real_stack p (real_stack % 2^48) q' :=
        h.sorted.imp_of_mem fun hq hq' hlt => by rwa [Function.update_of_ne (hne _ hq), Function.update_of_ne (hne _ hq')]
      rw [dropWhile_eq hsorted, dropWhile_eq h.sorted]
      exact List.filter_congr fun q hq => by rw [Function.update_of_ne (hne q hq)]
    rw [hcall, hsame, dropWhile_eq h.sorted]
  have hsub : ∀ q ∈ f'.call_stack_, q ≠ p ∧ real_stack < f.real_stack q := by
    intro q hq
    rw [hcall', List.mem_filter] at hq
    exact ⟨hne q hq.1,of_decide_eq_true hq.2⟩
  refine ⟨f',h',hshape.setCall _,?_,?_⟩
  · dsimp only
    have hrest : f'.call_stack_.map (fun q => (f'.size_minus_one q + 1,f'.real_stack q)) =
        f'.call_stack_.map fun q => (f.size_minus_one q + 1,f.real_stack q) := by
      refine List.map_congr_left fun q hq => ?_
      rw [hsize, hreal, Function.update_of_ne (hsub q hq).1, Function.update_of_ne (hsub q hq).1]
    rw [List.map_cons, hrest, hsize, hreal, Function.update_self, Function.update_self, hself, kept_AllocateStack,
      List.reverse_append, List.reverse_singleton, List.singleton_append, ← List.filter_reverse, ← h.history, hcall',
      List.filter_map]
    rfl
  · dsimp only
    rw [hreal]
    refine List.pairwise_cons.mpr ⟨fun q hq => ?_,?_⟩
    · rw [Function.update_self, Function.update_of_ne (hsub q hq).1]
      exact (Nat.mod_le _ _).trans_lt (hsub q hq).2
    · have hsorted := h.sorted.filter fun q => real_stack < f.real_stack q
      rw [← hcall'] at hsorted
      refine hsorted.imp_of_mem fun hq hq' hlt => ?_
      rwa [Function.update_of_ne (hsub _ hq).1, Function.update_of_ne (hsub _ hq').1]

/-- The memory of the class, which is mapped if there is none yet. -/
theorem mapped (h : Good S m acts f) (hm : 12 ≤ m) (hS : S ≤ 2^m)
    (hlegal : Legal S m f (.AllocateStack size real_stack new_mem)) :
    ∃ f₁, (if f.allocated_size_classes_ (frameClass size) = 0 then f.AllocateOneSizeClass (frameClass size) new_mem
      else some f) = some f₁ ∧ Good S m acts f₁ ∧ f₁.allocated_size_classes_ (frameClass size) ≠ 0 := by
  obtain ⟨hpos,hle,hstack,hfree⟩ := hlegal
  have hclass := (ComputeSizeClass_spec hpos hle).2
  by_cases hnone : f.allocated_size_classes_ (frameClass size) = 0
  · obtain ⟨hmem,hapart⟩ := hfree hnone
    have hlog := hclass.log_le (hstack.trans hS) (by omega)
    obtain ⟨f₁,h₁,hshape,halloc,hcall,hsize,hreal⟩ := h.shape.AllocateOneSizeClass hclass.lt hlog hm hnone hmem
      fun c hc => hapart c (h.shape.classes c hc).1 hc
    refine ⟨f₁,(if_pos hnone).trans h₁,⟨hcall.symm ▸ hshape,?_,?_⟩,halloc⟩
    · rw [hcall, hsize, hreal]
      exact h.history
    · rw [hcall, hreal]
      exact h.sorted
  · exact ⟨f,if_neg hnone,h,hnone⟩

/-- A call returns exactly if there is room for one more frame. -/
theorem AllocateStack (h : Good S m acts f) (hm : 12 ≤ m) (hS : S ≤ 2^m)
    (hlegal : Legal S m f (.AllocateStack size real_stack new_mem)) :
    (pending acts size < frameCount m size → ∃ f' p, f.AllocateStack size real_stack new_mem = .ok (f',p) ∧
      Good S m (acts ++ [.AllocateStack size real_stack new_mem]) f') ∧
    (¬pending acts size < frameCount m size → f.AllocateStack size real_stack new_mem = .error .exhausted) := by
  obtain ⟨f₁,h₁,hgood,halloc⟩ := h.mapped hm hS hlegal
  obtain ⟨hpos,hle,hstack,-⟩ := hlegal
  have hclass := (ComputeSizeClass_spec hpos hle).1
  have hmax : size ≤ kMaxStackMallocSize ∧ size > 1 := ⟨hle,hpos⟩
  have hlen := hgood.length_queue halloc
  constructor
  · intro hroom
    cases hqueue : f₁.size_classes_ (frameClass size) with
    | nil =>
      rw [hqueue, List.length_nil, Nat.zero_add] at hlen
      omega
    | cons p fifo =>
      obtain ⟨f',h',hgood'⟩ := hgood.AllocateStack_cons real_stack new_mem hqueue hpos hle hstack
      refine ⟨_,p,?_,hgood'⟩
      rw [FakeStack.AllocateStack, if_pos h.shape.alive, if_pos hmax, hclass]
      dsimp only
      rw [h₁]
      dsimp only
      rw [hqueue]
      dsimp only
      rw [h']
  · intro hfull
    have hempty : f₁.size_classes_ (frameClass size) = [] := by
      rw [← List.length_eq_zero_iff]
      omega
    rw [FakeStack.AllocateStack, if_pos h.shape.alive, if_pos hmax, hclass]
    dsimp only
    rw [h₁]
    dsimp only
    rw [hempty]

theorem partitioned (h : Good S m acts f) : Partitioned m f := by
  refine ⟨h.shape.parts,h.sorted.imp_of_mem fun {p q} hp hq hlt => ?_⟩
  have hne : p ≠ q := by
    rintro rfl
    exact lt_irrefl _ hlt
  obtain ⟨hp1,hp2,-⟩ := h.shape.sizes p hp
  obtain ⟨hq1,hq2,-⟩ := h.shape.sizes q hq
  have hpsize := (ComputeSizeClass_spec hp1 hp2).2.le
  have hqsize := (ComputeSizeClass_spec hq1 hq2).2.le
  obtain ⟨hpalloc,hpslot⟩ := h.shape.mem_slots hp
  obtain ⟨hqalloc,hqslot⟩ := h.shape.mem_slots hq
  generalize frameClass (f.size_minus_one p + 1) = c at hpsize hpalloc hpslot
  generalize frameClass (f.size_minus_one q + 1) = c' at hqsize hqalloc hqslot
  by_cases hc : c = c'
  · subst hc
    obtain ⟨i,-,hi⟩ := mem_slots.mp hpslot
    obtain ⟨j,-,hj⟩ := mem_slots.mp hqslot
    rcases Nat.lt_trichotomy i j with hij | rfl | hij
    · have hmul := Nat.mul_le_mul_right (2^(c + 9)) (Nat.succ_le_of_lt hij)
      rw [Nat.succ_mul] at hmul
      omega
    · exact absurd (hi.trans hj.symm) hne
    · have hmul := Nat.mul_le_mul_right (2^(c + 9)) (Nat.succ_le_of_lt hij)
      rw [Nat.succ_mul] at hmul
      omega
  · have hple := slot_le hpslot (h.shape.classes c hpalloc).2
    have hqle := slot_le hqslot (h.shape.classes c' hqalloc).2
    rcases h.shape.apart c c' hc hpalloc hqalloc with hapart | hapart
    · omega
    · omega

/-- A step keeps the invariant, and the one that does not return has no room. -/
theorem step (h : Good S m acts f) (hm : 12 ≤ m) (hS : S ≤ 2^m) {a : Act} (hlegal : Legal S m f a) :
    (RoomFor m acts a → ∃ f', f.act a = .ok f' ∧ Good S m (acts ++ [a]) f') ∧
    (¬RoomFor m acts a → f.act a = .error .exhausted) := by
  cases a with
  | AllocateStack size real_stack new_mem =>
    obtain ⟨hroom,hfull⟩ := h.AllocateStack hm hS hlegal
    refine ⟨fun hr => ?_,fun hr => ?_⟩
    · obtain ⟨f',p,h',hgood⟩ := hroom hr
      exact ⟨f',congrArg (Except.map Prod.fst) h',hgood⟩
    · exact congrArg (Except.map Prod.fst) (hfull hr)
  | OnFree ptr size =>
    have hfree : f.act (.OnFree ptr size) = .ok f := if_pos hlegal
    have hsame : kept (acts ++ [.OnFree ptr size]) = kept acts := kept_OnFree
    refine ⟨fun _ => ⟨f,hfree,h.shape,?_,h.sorted⟩,fun hr => absurd trivial hr⟩
    rw [hsame]
    exact h.history

/-- The run goes on as long as there is room. -/
theorem run (hm : 12 ≤ m) (hS : S ≤ 2^m) {rest : List Act} (h : Good S m acts f)
    (hlegal : Transition.AllTried FakeStack.step (Legal S m) f rest) :
    (Transition.AllTried FakeStack.step (fun f a => f.act a ≠ .error .exhausted) f rest ↔ Room m acts rest) ∧
      Transition.AllStates FakeStack.step (Partitioned m) f rest := by
  induction rest generalizing acts f with
  | nil => exact ⟨Iff.rfl,h.partitioned⟩
  | cons a rest ih =>
    obtain ⟨hroom,hfull⟩ := h.step hm hS hlegal.1
    by_cases hr : RoomFor m acts a
    · obtain ⟨f',h',hgood⟩ := hroom hr
      have hstep : f.step a = some f' := congrArg Except.toOption h'
      have hnot : f.act a ≠ .error .exhausted := by
        rw [h']
        nofun
      obtain ⟨hrest,hstates⟩ := ih hgood (hlegal.2 f' hstep)
      refine ⟨?_,h.partitioned,fun f₁ h₁ => ?_⟩
      · rw [Transition.allTried_cons hstep, hrest]
        exact and_congr_left fun _ => iff_of_true hnot hr
      · rw [hstep] at h₁
        exact Option.some.inj h₁ ▸ hstates
    · have hstep : f.step a = none := congrArg Except.toOption (hfull hr)
      refine ⟨iff_of_false (fun hall => hall.1 (hfull hr)) fun hall => hr hall.1,h.partitioned,fun f₁ h₁ => ?_⟩
      exact nomatch hstep.symm.trans h₁

end Good

theorem Init_good {S : ℕ} (hround : RoundUpToPowerOfTwo S = some (2^m)) : Good S m [] (Init S) where
  shape := {
    alive := rfl
    mmap := hround
    sizes := fun _ hp => nomatch hp
    parts := fun _ => List.Perm.nil
    apart := fun _ _ _ hc => absurd rfl hc
    classes := fun _ hc => absurd rfl hc }
  history := rfl
  sorted := List.Pairwise.nil

theorem le_of_round {S : ℕ} (hround : RoundUpToPowerOfTwo S = some (2^m)) : S ≤ 2^m := by
  rw [RoundUpToPowerOfTwo] at hround
  dsimp only at hround
  split_ifs at hround with hne hpow hbounds
  · exact (Option.some.inj hround).le
  · exact Option.some.inj hround ▸ hbounds.1.le

/-- The queues run dry exactly when so many calls of a class are pending that the real stack, rounded up, has no more
frames of its size. -/
theorem AllocateStack_room_iff {S : ℕ} (hS : kPageSize ≤ S) (hround : RoundUpToPowerOfTwo S = some (2^m))
    {acts : List Act} (hlegal : Transition.AllTried step (Legal S m) (Init S) acts) :
    (Transition.AllTried step (fun f a => f.act a ≠ .error .exhausted) (Init S) acts ∧
      Transition.AllStates step (Partitioned m) (Init S) acts) ↔ Room m [] acts := by
  have hpow := le_of_round hround
  have hm : 12 ≤ m := (Nat.pow_le_pow_iff_right (by decide : 1 < 2)).mp (hS.trans hpow)
  obtain ⟨hrun,hstates⟩ := (Init_good hround).run hm hpow hlegal
  exact (and_iff_left hstates).trans hrun

/-- Frames are reclaimed by the call after the one that returned, and one is freed. -/
theorem AllocateStack_room_iff_calls : Transition.AllTried step (fun f a => f.act a ≠ .error .exhausted) (Init 4096)
      [.AllocateStack 64 0x9000 0x10000,.AllocateStack 600 0x8800 0x20000,.OnFree 0x20000 600,
        .AllocateStack 700 0x8800 0x30000] ∧
    Transition.AllStates step (Partitioned 12) (Init 4096)
      [.AllocateStack 64 0x9000 0x10000,.AllocateStack 600 0x8800 0x20000,.OnFree 0x20000 600,
        .AllocateStack 700 0x8800 0x30000] :=
  (AllocateStack_room_iff (by decide) (by decide +kernel) (by decide +kernel)).mpr (by decide +kernel)

/-- Calls of functions that call each other: each frame is below its caller's, and in the real stack. -/
def NestedCalls (bottom : ℕ) : ℕ → List Act → Prop
  | _, [] => True
  | top, .AllocateStack size real_stack _ :: acts =>
    bottom ≤ real_stack ∧ real_stack + size ≤ top ∧ NestedCalls bottom real_stack acts
  | _, .OnFree _ _ :: _ => False

/-- Nine nested frames of 64 bytes need more than the eight slots of a page. -/
theorem AllocateStack_nineCalls :
    NestedCalls 0x8000 0x9000 ((List.range 9).map fun i => .AllocateStack 64 (0x9000 - 64 * (i + 1)) 0x10000) ∧
    Transition.AllTried step (Legal 4096 12) (Init 4096)
      ((List.range 9).map fun i => .AllocateStack 64 (0x9000 - 64 * (i + 1)) 0x10000) ∧
    ¬Transition.AllTried step (fun f a => f.act a ≠ .error .exhausted) (Init 4096)
      ((List.range 9).map fun i => .AllocateStack 64 (0x9000 - 64 * (i + 1)) 0x10000) := by
  refine ⟨?_,?_,?_⟩
  · simp [List.range_succ, NestedCalls]
  · decide +kernel
  · decide +kernel

end FakeStack

end CompilerRt.AsanAllocator
