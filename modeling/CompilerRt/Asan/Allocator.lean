import CompilerRt.Asan.MallocInfo
import CompilerRt.Lib.Transition
import Mathlib

/-! # Allocation and deallocation

`Allocate` and `Deallocate` of `lib/asan/asan_allocator.cc`, and the start and the end of a thread. A thread is known
by its number; where there is no such thread, `GetCurrent` has none.
-/
namespace CompilerRt.AsanAllocator
open Sanitizer AsanMapping
open AsanChunk

namespace MallocInfo
variable (flags : Flags) (mmap : ℕ → ℕ) (s : MallocInfo)

def kMinAllocSize : ℕ := flags.redzone * 2

def PoisonHeapPartialRightRedzone (shadow : Shadow) (mem size : ℕ) : Except Stop Shadow := do
  CHECK (size ≤ flags.redzone)
  CHECK (IsAligned mem flags.redzone)
  CHECK (IsPowerOfTwo SHADOW_GRANULARITY)
  CHECK (IsPowerOfTwo flags.redzone)
  CHECK (flags.redzone ≥ SHADOW_GRANULARITY)
  checked (PoisonShadowPartialRightRedzone .w64 shadow mem size flags.redzone kAsanHeapRightRedzoneMagic)

def PtrToChunk (mem : FlatMemory) (ptr : ℕ) : ℕ :=
  let m := ptr - flags.redzone
  if get mem m .chunk_state = CHUNK_MEMALIGN then m - get mem m .used_size else m

/-- The size rounded up, and the one with the redzone and room for the alignment. -/
def neededSize (alignment size : ℕ) : Except Stop (ℕ × ℕ) := do
  CHECK (IsPowerOfTwo alignment)
  let rounded_size ← checked (RoundUpTo size flags.redzone)
  let needed_size := (rounded_size + flags.redzone) % 2^64
  let needed_size := if alignment > flags.redzone then (needed_size + alignment) % 2^64 else needed_size
  CHECK (IsAligned needed_size flags.redzone)
  pure (rounded_size,needed_size)

/-- A chunk from the global storage, or from the list of the thread. -/
def takeChunk (t : ℕ) (size_class size_to_allocate : ℕ) : Except Stop (ℕ × MallocInfo) :=
  match s.threads t with
  | none => AllocateChunks mmap size_class 1 0 s
  | some x =>
    if size_to_allocate ≥ kMaxSizeForThreadLocalFreeList then AllocateChunks mmap size_class 1 0 s
    else do
      let (m,s) ← if x.free_lists_ size_class = 0 then
          AllocateChunks mmap size_class (kMaxSizeForThreadLocalFreeList / size_to_allocate) 0 s
        else pure (x.free_lists_ size_class,s)
      let x := { x with free_lists_ := Function.update x.free_lists_ size_class (get s.memory m .next) }
      pure (m,{ s with threads := Function.update s.threads t (some x) })

/-- The header of a chunk that is handed out, and the address for the user. -/
def initChunk (mem : FlatMemory) (m alignment size size_to_allocate : ℕ) : Except Stop (FlatMemory × ℕ) := do
  CHECK (m ≠ 0)
  CHECK (get mem m .chunk_state = CHUNK_AVAILABLE)
  let mem := set mem m .chunk_state CHUNK_ALLOCATED
  let mem := set mem m .next 0
  CHECK (Size mem m = some size_to_allocate)
  let addr := m + flags.redzone
  CHECK (addr ≤ compressed_free_stack flags.redzone m)
  let (mem,addr) ← if alignment > flags.redzone ∧ addr &&& mask alignment ≠ 0 then do
      let addr ← checked (RoundUpTo addr alignment)
      CHECK (addr &&& mask alignment = 0)
      let p := addr - flags.redzone
      let mem := set mem p .chunk_state CHUNK_MEMALIGN
      let mem := set mem p .used_size (p - m)
      let log ← checked (Log2 alignment)
      let mem := set mem m .alignment_log log
      CHECK (Beg mem m = some addr)
      pure (mem,addr)
    else do
      let log ← checked (Log2 flags.redzone)
      pure (set mem m .alignment_log log,addr)
  CHECK (m = PtrToChunk flags mem addr)
  let mem := set mem m .used_size size
  CHECK (Beg mem m = some addr)
  pure (mem,addr)

/-- What is left once there is a chunk. -/
def finish (t : ℕ) (m alignment size rounded_size size_to_allocate : ℕ) (stack : StackTrace 64) :
    Except Stop (ℕ × MallocInfo) := do
  let (mem,addr) ← initChunk flags s.memory m alignment size size_to_allocate
  let mem := set mem m .alloc_tid (if (s.threads t).isSome then t else 0)
  let mem := set mem m .free_tid kInvalidTid
  let mem ← checked (CompressStack stack mem (compressed_alloc_stack m) (compressed_alloc_stack_size flags.redzone))
  let shadow ← checked (PoisonShadow .w64 s.shadow addr rounded_size 0)
  let shadow ← if size < rounded_size then
      PoisonHeapPartialRightRedzone flags shadow (addr + rounded_size - flags.redzone) (size &&& mask flags.redzone)
    else pure shadow
  let mem := if size ≤ flags.max_malloc_fill_size then mem.fill addr rounded_size 0 else mem
  pure (addr,{ s with memory := mem, shadow := shadow })

/-- The address is zero if the request is refused. -/
def Allocate (t alignment size : ℕ) (stack : StackTrace 64) : Except Stop (ℕ × MallocInfo) := do
  let size := if size = 0 then 1 else size
  let (rounded_size,needed_size) ← neededSize flags alignment size
  if size > kMaxAllowedMallocSize ∨ needed_size > kMaxAllowedMallocSize then pure (0,s)
  else do
    let size_class ← checked (SizeToSizeClass needed_size)
    let size_to_allocate ← checked (SizeClassToSize size_class)
    CHECK (size_to_allocate ≥ kMinAllocSize flags)
    CHECK (size_to_allocate ≥ needed_size)
    CHECK (IsAligned size_to_allocate flags.redzone)
    let (m,s) ← s.takeChunk mmap t size_class size_to_allocate
    s.finish flags t m alignment size rounded_size size_to_allocate stack

/-- With the flag the address has to be in a group. -/
def debugCheck (ptr : ℕ) : Except Stop MallocInfo :=
  if flags.debug then do
    let (g,s) ← s.FindPageGroupUnlocked ptr
    CHECK (g ≠ 0)
    pure s
  else pure s

/-- The header and the shadow of a chunk that is freed. -/
def retire (t m ptr : ℕ) (stack : StackTrace 64) : Except Stop MallocInfo :=
  let old_chunk_state := get s.memory m .chunk_state
  let mem := set s.memory m .chunk_state CHUNK_QUARANTINE
  if old_chunk_state = CHUNK_QUARANTINE then .error .doubleFree
  else if old_chunk_state ≠ CHUNK_ALLOCATED then .error .freeNotMalloced
  else do
    CHECK (flags.redzone ≤ 16 ∨ get mem m .next = 0)
    CHECK (get mem m .free_tid = kInvalidTid)
    let mem := set mem m .free_tid (if (s.threads t).isSome then t else 0)
    let mem ← checked (CompressStack stack mem (compressed_free_stack flags.redzone m)
      (compressed_free_stack_size flags.redzone))
    let rounded_size ← checked (RoundUpTo (get mem m .used_size) flags.redzone)
    let shadow ← checked (PoisonShadow .w64 s.shadow ptr rounded_size kAsanHeapFreeMagic)
    CHECK (get mem m .chunk_state = CHUNK_QUARANTINE)
    pure { s with memory := mem, shadow := shadow }

/-- A chunk that was freed goes to the list of the thread, or to the quarantine where there is no thread. -/
def enqueue (t m : ℕ) : Except Stop MallocInfo :=
  match s.threads t with
  | none => s.BypassThreadLocalQuarantine m
  | some x => do
    let (quarantine_,memory) ← x.quarantine_.Push m s.memory
    let x := { x with quarantine_ := quarantine_ }
    let s := { s with memory := memory, threads := Function.update s.threads t (some x) }
    if quarantine_.size_ > kMaxThreadLocalQuarantine then s.SwallowThreadLocalMallocStorage flags t false
    else pure s

def Deallocate (t ptr : ℕ) (stack : StackTrace 64) : Except Stop MallocInfo :=
  if ptr = 0 then pure s
  else do
    let s ← s.debugCheck flags ptr
    let m := PtrToChunk flags s.memory ptr
    let s ← s.retire flags t m ptr stack
    s.enqueue flags t m

/-- A new thread has an empty storage. -/
def Create (t : ℕ) : MallocInfo :=
  { s with threads := Function.update s.threads t (some ⟨.clear,fun _ => 0⟩) }

/-- The storage is unmapped with the thread. -/
def Destroy (t : ℕ) : MallocInfo := { s with threads := Function.update s.threads t none }

/-- The end of `ThreadStart`: what the thread has goes back. -/
def ThreadReturn (t : ℕ) : Except Stop MallocInfo := do
  let s ← s.SwallowThreadLocalMallocStorage flags t true
  pure (s.Destroy t)

/-- The destructor of the thread's key, as after `pthread_exit`. -/
def TSDDtor (t : ℕ) : MallocInfo := s.Destroy t

def Init (memory : FlatMemory) (shadow : Shadow) : MallocInfo where
  memory := memory
  shadow := shadow
  free_lists_ _ := 0
  quarantine_ := .clear
  page_groups_ := []
  n_sorted_page_groups_ := 0
  threads _ := none

end MallocInfo

/-- The allocator, the number of threads so far, and the pointers of the user with the sizes asked for. -/
structure Heap where
  info : MallocInfo
  n_threads_ : ℕ
  user : List (ℕ × ℕ)

inductive Act
  | Allocate (t alignment size : ℕ) (stack : StackTrace 64)
  | Deallocate (t ptr : ℕ) (stack : StackTrace 64)
  | Write (addr : ℕ) (value : BitVec 8)
  | Create
  | ThreadReturn (t : ℕ)
  | TSDDtor (t : ℕ)

namespace Heap
variable (flags : Flags) (mmap : ℕ → ℕ) (h : Heap)

def Init (memory : FlatMemory) (shadow : Shadow) : Heap := ⟨.Init memory shadow,0,[]⟩

def act : Act → Except Stop Heap
  | .Allocate t alignment size stack => do
    let (addr,info) ← h.info.Allocate flags mmap t alignment size stack
    pure { h with info := info, user := if addr = 0 then h.user else (addr,size) :: h.user }
  | .Deallocate t ptr stack => do
    let info ← h.info.Deallocate flags t ptr stack
    pure { h with info := info, user := h.user.filter fun p => p.1 ≠ ptr }
  | .Write addr value => pure { h with info.memory := Function.update h.info.memory addr value }
  | .Create => pure { h with info := h.info.Create h.n_threads_, n_threads_ := h.n_threads_ + 1 }
  | .ThreadReturn t => do
    let info ← h.info.ThreadReturn flags t
    pure { h with info := info }
  | .TSDDtor t => pure { h with info := h.info.TSDDtor t }

/-- A call that returns. -/
def step (a : Act) : Option Heap := (h.act flags mmap a).toOption

/-- Arguments are words, blocks are freed by their pointers, and the user writes into his blocks only. -/
def Legal : Act → Prop
  | .Allocate _ alignment size _ => alignment < 2^64 ∧ size < 2^64
  | .Deallocate _ ptr _ => ptr = 0 ∨ ∃ p ∈ h.user, p.1 = ptr
  | .Write addr _ => ∃ p ∈ h.user, p.1 ≤ addr ∧ addr < p.1 + p.2
  | _ => True

instance : (x : Act) → Decidable (h.Legal x)
  | .Allocate .. => inferInstanceAs (Decidable (_ ∧ _))
  | .Deallocate .. => inferInstanceAs (Decidable (_ ∨ _))
  | .Write .. => inferInstanceAs (Decidable (∃ p ∈ h.user, _))
  | .Create | .ThreadReturn _ | .TSDDtor _ => inferInstanceAs (Decidable True)

end Heap

end CompilerRt.AsanAllocator
