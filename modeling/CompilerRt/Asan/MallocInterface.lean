import CompilerRt.Asan.HeapProperties
import Mathlib

/-! # The interface of the allocator

The functions behind `malloc`, `calloc`, `realloc` and their relatives, without the hooks and the statistics. Each of their
calls is a run of the calls below, so that what is known of these runs is known of the interface.
-/
namespace CompilerRt.AsanAllocator
open Sanitizer AsanMapping
open AsanChunk

/-- `memcpy` of bytes that do not overlap. -/
def copy (mem : FlatMemory) (dst src n : ℕ) : FlatMemory :=
  fun a => if dst ≤ a ∧ a < dst + n then mem (src + (a - dst)) else mem a

namespace MallocInfo
variable (flags : Flags) (mmap : ℕ → ℕ) (s : MallocInfo) (t : ℕ)

def Reallocate (old_ptr new_size : ℕ) (stack : StackTrace 64) : Except Stop (ℕ × MallocInfo) := do
  CHECK (old_ptr ≠ 0 ∧ new_size ≠ 0)
  let m := PtrToChunk flags s.memory old_ptr
  CHECK (get s.memory m .chunk_state = CHUNK_ALLOCATED)
  let old_size := get s.memory m .used_size
  let memcpy_size := min new_size old_size
  let (new_ptr,s) ← s.Allocate flags mmap t 0 new_size stack
  if new_ptr = 0 then pure (0,s)
  else do
    let s ← { s with memory := copy s.memory new_ptr old_ptr memcpy_size }.Deallocate flags t old_ptr stack
    pure (new_ptr,s)

def asan_memalign (alignment size : ℕ) (stack : StackTrace 64) : Except Stop (ℕ × MallocInfo) :=
  s.Allocate flags mmap t alignment size stack

def asan_free (ptr : ℕ) (stack : StackTrace 64) : Except Stop MallocInfo := s.Deallocate flags t ptr stack

def asan_malloc (size : ℕ) (stack : StackTrace 64) : Except Stop (ℕ × MallocInfo) :=
  s.Allocate flags mmap t 0 size stack

/-- The product is one of words. -/
def asan_calloc (nmemb size : ℕ) (stack : StackTrace 64) : Except Stop (ℕ × MallocInfo) := do
  let (ptr,s) ← s.Allocate flags mmap t 0 (nmemb * size % 2^64) stack
  if ptr = 0 then pure (0,s)
  else pure (ptr,{ s with memory := s.memory.fill ptr (nmemb * size % 2^64) 0 })

def asan_realloc (p size : ℕ) (stack : StackTrace 64) : Except Stop (ℕ × MallocInfo) :=
  if p = 0 then s.Allocate flags mmap t 0 size stack
  else if size = 0 then do
    let s ← s.Deallocate flags t p stack
    pure (0,s)
  else s.Reallocate flags mmap t p size stack

def asan_valloc (size : ℕ) (stack : StackTrace 64) : Except Stop (ℕ × MallocInfo) :=
  s.Allocate flags mmap t Sanitizer.kPageSize size stack

/-- The size that `pvalloc` asks for. -/
def pvallocSize (size : ℕ) : Except Stop ℕ := do
  let size ← checked (RoundUpTo size Sanitizer.kPageSize)
  pure (if size = 0 then Sanitizer.kPageSize else size)

def asan_pvalloc (size : ℕ) (stack : StackTrace 64) : Except Stop (ℕ × MallocInfo) := do
  let size ← pvallocSize size
  s.Allocate flags mmap t Sanitizer.kPageSize size stack

def asan_posix_memalign (alignment size : ℕ) (stack : StackTrace 64) : Except Stop (ℕ × MallocInfo) := do
  let (ptr,s) ← s.Allocate flags mmap t alignment size stack
  CHECK (IsAligned ptr alignment)
  pure (ptr,s)

end MallocInfo

inductive Call
  | malloc (t size : ℕ) (stack : StackTrace 64)
  | calloc (t nmemb size : ℕ) (stack : StackTrace 64)
  | memalign (t alignment size : ℕ) (stack : StackTrace 64)
  | posix_memalign (t alignment size : ℕ) (stack : StackTrace 64)
  | valloc (t size : ℕ) (stack : StackTrace 64)
  | pvalloc (t size : ℕ) (stack : StackTrace 64)
  | realloc (t p size : ℕ) (stack : StackTrace 64)
  | free (t p : ℕ) (stack : StackTrace 64)

namespace Heap
variable (flags : Flags) (mmap : ℕ → ℕ) (h : Heap)

/-- The heap once a pointer was returned for a size. -/
def handOut (size : ℕ) (r : ℕ × MallocInfo) : Heap :=
  { h with info := r.2, user := if r.1 = 0 then h.user else (r.1,size) :: h.user }

/-- The heap once a block was given back. -/
def takeBack (p : ℕ) (info : MallocInfo) : Heap := { h with info := info, user := h.user.filter fun q => q.1 ≠ p }

/-- A call of the interface; only the heap is told. -/
def call : Call → Except Stop Heap
  | .malloc t size stack => do pure (h.handOut size (← h.info.asan_malloc flags mmap t size stack))
  | .calloc t nmemb size stack => do
    pure (h.handOut (nmemb * size % 2^64) (← h.info.asan_calloc flags mmap t nmemb size stack))
  | .memalign t alignment size stack => do pure (h.handOut size (← h.info.asan_memalign flags mmap t alignment size stack))
  | .posix_memalign t alignment size stack => do
    pure (h.handOut size (← h.info.asan_posix_memalign flags mmap t alignment size stack))
  | .valloc t size stack => do pure (h.handOut size (← h.info.asan_valloc flags mmap t size stack))
  | .pvalloc t size stack => do
    pure (h.handOut (← MallocInfo.pvallocSize size) (← h.info.asan_pvalloc flags mmap t size stack))
  | .realloc t p size stack => do
    let (ptr,info) ← h.info.asan_realloc flags mmap t p size stack
    if p = 0 then pure (h.handOut size (ptr,info))
    else if size = 0 then pure (h.takeBack p info)
    else if ptr = 0 then pure { h with info := info }
    else pure ((h.handOut size (ptr,info)).takeBack p info)
  | .free t p stack => do pure (h.takeBack p (← h.info.asan_free flags t p stack))

def callStep (c : Call) : Option Heap := (h.call flags mmap c).toOption

/-- Arguments are words, and blocks are given back by their pointers. -/
def LegalCall : Call → Prop
  | .malloc _ size _ | .valloc _ size _ | .pvalloc _ size _ => size < 2^64
  | .calloc _ nmemb size _ => nmemb < 2^64 ∧ size < 2^64
  | .memalign _ alignment size _ | .posix_memalign _ alignment size _ => alignment < 2^64 ∧ size < 2^64
  | .realloc _ p size _ => size < 2^64 ∧ (p = 0 ∨ ∃ q ∈ h.user, q.1 = p)
  | .free _ p _ => p = 0 ∨ ∃ q ∈ h.user, q.1 = p

instance : (c : Call) → Decidable (h.LegalCall c)
  | .malloc .. | .valloc .. | .pvalloc .. => inferInstanceAs (Decidable (_ < _))
  | .calloc .. | .memalign .. | .posix_memalign .. | .realloc .. => inferInstanceAs (Decidable (_ ∧ _))
  | .free .. => inferInstanceAs (Decidable (_ ∨ _))

end Heap

/-! ## Calls as runs -/

variable {flags : Flags} {mmap : ℕ → ℕ} {h h' h₁ : Heap} {info : MallocInfo} {p q : ℕ × ℕ} {x : Act} {c : Call}
  {t dst n size alignment ptr : ℕ} {stack : StackTrace 64} {bytes : ℕ → BitVec 8} {mem : FlatMemory} {acts : List Act}

/-- The heap is reached from the first one by calls that are legal. -/
def Heap.Leads (flags : Flags) (mmap : ℕ → ℕ) (h h' : Heap) : Prop :=
  ∃ acts, Transition.AllSteps (Heap.step flags mmap) Heap.Legal h acts ∧ Transition.run (Heap.step flags mmap) h acts = some h'

namespace Heap.Leads

theorem refl (h : Heap) : Heap.Leads flags mmap h h := ⟨[],trivial,rfl⟩

theorem trans (hl : Heap.Leads flags mmap h h₁) (hl' : Heap.Leads flags mmap h₁ h') : Heap.Leads flags mmap h h' := by
  obtain ⟨acts,hlegal,hrun⟩ := hl
  obtain ⟨acts',hlegal',hrun'⟩ := hl'
  refine ⟨acts ++ acts',Transition.allSteps_append.mpr ⟨hlegal,fun h₂ hrun₂ => ?_⟩,?_⟩
  · rw [hrun] at hrun₂
    cases hrun₂
    exact hlegal'
  · rw [Transition.run_append, hrun, Option.bind_some, hrun']

theorem act (hlegal : h.Legal x) (hact : h.act flags mmap x = .ok h') : Heap.Leads flags mmap h h' := by
  have hstep : h.step flags mmap x = some h' := toOption_eq_some.mpr hact
  exact ⟨[x],fun _ _ => ⟨hlegal,trivial⟩,by rw [Transition.run_cons, hstep]; rfl⟩

/-- A loop over bytes of a block is a run of writes. -/
theorem writes (hq : q ∈ h.user) (hlow : q.1 ≤ dst) (hhigh : dst + n ≤ q.1 + q.2) (bytes : ℕ → BitVec 8) :
    Heap.Leads flags mmap h
      { h with info.memory := fun a => if dst ≤ a ∧ a < dst + n then bytes (a - dst) else h.info.memory a } := by
  induction n with
  | zero =>
    have hsame : (fun a => if dst ≤ a ∧ a < dst + 0 then bytes (a - dst) else h.info.memory a) = h.info.memory :=
      funext fun a => if_neg (by omega)
    rw [hsame]
    exact refl h
  | succ n ih =>
    refine (ih (by omega)).trans (act (x := .Write (dst + n) (bytes n)) ⟨q,hq,by omega,by omega⟩ ?_)
    refine congrArg (fun mem => Except.ok { h with info.memory := mem }) (funext fun a => ?_)
    by_cases ha : a = dst + n
    · rw [ha, Function.update_self, if_pos (by omega), Nat.add_sub_cancel_left]
    · rw [Function.update_of_ne ha]
      dsimp only
      by_cases hin : dst ≤ a ∧ a < dst + n
      · rw [if_pos hin, if_pos (by omega)]
      · rw [if_neg hin, if_neg (by omega)]

end Heap.Leads

theorem Heap.handOut_act (hrun : h.info.Allocate flags mmap t alignment size stack = .ok (ptr,info)) :
    h.act flags mmap (.Allocate t alignment size stack) = .ok (h.handOut size (ptr,info)) := by
  rw [Heap.act, hrun]
  rfl

theorem Heap.takeBack_act (mmap : ℕ → ℕ) (hrun : h.info.Deallocate flags t ptr stack = .ok info) :
    h.act flags mmap (.Deallocate t ptr stack) = .ok (h.takeBack ptr info) := by
  rw [Heap.act, hrun]
  rfl

theorem Heap.mem_handOut (h : Heap) (size : ℕ) (info : MallocInfo) (hptr : ptr ≠ 0) : (ptr,size) ∈ (h.handOut size (ptr,info)).user := by
  rw [Heap.handOut]
  dsimp only
  rw [if_neg hptr]
  exact List.mem_cons_self

theorem Heap.mem_handOut_of_mem (hq : q ∈ h.user) : q ∈ (h.handOut size (ptr,info)).user := by
  rw [Heap.handOut]
  dsimp only
  split_ifs
  · exact hq
  · exact List.mem_cons_of_mem _ hq

/-- A call that hands out what `Allocate` returns. -/
theorem Heap.Leads.allocate (halignment : alignment < 2^64) (hsize : size < 2^64)
    (hrun : h.info.Allocate flags mmap t alignment size stack = .ok (ptr,info)) :
    Heap.Leads flags mmap h (h.handOut size (ptr,info)) :=
  .act (x := .Allocate t alignment size stack) ⟨halignment,hsize⟩ (Heap.handOut_act hrun)

theorem Heap.Leads.calloc {nmemb : ℕ} {r : ℕ × MallocInfo} (hrun : h.info.asan_calloc flags mmap t nmemb size stack = .ok r) :
    Heap.Leads flags mmap h (h.handOut (nmemb * size % 2^64) r) := by
  obtain ⟨⟨ptr,info⟩,hallocate,hr⟩ := bind_eq_ok.mp hrun
  have hlead := Heap.Leads.allocate (by decide) (Nat.mod_lt _ (by decide)) hallocate
  dsimp only at hr
  split_ifs at hr with hzero
  · cases hr
    exact hzero ▸ hlead
  · cases hr
    have hmem := h.mem_handOut (nmemb * size % 2^64) info hzero
    exact hlead.trans (.writes hmem le_rfl le_rfl fun _ => 0)

theorem Heap.Leads.reallocate {r : ℕ × MallocInfo} (hsize : size < 2^64) (hq : q ∈ h.user)
    (hrun : h.info.Reallocate flags mmap t q.1 size stack = .ok r) :
    Heap.Leads flags mmap h (if r.1 = 0 then { h with info := r.2 } else (h.handOut size r).takeBack q.1 r.2) := by
  obtain ⟨-,-,hrun⟩ := bind_eq_ok.mp hrun
  obtain ⟨-,-,hrun⟩ := bind_eq_ok.mp hrun
  obtain ⟨⟨ptr,info⟩,hallocate,hrun⟩ := bind_eq_ok.mp hrun
  have hlead := Heap.Leads.allocate (by decide) hsize hallocate
  dsimp only at hrun
  split_ifs at hrun with hzero
  · cases hrun
    rw [Heap.handOut, if_pos hzero] at hlead
    rw [if_pos rfl]
    exact hlead
  · obtain ⟨info',hdeallocate,hr⟩ := bind_eq_ok.mp hrun
    cases hr
    have hmem := h.mem_handOut size info hzero
    have hle := min_le_left size (get h.info.memory (MallocInfo.PtrToChunk flags h.info.memory q.1) .used_size)
    generalize min size (get h.info.memory (MallocInfo.PtrToChunk flags h.info.memory q.1) .used_size) = n at hdeallocate hle
    refine (hlead.trans (.writes hmem le_rfl (Nat.add_le_add_left hle ptr) fun i => info.memory (q.1 + i))).trans ?_
    rw [if_neg hzero]
    exact .act (x := .Deallocate t q.1 stack) (.inr ⟨q,Heap.mem_handOut_of_mem hq,rfl⟩) (Heap.takeBack_act mmap hdeallocate)

theorem pvallocSize_lt (hrun : MallocInfo.pvallocSize size = .ok n) : n < 2^64 := by
  obtain ⟨r,hround,hn⟩ := bind_eq_ok.mp hrun
  cases hn
  rw [checked_eq_ok, RoundUpTo] at hround
  split_ifs at hround
  cases hround
  split_ifs
  · decide
  · exact BitVec.isLt _

/-- A call of the interface is a run of calls of the allocator. -/
theorem Heap.Leads.call (hlegal : h.LegalCall c) (hcall : h.call flags mmap c = .ok h') : Heap.Leads flags mmap h h' := by
  cases c with
  | malloc t size stack =>
    obtain ⟨⟨ptr,info⟩,hrun,hh'⟩ := bind_eq_ok.mp hcall
    cases hh'
    exact .allocate (by decide) hlegal hrun
  | calloc t nmemb size stack =>
    obtain ⟨r,hrun,hh'⟩ := bind_eq_ok.mp hcall
    cases hh'
    exact .calloc hrun
  | memalign t alignment size stack =>
    obtain ⟨⟨ptr,info⟩,hrun,hh'⟩ := bind_eq_ok.mp hcall
    cases hh'
    exact .allocate hlegal.1 hlegal.2 hrun
  | posix_memalign t alignment size stack =>
    obtain ⟨r,hrun,hh'⟩ := bind_eq_ok.mp hcall
    obtain ⟨⟨ptr,info⟩,hallocate,hrun⟩ := bind_eq_ok.mp hrun
    obtain ⟨-,-,hr⟩ := bind_eq_ok.mp hrun
    cases hr
    cases hh'
    exact .allocate hlegal.1 hlegal.2 hallocate
  | valloc t size stack =>
    obtain ⟨⟨ptr,info⟩,hrun,hh'⟩ := bind_eq_ok.mp hcall
    cases hh'
    exact .allocate (by decide) hlegal hrun
  | pvalloc t size stack =>
    obtain ⟨n,hn,hcall⟩ := bind_eq_ok.mp hcall
    obtain ⟨⟨ptr,info⟩,hrun,hh'⟩ := bind_eq_ok.mp hcall
    cases hh'
    rw [MallocInfo.asan_pvalloc, hn, ok_bind] at hrun
    exact .allocate (by decide) (pvallocSize_lt hn) hrun
  | realloc t p size stack =>
    obtain ⟨⟨ptr,info⟩,hrun,hh'⟩ := bind_eq_ok.mp hcall
    rw [MallocInfo.asan_realloc] at hrun
    dsimp only at hh'
    split_ifs at hrun hh' with hp hsize hptr
    · cases hh'
      exact .allocate (by decide) hlegal.1 hrun
    · obtain ⟨info',hdeallocate,hr⟩ := bind_eq_ok.mp hrun
      cases hr
      cases hh'
      exact .act (x := .Deallocate t p stack) hlegal.2 (Heap.takeBack_act mmap hdeallocate)
    · obtain ⟨q,hq,rfl⟩ := hlegal.2.resolve_left hp
      have hlead := Heap.Leads.reallocate hlegal.1 hq hrun
      rw [if_pos hptr] at hlead
      cases hh'
      exact hlead
    · obtain ⟨q,hq,rfl⟩ := hlegal.2.resolve_left hp
      have hlead := Heap.Leads.reallocate hlegal.1 hq hrun
      rw [if_neg hptr] at hlead
      cases hh'
      exact hlead
  | free t p stack =>
    obtain ⟨info,hrun,hh'⟩ := bind_eq_ok.mp hcall
    cases hh'
    exact .act (x := .Deallocate t p stack) hlegal (Heap.takeBack_act mmap hrun)

theorem Heap.Leads.calls {calls : List Call} (hlegal : Transition.AllSteps (Heap.callStep flags mmap) Heap.LegalCall h calls)
    (hrun : Transition.run (Heap.callStep flags mmap) h calls = some h') : Heap.Leads flags mmap h h' := by
  induction calls generalizing h with
  | nil =>
    cases hrun
    exact .refl _
  | cons c calls ih =>
    rw [Transition.run_cons, Option.bind_eq_some_iff] at hrun
    obtain ⟨h₁,hstep,hrun⟩ := hrun
    obtain ⟨hc,hrest⟩ := hlegal h₁ hstep
    exact (Heap.Leads.call hc (toOption_eq_some.mp hstep)).trans (ih hrest hrun)

theorem Heap.Reached.leads (hr : Heap.Reached flags mmap acts h) (hl : Heap.Leads flags mmap h h') :
    ∃ acts', Heap.Reached flags mmap acts' h' := by
  obtain ⟨memory,shadow,hlegal,hrun⟩ := hr
  have hstart : Heap.Leads flags mmap (.Init memory shadow) h := ⟨acts,hlegal,hrun⟩
  obtain ⟨acts',hlegal',hrun'⟩ := hstart.trans hl
  exact ⟨acts',memory,shadow,hlegal',hrun'⟩

/-- Whatever calls of the interface lead to is reached by calls of the allocator, too. -/
theorem Heap.interface_reached {calls : List Call} (hr : Heap.Reached flags mmap acts h)
    (hlegal : Transition.AllSteps (Heap.callStep flags mmap) Heap.LegalCall h calls)
    (hrun : Transition.run (Heap.callStep flags mmap) h calls = some h') : ∃ acts', Heap.Reached flags mmap acts' h' :=
  hr.leads (.calls hlegal hrun)

/-- A block is moved, and blocks are asked for in other ways. -/
def sampleCalls : List Call :=
  [.realloc 0 (2^45 + 128) (2^22 - 500) sampleStack,.calloc 1 2 (2^21 - 64) sampleStack,.valloc 0 (2^22 - 9000) sampleStack,
    .free 0 (2^45 + 2^36 + 128) sampleStack]

theorem Heap.interface_reached_four : ∃ h', Transition.run (Heap.callStep sampleFlags sampleMmap) (sampleHeap sampleFlags 4)
    sampleCalls = some h' ∧ ∃ acts', Heap.Reached sampleFlags sampleMmap acts' h' := by
  have hsome : (Transition.run (Heap.callStep sampleFlags sampleMmap) (sampleHeap sampleFlags 4) sampleCalls).isSome := by
    decide +kernel
  obtain ⟨h',hrun⟩ := Option.isSome_iff_exists.mp hsome
  exact ⟨h',hrun,Heap.interface_reached sampleHeap_four (by decide +kernel) hrun⟩

/-! ## Bytes of new blocks -/

/-- A block that is moved has the bytes of the old one, as many as there are in both. -/
theorem Heap.realloc_copies {i : ℕ} (hr : Heap.Reached flags mmap acts h) (hred : flags.redzone ≤ 4096) (hsize : size < 2^64)
    (hq : q ∈ h.user) (hrun : h.info.asan_realloc flags mmap t q.1 size stack = .ok (ptr,info)) (hptr : ptr ≠ 0)
    (hi : i < min size (max q.2 1)) : info.memory (ptr + i) = h.info.memory (q.1 + i) := by
  obtain ⟨L,hinv,-⟩ := hr.inv hred
  obtain ⟨m,hm,hb⟩ := hinv.block q hq
  obtain ⟨g,-,-,hin⟩ := hinv.core.inside hm hb
  have hlow := hin.low
  have hpos := flags.pos
  have hold : get h.info.memory (MallocInfo.PtrToChunk flags h.info.memory q.1) .used_size = max q.2 1 := by
    rw [hin.owned.ptr, hb.used]
  rw [MallocInfo.asan_realloc, if_neg (by omega), if_neg (by omega)] at hrun
  obtain ⟨-,-,hrun⟩ := bind_eq_ok.mp hrun
  obtain ⟨-,-,hrun⟩ := bind_eq_ok.mp hrun
  obtain ⟨⟨ptr',info₁⟩,hallocate,hrun⟩ := bind_eq_ok.mp hrun
  dsimp only at hrun
  rw [hold] at hrun
  split_ifs at hrun with hzero
  · cases hrun
    exact absurd rfl hptr
  obtain ⟨info',hdeallocate,hr'⟩ := bind_eq_ok.mp hrun
  cases hr'
  -- the old block stays while the new one is made, and the new one while the old one is freed
  obtain ⟨L₁,ha⟩ := hinv.allocate hred (by decide) hallocate hptr
  obtain ⟨hinv₁,hkeeps₁⟩ := hinv.allocated ha
  have hq₁ : q ∈ (ptr,size) :: h.user := List.mem_cons_of_mem _ hq
  have hnew : (ptr,size) ∈ (ptr,size) :: h.user := List.mem_cons_self
  have hne : ptr ≠ q.1 := by
    intro heq
    exact (List.nodup_cons.mp hinv₁.nodup).1 (List.mem_map.mpr ⟨q,hq,heq.symm⟩)
  have hbyte : info₁.memory (q.1 + i) = h.info.memory (q.1 + i) :=
    hkeeps₁ (.Allocate t 0 size stack) q hq hq₁ _ (by omega) (by omega) nofun
  have hlead : Heap.Leads flags mmap ⟨info₁,h.n_threads_,(ptr,size) :: h.user⟩
      ⟨{ info₁ with memory := copy info₁.memory ptr q.1 (min size (max q.2 1)) },h.n_threads_,(ptr,size) :: h.user⟩ :=
    .writes (h := ⟨info₁,h.n_threads_,(ptr,size) :: h.user⟩) hnew le_rfl (Nat.add_le_add_left (min_le_left _ _) ptr)
      fun i => info₁.memory (q.1 + i)
  obtain ⟨acts₂,hlegal₂,hrun₂⟩ := hlead
  obtain ⟨L₂,hran₂⟩ := hinv₁.run hred hlegal₂ hrun₂
  have hstep := toOption_eq_some.mpr (Heap.takeBack_act mmap (h := ⟨_,h.n_threads_,(ptr,size) :: h.user⟩) hdeallocate)
  obtain ⟨L₃,-,hkeeps₃⟩ := hran₂.inv.step (x := .Deallocate t q.1 stack) (.inr ⟨q,hq₁,rfl⟩) hred hstep
  have hstays : (ptr,size) ∈ ((ptr,size) :: h.user).filter fun p => p.1 ≠ q.1 :=
    List.mem_filter.mpr ⟨hnew,decide_eq_true hne⟩
  have hcopied := hkeeps₃ (ptr,size) hnew hstays (ptr + i) (by dsimp only; omega) (by dsimp only; omega) nofun
  refine hcopied.trans ?_
  dsimp only [copy]
  rw [if_pos (by omega), Nat.add_sub_cancel_left, hbyte]

theorem Heap.realloc_copies_four : ∃ ptr info, (sampleHeap sampleFlags 4).info.asan_realloc sampleFlags sampleMmap 0
    (2^45 + 128) (2^22 - 500) sampleStack = .ok (ptr,info) ∧ info.memory ptr = 7 := by
  have hsome : ((sampleHeap sampleFlags 4).info.asan_realloc sampleFlags sampleMmap 0 (2^45 + 128) (2^22 - 500)
      sampleStack).toOption.map Prod.fst = some (2^45 + 2^37 + 128) := by decide +kernel
  obtain ⟨⟨ptr,info⟩,hr,rfl⟩ := Option.map_eq_some_iff.mp hsome
  have hrun := toOption_eq_some.mp hr
  refine ⟨_,info,hrun,(Heap.realloc_copies (q := (2^45 + 128,2^22 - 128)) (i := 0) sampleHeap_four (by decide) (by decide)
    (by decide +kernel) hrun (by decide) (by decide)).trans ?_⟩
  decide +kernel

end CompilerRt.AsanAllocator
