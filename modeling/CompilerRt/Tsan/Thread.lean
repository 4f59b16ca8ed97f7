import CompilerRt.Tsan.Mutex

/-! # Threads

`lib/tsan/rtl/tsan_rtl_thread.cc`, and the part of `Initialize` that makes thread 0. A thread id is taken
from the list of dead threads once that list is long enough.
-/
namespace CompilerRt.Tsan
open FastState

def kThreadQuarantineSize : ℕ := 16

/-- `-1` as an epoch: the thread is running. -/
def kMaxEpoch : ℕ := 2^64 - 1

def ThreadContext.new (tid : ℕ) : ThreadContext where
  tid := tid
  unique_id := 0
  thr := none
  status := .Invalid
  detached := false
  reuse_count := 0
  sync := .empty
  epoch0 := 0
  epoch1 := 0
  dead_next := none

/-- Put a context to the end of the dead list. -/
def ThreadDead (s : State) (tctx : ThreadContext) : Option State :=
  if tctx.status = .Running ∨ tctx.status = .Finished then
    let s := s.setContext tctx.tid { tctx with status := .Dead, sync := tctx.sync.Reset, dead_next := none }
    let s := if s.dead_list_size = 0 then { s with dead_list_head := some tctx.tid }
      else match s.dead_list_tail with
        | none => s
        | some tail => { s with
            threads := Function.update s.threads tail
              ((s.threads tail).map ({ · with dead_next := some tctx.tid })) }
    some { s with dead_list_tail := some tctx.tid, dead_list_size := s.dead_list_size + 1 }
  else none

/-- A context for a new thread: a reused one, or a fresh one. -/
def takeContext (s : State) : Option (State × ThreadContext) :=
  if s.dead_list_size > kThreadQuarantineSize ∨ kMaxTid ≤ s.thread_seq then
    if s.dead_list_size = 0 then none
    else do
      let tctx ← s.threads (← s.dead_list_head)
      let size := s.dead_list_size - 1
      if size = 0 ∧ tctx.dead_next ≠ none then none
      else if tctx.status ≠ .Dead then none
      else return ({ s with dead_list_head := tctx.dead_next, dead_list_size := size },
        { tctx with status := .Invalid, reuse_count := tctx.reuse_count + 1, sync := tctx.sync.Reset })
  else some ({ s with thread_seq := s.thread_seq + 1 }, .new s.thread_seq)

/-- One more thread is alive, and the next unique id is used up. -/
def countCreated (s : State) : State :=
  let alive_threads := s.alive_threads + 1
  { s with
    alive_threads := alive_threads
    max_alive_threads := if s.max_alive_threads < alive_threads then s.max_alive_threads + 1 else s.max_alive_threads
    unique_thread_seq := s.unique_thread_seq + 1 }

/-- Returns the thread id; thread `t` creates, unless the new thread is thread 0. -/
def ThreadCreate (s : State) (t : ℕ) (detached : Bool) : Option (State × ℕ) := do
  let (s, tctx) ← takeContext s
  let tid := tctx.tid
  if kMaxTid ≤ tid ∨ tctx.status ≠ .Invalid then none
  else
    let tctx := { tctx with status := .Created, thr := none, unique_id := s.unique_thread_seq, detached := detached }
    let s := countCreated s
    if tid ≠ 0 then
      let thr ← (← s.thr t).incrementEpoch
      let thr := thr.setClock.setSynchEpoch
      let tctx := { tctx with sync := thr.clock.release tctx.sync }
      return ((s.setThr t thr).setContext tid tctx, tid)
    else return (s.setContext tid tctx, tid)

/-- Stack and TLS of the thread, but for its own `ThreadState`, are reset. -/
def resetStackAndTls (cfg : Config) (s : State) (l : StackAndTls) : State :=
  let s := if l.stk_addr ≠ 0 ∧ l.stk_size ≠ 0 then MemoryResetRange cfg s l.stk_addr l.stk_size else s
  if l.tls_addr ≠ 0 ∧ l.tls_size ≠ 0 then
    let s := MemoryResetRange cfg s l.tls_addr (l.thr_beg - l.tls_addr)
    MemoryResetRange cfg s l.thr_end (l.tls_addr + l.tls_size - l.thr_end)
  else s

/-- The `ThreadState` lies in the TLS. -/
def StackAndTls.Valid (l : StackAndTls) : Prop :=
  l.tls_addr ≠ 0 ∧ l.tls_size ≠ 0 → l.tls_addr ≤ l.thr_beg ∧ l.thr_beg ≤ l.tls_addr + l.tls_size ∧
    l.tls_addr ≤ l.thr_end ∧ l.thr_end ≤ l.tls_addr + l.tls_size

instance (l : StackAndTls) : Decidable l.Valid := inferInstanceAs (Decidable (_ → _))

def ThreadStart (cfg : Config) (s : State) (tid : ℕ) (l : StackAndTls) : Option State := do
  if tid ≠ 0 ∧ ¬ l.Valid then none
  else
    let s := if tid ≠ 0 then resetStackAndTls cfg s l else s
    let tctx ← s.threads tid
    if tctx.status ≠ .Created then none
    else
      let epoch0 := tctx.epoch1 + 1
      let thr : ThreadState :=
        { fast_state := ← FastState.mk tid epoch0, fast_synch_epoch := epoch0
          clock := (ThreadClock.empty.set tid epoch0).acquire tctx.sync
          tid := tid, unique_id := tctx.unique_id, is_alive := true, layout := l }
      return s.setContext tid
        { tctx with status := .Running, epoch0 := epoch0, epoch1 := kMaxEpoch, thr := some thr }

def ThreadFinish (cfg : Config) (s : State) (t : ℕ) : Option State := do
  let thr ← s.thr t
  let s := resetStackAndTls cfg s thr.layout
  let tctx ← s.threads t
  if tctx.status ≠ .Running ∨ s.alive_threads = 0 then none
  else
    let s := { s with alive_threads := s.alive_threads - 1 }
    if tctx.detached then
      let s ← ThreadDead s tctx
      let tctx ← s.threads t
      return s.setContext t { tctx with epoch1 := epoch thr.fast_state, thr := none }
    else
      let thr ← thr.incrementEpoch
      let thr := thr.setClock.setSynchEpoch
      return s.setContext t { tctx with
        sync := thr.clock.release tctx.sync, status := .Finished, epoch1 := epoch thr.fast_state, thr := none }

def ThreadJoin (s : State) (t tid : ℕ) : Option State := do
  let thr ← s.thr t
  if tid = 0 ∨ kMaxTid ≤ tid then none
  else
    let tctx ← s.threads tid
    if tctx.status = .Invalid then return s
    else if tctx.detached ∨ tctx.status ≠ .Finished then none
    else ThreadDead (s.setThr t (thr.acquire tctx.sync)) tctx

def ThreadDetach (s : State) (t tid : ℕ) : Option State := do
  let _ ← s.thr t
  if tid = 0 ∨ kMaxTid ≤ tid then none
  else
    let tctx ← s.threads tid
    if tctx.status = .Invalid then return s
    else if tctx.status = .Finished then ThreadDead s tctx
    else return s.setContext tid { tctx with detached := true }

/-- `pthread_create` checks that the new thread is not thread 0. -/
def pthread_create (s : State) (t : ℕ) (detached : Bool) : Option (State × ℕ) := do
  let (s, tid) ← ThreadCreate s t detached
  if tid ≠ 0 then return (s, tid) else none

/-- Thread 0 is created detached and started, with a zero shadow and no sync variables. -/
def Initialize (cfg : Config) (l : StackAndTls) : Option State := do
  let (s, tid) ← ThreadCreate .empty 0 true
  if tid = 0 then ThreadStart cfg s tid l else none

end CompilerRt.Tsan
