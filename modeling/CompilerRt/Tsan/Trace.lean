import CompilerRt.Tsan.Rtl

/-! # The trace of a thread

`lib/tsan/rtl/tsan_trace.h`, the functions of `tsan_rtl.cc` and `tsan_rtl.h` that write events to it, what
`tsan_rtl_thread.cc` keeps of it when the thread is gone, and `RestoreStack` of `tsan_rtl_report.cc`.
-/
namespace CompilerRt.Tsan.History
open FastState

def kTracePartSize : ℕ := 16 * 1024

/-- In kibitraces. -/
def TSAN_HISTORY_SIZE : ℕ := 128

def kTraceParts : ℕ := TSAN_HISTORY_SIZE * 1024 / kTracePartSize
def kTraceSize : ℕ := kTracePartSize * kTraceParts
def kShadowStackSize : ℕ := 4 * 1024
def kTraceStackSize : ℕ := 256

inductive EventType where
  | Mop
  | FuncEnter
  | FuncExit
  | Lock
  | Unlock
  | RLock
  | RUnlock
  deriving DecidableEq

/-- The type in the three high bits, the pc or the address below. -/
abbrev Event := u64

namespace Event

def ofType (typ : EventType) (addr : u64) : Event := addr ||| BitVec.ofNat 64 typ.ctorIdx <<< 61

def typ (ev : Event) : ℕ := (ev >>> 61).toNat

def pc (ev : Event) : u64 := ev &&& 0xffffffffffff

end Event

/-- A stack in a buffer of `c_` words, or in memory of its own if that is zero. -/
structure StackTrace where
  c_ : ℕ
  s_ : List u64

namespace StackTrace

def Init (st : StackTrace) (pcs : List u64) : Option StackTrace :=
  if pcs.length = 0 then some { st with s_ := [] }
  else if st.c_ ≠ 0 ∧ st.c_ < pcs.length then none
  else some { st with s_ := pcs }

/-- The last frames of the shadow stack, and `toppc` unless that is zero. -/
def ObtainCurrent (st : StackTrace) (shadow_stack : List u64) (toppc : u64) : StackTrace :=
  let n := shadow_stack.length
  let top := if toppc = 0 then 0 else 1
  if n + top = 0 then { st with s_ := [] }
  else
    let start := if st.c_ ≠ 0 ∧ st.c_ < n + top then n - st.c_ + top else 0
    { st with s_ := shadow_stack.drop start ++ if toppc = 0 then [] else [toppc] }

def CopyFrom (st other : StackTrace) : Option StackTrace := st.Init other.s_

end StackTrace

structure TraceHeader where
  stack0 : StackTrace
  epoch0 : ℕ

def TraceHeader.new : TraceHeader := ⟨⟨kTraceStackSize,[]⟩,0⟩

structure Trace where
  events : ℕ → Event
  headers : ℕ → TraceHeader

/-- The constructor leaves the events, which are zero in new storage. -/
def Trace.new : Trace := ⟨fun _ => 0,fun _ => .new⟩

/-- The fields of a `ThreadState` that its history depends on. -/
structure TracedThread where
  fast_state : u64
  shadow_stack : List u64
  trace : Trace

/-- A new part of the trace begins. -/
def TraceSwitch (thr : TracedThread) : TracedThread :=
  let trace := epoch thr.fast_state / kTracePartSize % kTraceParts
  let hdr : TraceHeader :=
    { stack0 := (thr.trace.headers trace).stack0.ObtainCurrent thr.shadow_stack 0
      epoch0 := epoch thr.fast_state }
  { thr with trace.headers := Function.update thr.trace.headers trace hdr }

def TraceAddEvent (thr : TracedThread) (epoch : ℕ) (typ : EventType) (addr : u64) : TracedThread :=
  let thr := if epoch % kTracePartSize = 0 then TraceSwitch thr else thr
  { thr with trace.events := Function.update thr.trace.events (epoch % kTraceSize) (.ofType typ addr) }

namespace TracedThread

/-- The epoch goes on, and the event is written under it. -/
def addEvent (thr : TracedThread) (typ : EventType) (addr : u64) : Option TracedThread := do
  let thr := { thr with fast_state := ← IncrementEpoch thr.fast_state }
  return TraceAddEvent thr (epoch thr.fast_state) typ addr

def FuncEntry (thr : TracedThread) (pc : u64) : Option TracedThread := do
  let thr ← thr.addEvent .FuncEnter pc
  if thr.shadow_stack.length < kShadowStackSize then
    return { thr with shadow_stack := thr.shadow_stack ++ [pc] }
  else none

def FuncExit (thr : TracedThread) : Option TracedThread := do
  let thr ← thr.addEvent .FuncExit 0
  if 0 < thr.shadow_stack.length ∧ thr.shadow_stack.length < kShadowStackSize then
    return { thr with shadow_stack := thr.shadow_stack.dropLast }
  else none

def MemoryAccess (thr : TracedThread) (pc : u64) : Option TracedThread :=
  if GetIgnoreBit thr.fast_state then some thr else thr.addEvent .Mop pc

end TracedThread

/-- The fields of a `ThreadContext` that the thread's history depends on. -/
structure TracedContext where
  status : ThreadStatus
  detached : Bool
  epoch0 : ℕ
  epoch1 : ℕ
  thr : Option TracedThread
  dead_info : Option Trace

/-- What a thread does that goes to its history. -/
inductive TraceOp where
  | FuncEntry (pc : u64)
  | FuncExit
  | MemoryAccess (pc : u64)
  | MutexLock (addr : u64)
  | MutexUnlock (addr : u64)
  | MutexReadLock (addr : u64)
  | MutexReadUnlock (addr : u64)
  | ThreadFinish
  | ThreadDead

namespace TracedContext

/-- A created thread is started; its thread id had epochs up to `epoch1` before. -/
def ThreadStart (tid epoch1 : ℕ) (detached : Bool) : Option TracedContext := do
  return {
    status := .Running
    detached := detached
    epoch0 := epoch1 + 1
    epoch1 := 2^64 - 1
    thr := some { fast_state := ← FastState.mk tid (epoch1 + 1), shadow_stack := [], trace := .new }
    dead_info := none }

/-- What is left of the trace of a thread that finishes. -/
def deadInfo (trace : Trace) : Option Trace := do
  let headers ← (List.range kTraceParts).foldlM (fun (headers : ℕ → TraceHeader) i => do
    let stack0 ← (headers i).stack0.CopyFrom (trace.headers i).stack0
    return Function.update headers i { headers i with stack0 := stack0 }) Trace.new.headers
  return ⟨trace.events,headers⟩

def ThreadFinish (tctx : TracedContext) (thr : TracedThread) : Option TracedContext := do
  if tctx.status ≠ .Running then none
  else
    let thr ← if tctx.detached then some thr else thr.addEvent .Mop 0
    return { tctx with
      status := if tctx.detached then .Dead else .Finished
      epoch1 := epoch thr.fast_state
      thr := none
      dead_info := some (← deadInfo thr.trace) }

/-- The thread does something, finishes, or is joined or detached when it has finished. -/
def step (tctx : TracedContext) : TraceOp → Option TracedContext
  | .FuncEntry pc => do return { tctx with thr := some (← (← tctx.thr).FuncEntry pc) }
  | .FuncExit => do return { tctx with thr := some (← (← tctx.thr).FuncExit) }
  | .MemoryAccess pc => do return { tctx with thr := some (← (← tctx.thr).MemoryAccess pc) }
  | .MutexLock addr => do return { tctx with thr := some (← (← tctx.thr).addEvent .Lock addr) }
  | .MutexUnlock addr => do return { tctx with thr := some (← (← tctx.thr).addEvent .Unlock addr) }
  | .MutexReadLock addr => do return { tctx with thr := some (← (← tctx.thr).addEvent .RLock addr) }
  | .MutexReadUnlock addr => do return { tctx with thr := some (← (← tctx.thr).addEvent .RUnlock addr) }
  | .ThreadFinish => do tctx.ThreadFinish (← tctx.thr)
  | .ThreadDead => if tctx.status = .Finished then some { tctx with status := .Dead } else none

end TracedContext

/-! ## Replay -/

/-- The buffer of `RestoreStack`, and the position in it. -/
structure Replay where
  stack : ℕ → u64
  pos : ℕ

/-- The words of the buffer. -/
def kReplaySize : ℕ := 1024

/-- One event is replayed; there is no result when it writes behind the buffer. -/
def Replay.event (r : Replay) (ev : Event) : Option Replay :=
  if ev.typ = EventType.Mop.ctorIdx then
    if r.pos < kReplaySize then some { r with stack := Function.update r.stack r.pos ev.pc } else none
  else if ev.typ = EventType.FuncEnter.ctorIdx then
    if r.pos < kReplaySize then some ⟨Function.update r.stack r.pos ev.pc,r.pos + 1⟩ else none
  else if ev.typ = EventType.FuncExit.ctorIdx then some { r with pos := r.pos - 1 }
  else some r

/-- The buffer is new memory, which is zero, and then has the stack. -/
def Replay.start (stack0 : List u64) : Option Replay :=
  if stack0.length ≤ kReplaySize then some ⟨fun i => stack0.getD i 0,stack0.length⟩ else none

/-- What `stk` is initialized with, if it is. -/
def Replay.result (r : Replay) : Option (Option (List u64)) :=
  if r.pos = 0 ∧ r.stack 0 = 0 then some none
  else if r.pos + 1 ≤ kReplaySize then some (some ((List.range (r.pos + 1)).map r.stack))
  else none

/-- The trace that the history of a thread is in. -/
def TracedContext.trace (tctx : TracedContext) : Option Trace :=
  match tctx.status with
  | .Running => tctx.thr.map (·.trace)
  | .Finished | .Dead => tctx.dead_info
  | _ => none

/-- The stack of a thread at an epoch, `some none` when there is none. -/
def RestoreStack (tctx : TracedContext) (epoch : ℕ) : Option (Option (List u64)) :=
  match tctx.trace with
  | none => some none
  | some trace =>
    let partidx := epoch / (kTraceSize / kTraceParts) % kTraceParts
    let hdr := trace.headers partidx
    if epoch < hdr.epoch0 then some none
    else do
      let eend := epoch % kTraceSize
      let ebegin := eend / kTracePartSize * kTracePartSize
      let r ← Replay.start hdr.stack0.s_
      let r ← (List.range' ebegin (eend + 1 - ebegin)).foldlM (fun r i => r.event (trace.events i)) r
      r.result

end CompilerRt.Tsan.History
