import CompilerRt.Tsan.Thread

/-! # The detector as a transition system

An `Op` is what a thread does in one atomic step of the run-time library. An operation on a mutex is an
access followed by work on the sync variable; `Act` names these parts, and a step is the run of its parts.
-/
namespace CompilerRt.Tsan
open FastState

inductive Act where
  | access (addr kAccessSizeLog : ℕ) (kAccessIsWrite : Bool)
  | lock (addr : ℕ)
  | unlock (addr : ℕ)
  | readLock (addr : ℕ)
  | readUnlock (addr : ℕ)
  | readOrWriteUnlock (addr : ℕ)
  | acquire (addr : ℕ)
  | acquireGlobal
  | release (addr : ℕ)
  | releaseStore (addr : ℕ)
  | create (detached : Bool)
  | start (l : StackAndTls)
  | finish
  | join (tid : ℕ)
  | detach (tid : ℕ)

inductive Op where
  | MemoryAccess (addr kAccessSizeLog : ℕ) (kAccessIsWrite : Bool)
  | MutexLock (addr : ℕ)
  | MutexUnlock (addr : ℕ)
  | MutexReadLock (addr : ℕ)
  | MutexReadUnlock (addr : ℕ)
  | MutexReadOrWriteUnlock (addr : ℕ)
  | Acquire (addr : ℕ)
  | AcquireGlobal
  | Release (addr : ℕ)
  | ReleaseStore (addr : ℕ)
  | ThreadCreate (detached : Bool)
  | ThreadStart (l : StackAndTls)
  | ThreadFinish
  | ThreadJoin (tid : ℕ)
  | ThreadDetach (tid : ℕ)

section Step
variable (cfg : Config) (s : State) (t : ℕ)

/-- One step of thread `t`. -/
def Op.step : Op → Option State
  | MemoryAccess addr sizeLog isWrite => do return (← Tsan.MemoryAccess cfg s t addr sizeLog isWrite).1
  | MutexLock addr => Tsan.MutexLock cfg s t addr
  | MutexUnlock addr => Tsan.MutexUnlock cfg s t addr
  | MutexReadLock addr => Tsan.MutexReadLock cfg s t addr
  | MutexReadUnlock addr => Tsan.MutexReadUnlock cfg s t addr
  | MutexReadOrWriteUnlock addr => Tsan.MutexReadOrWriteUnlock cfg s t addr
  | Acquire addr => Tsan.Acquire s t addr
  | AcquireGlobal => Tsan.AcquireGlobal s t
  | Release addr => Tsan.Release s t addr
  | ReleaseStore addr => Tsan.ReleaseStore s t addr
  | ThreadCreate detached => do return (← pthread_create s t detached).1
  | ThreadStart l => Tsan.ThreadStart cfg s t l
  | ThreadFinish => Tsan.ThreadFinish cfg s t
  | ThreadJoin tid => Tsan.ThreadJoin s t tid
  | ThreadDetach tid => Tsan.ThreadDetach s t tid

def Act.exec : Act → Option State
  | access addr sizeLog isWrite => do return (← MemoryAccess cfg s t addr sizeLog isWrite).1
  | lock addr => lockSyncVar s t addr
  | unlock addr => unlockSyncVar s t addr
  | readLock addr => readLockSyncVar s t addr
  | readUnlock addr => readUnlockSyncVar s t addr
  | readOrWriteUnlock addr => readOrWriteUnlockSyncVar s t addr
  | acquire addr => Acquire s t addr
  | acquireGlobal => AcquireGlobal s t
  | release addr => Release s t addr
  | releaseStore addr => ReleaseStore s t addr
  | create detached => do return (← pthread_create s t detached).1
  | start l => ThreadStart cfg s t l
  | finish => ThreadFinish cfg s t
  | join tid => ThreadJoin s t tid
  | detach tid => ThreadDetach s t tid

end Step

def Act.execs (cfg : Config) (t : ℕ) (s : State) (acts : List Act) : Option State :=
  acts.foldlM (fun s a => a.exec cfg s t) s

section Parts
variable (cfg : Config)

/-- The access with which an operation on a mutex begins. -/
def onMutex (addr : ℕ) (a : Act) : List Act :=
  if cfg.IsAppMem addr then [.access addr 0 false, a] else [a]

def Op.acts : Op → List Act
  | MemoryAccess addr sizeLog isWrite => [.access addr sizeLog isWrite]
  | MutexLock addr => onMutex cfg addr (.lock addr)
  | MutexUnlock addr => onMutex cfg addr (.unlock addr)
  | MutexReadLock addr => onMutex cfg addr (.readLock addr)
  | MutexReadUnlock addr => onMutex cfg addr (.readUnlock addr)
  | MutexReadOrWriteUnlock addr => onMutex cfg addr (.readOrWriteUnlock addr)
  | Acquire addr => [.acquire addr]
  | AcquireGlobal => [.acquireGlobal]
  | Release addr => [.release addr]
  | ReleaseStore addr => [.releaseStore addr]
  | ThreadCreate detached => [.create detached]
  | ThreadStart l => [.start l]
  | ThreadFinish => [.finish]
  | ThreadJoin tid => [.join tid]
  | ThreadDetach tid => [.detach tid]

theorem execs_singleton (t : ℕ) (s : State) (a : Act) : Act.execs cfg t s [a] = a.exec cfg s t := by
  simp [Act.execs]

theorem execs_onMutex (t : ℕ) (s : State) (addr : ℕ) (a : Act) :
    Act.execs cfg t s (onMutex cfg addr a) = (readMutex cfg s t addr).bind fun s => a.exec cfg s t := by
  unfold onMutex readMutex
  split_ifs
  · simp [Act.execs, Act.exec, MemoryRead1Byte]
  · simp [Act.execs]

theorem mem_onMutex {cfg : Config} {addr : ℕ} {a x : Act} (h : x ∈ onMutex cfg addr a) :
    x = .access addr 0 false ∨ x = a := by
  unfold onMutex at h
  split_ifs at h
  · simpa using h
  · exact Or.inr (List.mem_singleton.mp h)

/-- A step is the run of its parts. -/
theorem step_eq_execs (op : Op) (s : State) (t : ℕ) : op.step cfg s t = Act.execs cfg t s (op.acts cfg) := by
  cases op with
  | MutexLock addr | MutexUnlock addr | MutexReadLock addr | MutexReadUnlock addr | MutexReadOrWriteUnlock addr =>
    rw [Op.acts, execs_onMutex]
    rfl
  | _ =>
    rw [Op.acts, execs_singleton]
    rfl

end Parts

/-! ## Reading the state back -/

/-- The thread id that the next thread gets. -/
def newTid (s : State) : ℕ := match takeContext s with
  | some (_, tctx) => tctx.tid
  | none => 0

namespace State
variable (s : State)

/-- The contexts without their links in the dead list. -/
def core (u : ℕ) : Option ThreadContext := (s.threads u).map ({ · with dead_next := none })

/-- What others learn from a thread that is created or joined. -/
def syncOf (u : ℕ) : ℕ → ℕ := match s.threads u with
  | some tctx => tctx.sync.get
  | none => 0

theorem thr_eq_core (u : ℕ) : s.thr u = (s.core u).bind (·.thr) := by
  unfold thr core
  cases s.threads u <;> rfl

theorem syncOf_eq_core (u : ℕ) : s.syncOf u = match s.core u with
    | some tctx => tctx.sync.get
    | none => 0 := by
  unfold syncOf core
  cases s.threads u <;> rfl

theorem core_eq_some {u : ℕ} {tctx : ThreadContext} (h : s.threads u = some tctx) :
    s.core u = some { tctx with dead_next := none } := by simp [core, h]

@[simp] theorem core_setContext_self (u : ℕ) (tctx : ThreadContext) :
    (s.setContext u tctx).core u = some { tctx with dead_next := none } := by simp [core, setContext]

@[simp] theorem core_setContext_of_ne {u v : ℕ} (tctx : ThreadContext) (h : v ≠ u) :
    (s.setContext u tctx).core v = s.core v := by simp [core, setContext, h]

@[simp] theorem core_setThr_self (u : ℕ) (x : ThreadState) :
    (s.setThr u x).core u = (s.core u).map ({ · with thr := some x }) := by
  simp only [core, setThr, Function.update_self, Option.map_map]
  rfl

@[simp] theorem core_setThr_of_ne {u v : ℕ} (x : ThreadState) (h : v ≠ u) : (s.setThr u x).core v = s.core v := by
  simp [core, setThr, h]

@[simp] theorem core_setSync (a : ℕ) (v : SyncVar) : (s.setSync a v).core = s.core := rfl
@[simp] theorem core_setRow (cell : ℕ) (row : Row) : (s.setRow cell row).core = s.core := rfl
@[simp] theorem synctab_setThr (u : ℕ) (x : ThreadState) : (s.setThr u x).synctab = s.synctab := rfl
@[simp] theorem synctab_setContext (u : ℕ) (x : ThreadContext) : (s.setContext u x).synctab = s.synctab := rfl
@[simp] theorem synctab_setRow (cell : ℕ) (row : Row) : (s.setRow cell row).synctab = s.synctab := rfl
@[simp] theorem synctab_setSync_self (a : ℕ) (v : SyncVar) : (s.setSync a v).synctab a = v := by simp [setSync]

@[simp] theorem synctab_setSync_of_ne {a b : ℕ} (v : SyncVar) (h : b ≠ a) :
    (s.setSync a v).synctab b = s.synctab b := by simp [setSync, h]

@[simp] theorem shadow_setThr (u : ℕ) (x : ThreadState) : (s.setThr u x).shadow = s.shadow := rfl
@[simp] theorem shadow_setContext (u : ℕ) (x : ThreadContext) : (s.setContext u x).shadow = s.shadow := rfl
@[simp] theorem shadow_setSync (a : ℕ) (v : SyncVar) : (s.setSync a v).shadow = s.shadow := rfl

theorem thr_setThr_self {u : ℕ} {x y : ThreadState} (h : s.thr u = some y) : (s.setThr u x).thr u = some x := by
  rw [thr_eq_core] at h ⊢
  rw [core_setThr_self]
  cases hc : s.core u with
  | none => rw [hc] at h; cases h
  | some tctx => rfl

@[simp] theorem thr_setThr_of_ne {u v : ℕ} (x : ThreadState) (h : v ≠ u) : (s.setThr u x).thr v = s.thr v := by
  rw [thr_eq_core, thr_eq_core, core_setThr_of_ne s x h]

@[simp] theorem thr_setSync (a : ℕ) (v : SyncVar) : (s.setSync a v).thr = s.thr := rfl
@[simp] theorem thr_setRow (cell : ℕ) (row : Row) : (s.setRow cell row).thr = s.thr := rfl

@[simp] theorem syncOf_setThr (u : ℕ) (x : ThreadState) : (s.setThr u x).syncOf = s.syncOf := by
  funext v
  rw [syncOf_eq_core, syncOf_eq_core]
  rcases eq_or_ne v u with rfl | h
  · rw [core_setThr_self]
    cases s.core v <;> rfl
  · rw [core_setThr_of_ne s x h]

@[simp] theorem syncOf_setSync (a : ℕ) (v : SyncVar) : (s.setSync a v).syncOf = s.syncOf := rfl
@[simp] theorem syncOf_setRow (cell : ℕ) (row : Row) : (s.setRow cell row).syncOf = s.syncOf := rfl

@[simp] theorem syncOf_setContext_self (u : ℕ) (tctx : ThreadContext) :
    (s.setContext u tctx).syncOf u = tctx.sync.get := by simp [syncOf, setContext]

@[simp] theorem syncOf_setContext_of_ne {u v : ℕ} (tctx : ThreadContext) (h : v ≠ u) :
    (s.setContext u tctx).syncOf v = s.syncOf v := by simp [syncOf, setContext, h]

end State
end CompilerRt.Tsan
