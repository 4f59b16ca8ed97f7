import CompilerRt.Tsan.Rtl

/-! # Synchronization operations

`lib/tsan/rtl/tsan_rtl_mutex.cc`. Each mutex operation first reads a byte of the mutex and then works on
its sync variable; the second part has a definition of its own. Warnings only print.
-/
namespace CompilerRt.Tsan
open FastState

/-- The read with which a mutex operation begins. -/
def readMutex (cfg : Config) (s : State) (t addr : ℕ) : Option State :=
  if cfg.IsAppMem addr then do return (← MemoryRead1Byte cfg s t addr).1 else return s

/-- `thr->fast_state.IncrementEpoch()` -/
def ThreadState.incrementEpoch (thr : ThreadState) : Option ThreadState := do
  return { thr with fast_state := ← IncrementEpoch thr.fast_state }

/-- `thr->clock.set(thr->tid, thr->fast_state.epoch())` -/
def ThreadState.setClock (thr : ThreadState) : ThreadState :=
  { thr with clock := thr.clock.set thr.tid (epoch thr.fast_state) }

/-- `thr->fast_synch_epoch = thr->fast_state.epoch()` -/
def ThreadState.setSynchEpoch (thr : ThreadState) : ThreadState :=
  { thr with fast_synch_epoch := epoch thr.fast_state }

def ThreadState.acquire (thr : ThreadState) (c : SyncClock) : ThreadState :=
  { thr with clock := thr.clock.acquire c }

section Sync
variable (s : State) (t addr : ℕ)

/-- The owner after a lock. A lock that another thread holds is a double lock and only warned of. -/
def lockOwner (thr : ThreadState) (v : SyncVar) : Option SyncVar :=
  match v.owner_tid with
  | none => if v.recursion = 0 then some { v with owner_tid := some thr.tid, last_lock := thr.fast_state } else none
  | some owner_tid => if owner_tid = thr.tid ∧ v.recursion = 0 then none else some v

def lockSyncVar : Option State := do
  let thr ← (← s.thr t).incrementEpoch
  let v ← lockOwner thr (s.synctab addr)
  let thr := if v.recursion = 0 then (thr.setClock.acquire v.clock).acquire v.read_clock else thr
  return (s.setThr t thr).setSync addr { v with recursion := v.recursion + 1 }

def unlockSyncVar : Option State := do
  let thr ← (← s.thr t).incrementEpoch
  let v := s.synctab addr
  if v.recursion = 0 then
    return (s.setThr t thr).setSync addr { v with is_broken := true }
  else if v.owner_tid ≠ some thr.tid then
    return (s.setThr t thr).setSync addr { v with is_broken := true }
  else
    let v := { v with recursion := v.recursion - 1 }
    if v.recursion = 0 then
      let thr := thr.setClock.setSynchEpoch
      return (s.setThr t thr).setSync addr
        { v with owner_tid := none, clock := thr.clock.ReleaseStore v.clock }
    else return (s.setThr t thr).setSync addr v

def readLockSyncVar : Option State := do
  let thr ← (← s.thr t).incrementEpoch
  let v := s.synctab addr
  let thr := thr.setClock.acquire v.clock
  return (s.setThr t thr).setSync addr { v with last_lock := thr.fast_state }

def readUnlockSyncVar : Option State := do
  let thr ← (← s.thr t).incrementEpoch
  let v := s.synctab addr
  let thr := thr.setClock.setSynchEpoch
  return (s.setThr t thr).setSync addr { v with read_clock := thr.clock.release v.read_clock }

def readOrWriteUnlockSyncVar : Option State := do
  let thr ← s.thr t
  let v := s.synctab addr
  if v.owner_tid = none then
    -- seems to be read unlock
    let thr ← thr.incrementEpoch
    let thr := thr.setClock.setSynchEpoch
    return (s.setThr t thr).setSync addr { v with read_clock := thr.clock.release v.read_clock }
  else if v.owner_tid = some thr.tid then
    -- seems to be write unlock
    if v.recursion = 0 then none
    else
      let v := { v with recursion := v.recursion - 1 }
      if v.recursion = 0 then
        let thr ← thr.incrementEpoch
        let thr := thr.setClock.setSynchEpoch
        return (s.setThr t thr).setSync addr
          { v with owner_tid := none, clock := thr.clock.ReleaseStore v.clock }
      else return s.setSync addr v
  else return s.setSync addr { v with is_broken := true }

def Acquire : Option State := do
  let thr ← s.thr t
  return s.setThr t (thr.setClock.acquire (s.synctab addr).clock)

/-- The epoch of every thread there is, running or not. -/
def globalEpoch (i : ℕ) : Option ℕ := do
  let tctx ← s.threads i
  match tctx.status, tctx.thr with
  | .Running, some thr => return epoch thr.fast_state
  | _, _ => return tctx.epoch1

/-- The loop of `AcquireGlobal` over the first `n` thread ids. -/
def setEpochs (n : ℕ) (clock : ThreadClock) : ThreadClock :=
  (List.range n).foldl
    (fun clock i => match globalEpoch s i with
      | some e => clock.set i e
      | none => clock) clock

def AcquireGlobal : Option State := do
  let thr ← s.thr t
  return s.setThr t { thr with clock := setEpochs s kMaxTid thr.clock }

def Release : Option State := do
  let thr := (← s.thr t).setClock
  let v := s.synctab addr
  return (s.setThr t thr).setSync addr { v with clock := thr.clock.release v.clock }

def ReleaseStore : Option State := do
  let thr := (← s.thr t).setClock
  let v := s.synctab addr
  return (s.setThr t thr).setSync addr { v with clock := thr.clock.ReleaseStore v.clock }

end Sync

section Mutex
variable (cfg : Config) (s : State) (t addr : ℕ)

def MutexLock : Option State := do lockSyncVar (← readMutex cfg s t addr) t addr
def MutexUnlock : Option State := do unlockSyncVar (← readMutex cfg s t addr) t addr
def MutexReadLock : Option State := do readLockSyncVar (← readMutex cfg s t addr) t addr
def MutexReadUnlock : Option State := do readUnlockSyncVar (← readMutex cfg s t addr) t addr
def MutexReadOrWriteUnlock : Option State := do readOrWriteUnlockSyncVar (← readMutex cfg s t addr) t addr

end Mutex
end CompilerRt.Tsan
