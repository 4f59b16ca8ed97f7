import CompilerRt.Lib.Interleaving
import CompilerRt.Lib.LinkedQueue
import CompilerRt.Lib.RwLock

/-! # The table of sync variables

The hashed table of `lib/tsan/rtl/tsan_sync.cc`. Every access to a list and every acquire and release of a lock is
one step of a thread, and threads take steps in any order.
-/
namespace CompilerRt.Tsan.SyncTab

def kPartCount : ℕ := 1009

def PartIdx (addr : ℕ) : ℕ := (addr >>> 3) % kPartCount

/-- Sync variables are named by the order of their allocation. -/
abbrev Ref := ℕ

section Threads
variable (Thread : Type*)

/-- The fields that the table works with. -/
structure SyncVar where
  mtx : RwLock Thread
  addr : ℕ
  is_linker_init : Bool
  next : Option Ref

structure Part where
  mtx : RwLock Thread
  val : Option Ref

structure Table where
  tab_ : ℕ → Part Thread
  vars : ℕ → SyncVar Thread
  /-- The next reference that an allocation gives. -/
  allocated : Ref

end Threads

inductive Op where
  | GetAndLock (addr : ℕ) (write_lock : Bool)
  | GetAndRemove (addr : ℕ)
  deriving DecidableEq

/-- The place in a call, with its local variables. -/
inductive Pc where
  | idle
  /-- `GetAndLock`, before the part is locked for reading. -/
  | partReadLock (addr : ℕ) (write_lock : Bool)
  | firstRead (addr : ℕ) (write_lock : Bool)
  /-- The first loop looks at `res`. -/
  | find (addr : ℕ) (write_lock : Bool) (res : Option Ref)
  | lockFound (addr : ℕ) (write_lock : Bool) (res : Ref)
  /-- At the end of the first block, with a locked variable to return or none. -/
  | partReadUnlock (addr : ℕ) (write_lock : Bool) (res : Option Ref)
  | partLock (addr : ℕ) (write_lock : Bool)
  | secondRead (addr : ℕ) (write_lock : Bool)
  /-- The second loop looks at `res`. -/
  | findAgain (addr : ℕ) (write_lock : Bool) (res : Option Ref)
  | create (addr : ℕ) (write_lock : Bool)
  | linkNext (addr : ℕ) (write_lock : Bool) (res : Ref)
  | linkVal (addr : ℕ) (write_lock : Bool) (res : Ref)
  | lockAgain (addr : ℕ) (write_lock : Bool) (res : Ref)
  | partUnlock (addr : ℕ) (write_lock : Bool) (res : Ref)
  /-- `GetAndRemove`, before the part is locked. -/
  | removeLock (addr : ℕ)
  | removeRead (addr : ℕ)
  /-- The loop looks at `res`; `prev` is the variable that points to it, or none for the part itself. -/
  | remove (addr : ℕ) (prev res : Option Ref)
  | unlink (addr : ℕ) (prev : Option Ref) (res : Ref)
  | removeUnlock (addr : ℕ) (res : Option Ref)
  | varLock (addr : ℕ) (res : Ref)
  | varUnlock (addr : ℕ) (res : Ref)
  deriving DecidableEq

/-- The call that a thread is in. -/
def Pc.call : Pc → Option Op
  | idle => none
  | partReadLock addr w | firstRead addr w | find addr w _ | lockFound addr w _ | partReadUnlock addr w _
  | partLock addr w | secondRead addr w | findAgain addr w _ | create addr w | linkNext addr w _
  | linkVal addr w _ | lockAgain addr w _ | partUnlock addr w _ => some (.GetAndLock addr w)
  | removeLock addr | removeRead addr | remove addr _ _ | unlink addr _ _ | removeUnlock addr _ | varLock addr _
  | varUnlock addr _ => some (.GetAndRemove addr)

/-- A thread, with the variables that it has got locked, and those that it has removed. -/
structure Local where
  pc : Pc
  held : List (Ref × Bool)
  removed : List Ref

inductive Act where
  | call (op : Op)
  | step
  /-- Release a variable that was got. -/
  | Unlock (res : Ref) (write_lock : Bool)
  /-- A writer of the variable sets its flag. -/
  | setLinkerInit (res : Ref) (is_linker_init : Bool)

section Step
variable {Thread : Type*} [DecidableEq Thread]

namespace Table
variable (s : Table Thread) (t : Thread)

def setVar (r : Ref) (v : SyncVar Thread) : Table Thread := { s with vars := Function.update s.vars r v }

def setPart (i : ℕ) (p : Part Thread) : Table Thread := { s with tab_ := Function.update s.tab_ i p }

def acquirePart (i : ℕ) (w : Bool) : Option (Table Thread) := do
  return s.setPart i { s.tab_ i with mtx := ← (s.tab_ i).mtx.acquire t w }

def releasePart (i : ℕ) (w : Bool) : Option (Table Thread) := do
  return s.setPart i { s.tab_ i with mtx := ← (s.tab_ i).mtx.release t w }

def acquireVar (r : Ref) (w : Bool) : Option (Table Thread) := do
  return s.setVar r { s.vars r with mtx := ← (s.vars r).mtx.acquire t w }

def releaseVar (r : Ref) (w : Bool) : Option (Table Thread) := do
  return s.setVar r { s.vars r with mtx := ← (s.vars r).mtx.release t w }

/-- A new variable for the address. -/
def alloc (addr : ℕ) : Table Thread :=
  { s.setVar s.allocated ⟨.free,addr,false,none⟩ with allocated := s.allocated + 1 }

/-- `*prev = next`. -/
def store (i : ℕ) (prev next : Option Ref) : Table Thread := match prev with
  | none => s.setPart i { s.tab_ i with val := next }
  | some r => s.setVar r { s.vars r with next := next }

end Table

/-- One step inside a call. -/
def advance (t : Thread) (s : Table Thread) (x : Local) : Option (Table Thread × Local) :=
  match x.pc with
  | .idle => none
  | .partReadLock addr w => do return (← s.acquirePart t (PartIdx addr) false, { x with pc := .firstRead addr w })
  | .firstRead addr w => some (s, { x with pc := .find addr w (s.tab_ (PartIdx addr)).val })
  | .find addr w none => some (s, { x with pc := .partReadUnlock addr w none })
  | .find addr w (some res) =>
    if (s.vars res).addr = addr then some (s, { x with pc := .lockFound addr w res })
    else some (s, { x with pc := .find addr w (s.vars res).next })
  | .lockFound addr w res => do return (← s.acquireVar t res w, { x with pc := .partReadUnlock addr w (some res) })
  | .partReadUnlock addr w (some res) => do
    return (← s.releasePart t (PartIdx addr) false, { x with pc := .idle, held := (res, w) :: x.held })
  | .partReadUnlock addr w none => do
    return (← s.releasePart t (PartIdx addr) false, { x with pc := .partLock addr w })
  | .partLock addr w => do return (← s.acquirePart t (PartIdx addr) true, { x with pc := .secondRead addr w })
  | .secondRead addr w => some (s, { x with pc := .findAgain addr w (s.tab_ (PartIdx addr)).val })
  | .findAgain addr w none => some (s, { x with pc := .create addr w })
  | .findAgain addr w (some res) =>
    if (s.vars res).addr = addr then some (s, { x with pc := .lockAgain addr w res })
    else some (s, { x with pc := .findAgain addr w (s.vars res).next })
  | .create addr w => some (s.alloc addr, { x with pc := .linkNext addr w s.allocated })
  | .linkNext addr w res =>
    some (s.setVar res { s.vars res with next := (s.tab_ (PartIdx addr)).val }, { x with pc := .linkVal addr w res })
  | .linkVal addr w res =>
    some (s.setPart (PartIdx addr) { s.tab_ (PartIdx addr) with val := some res }, { x with pc := .lockAgain addr w res })
  | .lockAgain addr w res => do return (← s.acquireVar t res w, { x with pc := .partUnlock addr w res })
  | .partUnlock addr w res => do
    return (← s.releasePart t (PartIdx addr) true, { x with pc := .idle, held := (res, w) :: x.held })
  | .removeLock addr => do return (← s.acquirePart t (PartIdx addr) true, { x with pc := .removeRead addr })
  | .removeRead addr => some (s, { x with pc := .remove addr none (s.tab_ (PartIdx addr)).val })
  | .remove addr _ none => some (s, { x with pc := .removeUnlock addr none })
  | .remove addr prev (some res) =>
    if (s.vars res).addr = addr then
      if (s.vars res).is_linker_init then some (s, { x with pc := .removeUnlock addr none })
      else some (s, { x with pc := .unlink addr prev res })
    else some (s, { x with pc := .remove addr (some res) (s.vars res).next })
  | .unlink addr prev res =>
    some (s.store (PartIdx addr) prev (s.vars res).next, { x with pc := .removeUnlock addr (some res) })
  | .removeUnlock addr res => do
    return (← s.releasePart t (PartIdx addr) true,
      { x with pc := match res with
        | none => .idle
        | some res => .varLock addr res })
  | .varLock addr res => do return (← s.acquireVar t res true, { x with pc := .varUnlock addr res })
  | .varUnlock _ res => do return (← s.releaseVar t res true, { x with pc := .idle, removed := res :: x.removed })

/-- What a thread does next. -/
def next (t : Thread) : Act → Table Thread → Local → Option (Table Thread × Local)
  | .call op, s, x =>
    if x.pc = .idle then
      some (s, { x with pc := match op with
        | .GetAndLock addr w => .partReadLock addr w
        | .GetAndRemove addr => .removeLock addr })
    else none
  | .step, s, x => advance t s x
  | .Unlock res w, s, x => do
    if x.pc = .idle ∧ (res, w) ∈ x.held then
      return (← s.releaseVar t res w, { x with held := x.held.erase (res, w) })
    else none
  | .setLinkerInit res b, s, x =>
    if x.pc = .idle ∧ (res, true) ∈ x.held then some (s.setVar res { s.vars res with is_linker_init := b }, x) else none

abbrev Config (Thread : Type*) := Interleaving.Config (Table Thread) Local Thread

def step : Config Thread → Thread × Act → Option (Config Thread) := Interleaving.step next

/-- All parts are empty, and no thread is in a call. -/
def init : Config Thread where
  shared := ⟨fun _ => ⟨.free,none⟩,fun _ => ⟨.free,0,false,none⟩,0⟩
  threads _ := ⟨.idle,[],[]⟩

end Step

/-- The variable is linked in the part. -/
def Linked {Thread : Type*} (s : Table Thread) (i : ℕ) (r : Ref) : Prop :=
  ∃ l, LinkedQueue.Links (fun r => (s.vars r).next) (s.tab_ i).val l ∧ r ∈ l

end CompilerRt.Tsan.SyncTab
