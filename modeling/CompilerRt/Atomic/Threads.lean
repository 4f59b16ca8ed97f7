import CompilerRt.Atomic.Sequential
import CompilerRt.Lib.Interleaving
import CompilerRt.Lib.Linearizability
import CompilerRt.Lib.Phases

/-! # Threads that use one object

Each thread has its operands in its own memory, and calls the generic and the sized operations on an object that all of
them see. The steps of their programs interleave.
-/
namespace CompilerRt.Atomic
open ByteOrder Store

/-- An object of `size` bytes below the threads' own memory. -/
structure Setting where
  T : Target
  size : ℕ
  ptr : ℕ
  stack : ℕ
  below : ptr + size ≤ stack

abbrev Value (n : ℕ) := {bs : List Byte // bs.length = n}

inductive Operation (n : ℕ)
  | load
  | store (val : Value n)
  | exchange (val : Value n)
  | compareExchange (expected desired : Value n)
  | fetch (op : FetchOp) (val : Value n)
  deriving DecidableEq

inductive Response
  | stored
  | value (v : List Byte)
  /-- Whether the exchange took place, and what is then in `*expected`. -/
  | compared (exchanged : Bool) (expected : List Byte)
  deriving DecidableEq

/-- The operation in one step. -/
def spec (T : Target) {n : ℕ} (v : List Byte) : Operation n → List Byte × Response
  | .load => (v,.value v)
  | .store val => (val.1,.stored)
  | .exchange val => (val.1,.value v)
  | .compareExchange expected desired =>
    if v = expected.1 then (desired.1,.compared true v) else (v,.compared false v)
  | .fetch op val => (op.apply T n v val.1,.value v)

inductive Entry
  | generic
  | sized
  deriving DecidableEq

inductive Mechanism
  | lock
  | hardware (width : ℕ)
  deriving DecidableEq

namespace Setting
variable (S : Setting)

/-- The thread's first operand, and the second one after it. -/
def first : ℕ := S.stack

def second : ℕ := S.stack + S.size

end Setting

namespace Entry
variable (S : Setting)

def call : Entry → Call → Program Bool
  | .generic, c => c.generic S.T S.size S.ptr
  | .sized, c => c.sized S.T S.size S.ptr

/-- The operand objects are filled, the operation is called, and its result is fetched. -/
def program (e : Entry) : Operation S.size → Program Response
  | .load => do
    let _ ← e.call S (.load S.first)
    let v ← Atomic.load S.first 0 S.size
    return .value v
  | .store val => do
    Atomic.store S.first 0 val.1
    let _ ← e.call S (.store S.first)
    return .stored
  | .exchange val => do
    Atomic.store S.first 0 val.1
    let _ ← e.call S (.exchange S.first S.second)
    let v ← Atomic.load S.second 0 S.size
    return .value v
  | .compareExchange expected desired => do
    Atomic.store S.first 0 expected.1
    Atomic.store S.second 0 desired.1
    let exchanged ← e.call S (.compareExchange S.first S.second)
    let v ← Atomic.load S.first 0 S.size
    return .compared exchanged v
  | .fetch op val => do
    let v ← atomicFetchN S.T op S.size S.ptr val.1
    return .value v

/-- The operations that each entry point has, but for the generic store. -/
def Offers : Entry → Operation S.size → Prop
  | .generic, .load | .generic, .exchange _ | .generic, .compareExchange _ _ => True
  | .generic, .store _ | .generic, .fetch _ _ => False
  | .sized, _ => S.size ∈ [1,2,4,8]

instance (e : Entry) (op : Operation S.size) : Decidable (e.Offers S op) := by
  cases e <;> cases op <;> unfold Offers <;> infer_instance

/-- What the entry point uses for objects of this size. -/
def mechanism : Entry → Mechanism
  | .generic => (lockFreeWidth S.T S.size).elim .lock .hardware
  | .sized => if S.T.isLockFree S.size then .hardware S.size else .lock

end Entry

/-! ## The threads -/

structure Thread where
  own : ℕ → Byte
  running : Option (Program Response)

inductive Action (n : ℕ)
  | invoke (e : Entry) (op : Operation n)
  | step
  | respond (r : Response)

section Machine
variable (S : Setting) {Tid : Type} [DecidableEq Tid]

def next (_ : Tid) (a : Action S.size) (s : Store) (x : Thread) : Option (Store × Thread) :=
  match a,x.running with
  | .invoke e op,none => if e.Offers S op then some (s,{ x with running := some (e.program S op) }) else none
  | .step,some p =>
    (p.next ⟨Program.view S.stack x.own s.bytes,s.locked⟩).map fun r =>
      (⟨Program.view S.stack s.bytes r.2.bytes,r.2.locked⟩,⟨Program.view S.stack r.2.bytes x.own,some r.1⟩)
  | .respond r,some (.ret r') => if r' = r then some (s,{ x with running := none }) else none
  | _,_ => none

abbrev Threads (Tid : Type) := Interleaving.Config Store Thread Tid

def step : Threads Tid → Tid × Action S.size → Option (Threads Tid) := Interleaving.step (next S)

/-- What is seen of a step from outside. -/
def event (e : Tid × Action S.size) : Option (Linearizability.Event Tid (Operation S.size) Response) :=
  match e.2 with
  | .invoke _ op => some (.invoke e.1 op)
  | .step => none
  | .respond r => some (.respond e.1 r)

def history (es : List (Tid × Action S.size)) : List (Linearizability.Event Tid (Operation S.size) Response) :=
  es.filterMap (event S)

/-- The operations that the step calls use the mechanism. -/
def Uses (mechanism : Mechanism) (e : Tid × Action S.size) : Prop :=
  ∀ entry op, e.2 = .invoke entry op → entry.mechanism S = mechanism

/-- The bytes of the object. -/
def object (s : Store) : List Byte := readBytes s.bytes S.ptr S.size

end Machine
end CompilerRt.Atomic
