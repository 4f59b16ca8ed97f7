import CompilerRt.Lib.Interleaving
import Mathlib.Data.Fintype.Basic

/-! # Reference counts of `BlocksRuntime/runtime.c`

Threads copy and release one heap block, or one `__block` variable that has been moved to the heap. Each load of the
flags, each compare-and-swap and each call of the dispose helper and the deallocator is a step of its own; a thread
stands where its program counter says. What the runtime does not keep itself (who holds a reference, how many there
were, whether the memory was used after it was freed) is recorded beside the object.
-/
namespace CompilerRt.Blocks

abbrev Word := BitVec 32

def BLOCK_REFCOUNT_MASK : Word := 0xffff
def BLOCK_NEEDS_FREE : Word := 1 <<< 24
def BLOCK_HAS_COPY_DISPOSE : Word := 1 <<< 25
def BLOCK_IS_GC : Word := 1 <<< 27
def BLOCK_IS_GLOBAL : Word := 1 <<< 28

/-- What the functions are called on. -/
inductive Object
  | block
  | byref
  deriving DecidableEq,Repr

/-- Where a thread is in `_Block_copy_internal`, `_Block_byref_assign_copy`, `latching_incr_int`, `latching_decr_int`,
`_Block_byref_release` and `_Block_release`. -/
inductive Pc
  | idle
  | copyNeedsFree
  | copyIsGC
  | copyIsGlobal
  | assignIsGC
  | assignCount
  | assignNeedsFree
  | assign
  | incrLoad
  | incrCas (old_value : Word)
  | byrefNeedsFree
  | byrefCount
  | decrLoad
  | decrCas (old_value : Word)
  | hitIsGC
  | hitNeedsFree
  | hitIsGlobal
  | hasDispose
  | dispose
  | deallocate
  deriving DecidableEq,Repr

structure Shared (Tid : Type) where
  flags : Word
  /-- The `forwarding` pointer was set to another copy. -/
  forwarded : Bool
  disposals : ℕ
  deallocations : ℕ
  freed : Bool
  usedAfterFree : Bool
  /-- The references that each thread has. -/
  held : Tid → ℕ
  references : ℕ
  releases : ℕ
  /-- The count has reached `BLOCK_REFCOUNT_MASK`. -/
  latched : Bool
  /-- The thread whose release made the count zero. -/
  destroyer : Option Tid

inductive Action (Tid : Type)
  | copy
  | release
  /-- A reference is handed to another thread. -/
  | give (other : Tid)
  | next

section Steps
variable {Tid : Type} [DecidableEq Tid]

namespace Shared

/-- An access to the object's memory. -/
def touch (g : Shared Tid) : Shared Tid := { g with usedAfterFree := g.usedAfterFree || g.freed }

def gain (t : Tid) (g : Shared Tid) : Shared Tid :=
  { g with held := fun u => if u = t then g.held u + 1 else g.held u, references := g.references + 1 }

def drop (t : Tid) (g : Shared Tid) : Shared Tid :=
  { g with held := fun u => if u = t then g.held u - 1 else g.held u, releases := g.releases + 1 }

def give (t other : Tid) (g : Shared Tid) : Shared Tid :=
  let held := fun u => if u = t then g.held u - 1 else g.held u
  { g with held := fun u => if u = other then held u + 1 else held u }

end Shared

variable (object : Object) (t : Tid)

/-- The call that takes a reference: `_Block_copy`, or `_Block_byref_assign_copy`. -/
def startCopy : Pc :=
  match object with
  | .block => .copyNeedsFree
  | .byref => .assignIsGC

/-- The call that gives one back: `_Block_release`, or `_Block_byref_release`. -/
def startRelease : Pc :=
  match object with
  | .block => .decrLoad
  | .byref => .byrefNeedsFree

/-- After `latching_incr_int` a copy returns, and `_Block_byref_assign_copy` still reads the forwarding pointer. -/
def afterIncr : Pc :=
  match object with
  | .block => .idle
  | .byref => .assign

/-- `latching_decr_int` has returned zero. -/
def hitZero : Pc :=
  match object with
  | .block => .hitIsGC
  | .byref => .hasDispose

/-- A flag is loaded and tested. -/
def test (flag : Word) (yes no : Pc) (g : Shared Tid) : Shared Tid × Pc :=
  (g.touch,if g.flags &&& flag ≠ 0 then yes else no)

/-- The next step of a call. -/
def exec (g : Shared Tid) : Pc → Option (Shared Tid × Pc)
  | .idle => none
  -- _Block_copy_internal; a global block is returned as it is, and of a stack block another one is made.
  | .copyNeedsFree => some (test BLOCK_NEEDS_FREE .incrLoad .copyIsGC g)
  | .copyIsGC => some (test BLOCK_IS_GC .incrLoad .copyIsGlobal g)
  | .copyIsGlobal => some (g.touch,.idle)
  -- _Block_byref_assign_copy
  | .assignIsGC => some (test BLOCK_IS_GC .assign .assignCount g)
  | .assignCount =>
    if g.flags &&& BLOCK_REFCOUNT_MASK = 0 then some ({ g.touch with forwarded := true },.assign)
    else some (g.touch,.assignNeedsFree)
  | .assignNeedsFree => some (test BLOCK_NEEDS_FREE .incrLoad .assign g)
  | .assign => some (g.touch,.idle)
  -- latching_incr_int
  | .incrLoad =>
    let old_value := g.flags
    if old_value &&& BLOCK_REFCOUNT_MASK = BLOCK_REFCOUNT_MASK then some (g.touch.gain t,afterIncr object)
    else some (g.touch,.incrCas old_value)
  | .incrCas old_value =>
    if g.flags = old_value then
      let g := { g.touch with
        flags := old_value + 1
        latched := g.latched || (old_value + 1) &&& BLOCK_REFCOUNT_MASK == BLOCK_REFCOUNT_MASK }
      some (g.gain t,afterIncr object)
    else some (g.touch,.incrLoad)
  -- _Block_byref_release; the last case there is the message that the count underflowed.
  | .byrefNeedsFree => some (test BLOCK_NEEDS_FREE .byrefCount .idle g)
  | .byrefCount => some (test BLOCK_REFCOUNT_MASK .decrLoad .idle g)
  -- latching_decr_int
  | .decrLoad =>
    let old_value := g.flags
    if old_value &&& BLOCK_REFCOUNT_MASK = BLOCK_REFCOUNT_MASK then some (g.touch.drop t,.idle)
    else if old_value &&& BLOCK_REFCOUNT_MASK = 0 then some (g.touch,hitZero object)
    else some (g.touch,.decrCas old_value)
  | .decrCas old_value =>
    if g.flags = old_value then
      let g := Shared.drop t { g.touch with flags := old_value - 1 }
      if (old_value - 1) &&& BLOCK_REFCOUNT_MASK = 0 then some ({ g with destroyer := some t },hitZero object)
      else some (g,.idle)
    else some (g.touch,.decrLoad)
  -- _Block_release after the count hit zero; the collector is told of a block of its own.
  | .hitIsGC => some (test BLOCK_IS_GC .idle .hitNeedsFree g)
  | .hitNeedsFree => some (test BLOCK_NEEDS_FREE .hasDispose .hitIsGlobal g)
  | .hitIsGlobal => some (g.touch,.idle)
  -- the end of both releases
  | .hasDispose => some (test BLOCK_HAS_COPY_DISPOSE .dispose .deallocate g)
  | .dispose => some ({ g.touch with disposals := g.disposals + 1 },.deallocate)
  | .deallocate => some ({ g.touch with deallocations := g.deallocations + 1, freed := true },.idle)

/-- A thread calls only while it has a reference. -/
def next (a : Action Tid) (g : Shared Tid) (pc : Pc) : Option (Shared Tid × Pc) :=
  match a with
  | .copy => if pc = .idle ∧ 0 < g.held t then some (g,startCopy object) else none
  | .release => if pc = .idle ∧ 0 < g.held t then some (g,startRelease object) else none
  | .give other => if pc = .idle ∧ 0 < g.held t then some (g.give t other,.idle) else none
  | .next => exec object t g pc

end Steps

abbrev Config (Tid : Type) := Interleaving.Config (Shared Tid) Pc Tid

def step {Tid : Type} [DecidableEq Tid] (object : Object) : Config Tid → Tid × Action Tid → Option (Config Tid) :=
  Interleaving.step fun t => next object t

/-- The object as it is when the threads start, with all references handed out. -/
def start {Tid : Type} (flags : Word) (held : Tid → ℕ) : Config Tid where
  shared :=
    { flags := flags
      forwarded := false
      disposals := 0
      deallocations := 0
      freed := false
      usedAfterFree := false
      held := held
      references := (flags &&& BLOCK_REFCOUNT_MASK).toNat
      releases := 0
      latched := false
      destroyer := none }
  threads := fun _ => .idle

/-- The flags of the heap block that `_Block_copy_internal` makes of a stack block. -/
def copiedBlockFlags (aBlock_flags : Word) : Word := (aBlock_flags &&& ~~~BLOCK_REFCOUNT_MASK) ||| (BLOCK_NEEDS_FREE ||| 1)

/-- The flags of the heap copy that `_Block_byref_assign_copy` makes: one for the caller, one for the stack. -/
def copiedByrefFlags (src_flags : Word) : Word := src_flags ||| (BLOCK_NEEDS_FREE ||| 2)

end CompilerRt.Blocks
