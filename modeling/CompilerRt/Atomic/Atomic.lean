import CompilerRt.Lib.Program

/-! # The atomic operations of `lib/atomic.c`

The generic operations take the size of the object and pointers to their operands, the sized ones take and return
values. Both use the hardware for some sizes and a lock from a table for the others, and each makes that choice by
itself.
-/
namespace CompilerRt.Atomic
open ByteOrder

/-- What the target decides. -/
structure Target where
  /-- The bits of `intptr_t`. -/
  pointerBits : ℕ
  order : Order
  /-- `__c11_atomic_is_lock_free` -/
  isLockFree : ℕ → Bool

def SPINLOCK_COUNT : ℕ := 1 <<< 10

section Model
variable (T : Target)

/-- The index of the lock for a given pointer. -/
def lockForPointer (ptr : ℕ) : ℕ :=
  let mask := BitVec.ofNat T.pointerBits (SPINLOCK_COUNT - 1)
  let hash := (BitVec.ofNat T.pointerBits ptr).sshiftRight 4
  let low := hash &&& mask
  let hash := hash.sshiftRight 16
  let hash := hash ^^^ low
  (hash &&& mask).toNat

/-! ## Steps -/

def load (p offset n : ℕ) : Program (List Byte) := .load p offset n .ret

def store (p offset : ℕ) (bs : List Byte) : Program Unit := .store p offset bs (.ret ())

def lock (l : ℕ) : Program Unit := .acquire l (.ret ())

def unlock (l : ℕ) : Program Unit := .release l (.ret ())

/-- `__c11_atomic_load` -/
def c11Load (p n : ℕ) : Program (List Byte) := .atomic p n id .ret

/-- `__c11_atomic_store` -/
def c11Store (p n : ℕ) (bs : List Byte) : Program Unit := .atomic p n (fun _ => bs) fun _ => .ret ()

/-- `__c11_atomic_exchange` -/
def c11Exchange (p n : ℕ) (bs : List Byte) : Program (List Byte) := .atomic p n (fun _ => bs) .ret

/-- `__c11_atomic_compare_exchange_strong`, which is given a pointer to the expected value. -/
def c11CompareExchange (p n expected : ℕ) (desired : List Byte) : Program Bool := do
  let e ← load expected 0 n
  let old ← Program.atomic p n (fun old => if old = e then desired else old) .ret
  if old = e then return true
  else
    store expected 0 old
    return false

/-- From `offset` on, one byte after the other. -/
def memcpy (dst src : ℕ) : ℕ → ℕ → Program Unit
  | _, 0 => return ()
  | offset, n + 1 => do
    let b ← load src offset 1
    store dst offset b
    memcpy dst src (offset + 1) n

/-- Whether `memcmp` finds the bytes equal. -/
def memcmp (p q : ℕ) : ℕ → ℕ → Program Bool
  | _, 0 => return true
  | offset, n + 1 => do
    let a ← load p offset 1
    let b ← load q offset 1
    if a = b then memcmp p q (offset + 1) n else return false

/-! ## The generic operations -/

section Cases
variable {α : Type} (action : ℕ → Program α) (otherwise : Program α)

/-- From `case 8` on. The action of `case 16` is commented out. -/
def lockFreeCase8 : Program α := if T.isLockFree 8 then action 8 else otherwise

/-- From `case 4` on. -/
def lockFreeCase4 : Program α := if T.isLockFree 4 then action 4 else lockFreeCase8 T action otherwise

/-- From `case 2` on. -/
def lockFreeCase2 : Program α := if T.isLockFree 2 then action 2 else lockFreeCase4 T action otherwise

/-- `LOCK_FREE_CASES` and what comes after it. A case whose size is not lock-free falls through to the next. -/
def lockFreeCases (size : ℕ) : Program α :=
  match size with
  | 2 => lockFreeCase2 T action otherwise
  | 4 => lockFreeCase4 T action otherwise
  | 8 => lockFreeCase8 T action otherwise
  | _ => otherwise

end Cases

def atomicLoadC (size src dest : ℕ) : Program Unit :=
  lockFreeCases T
    (fun type => do
      let v ← c11Load src type
      store dest 0 v)
    (do
      lock (lockForPointer T src)
      memcpy dest src 0 size
      unlock (lockForPointer T src))
    size

/-- The lock-free action stores `*(type*)dest`. -/
def atomicStoreC (size dest src : ℕ) : Program Unit :=
  lockFreeCases T
    (fun type => do
      let v ← load dest 0 type
      c11Store dest type v)
    (do
      lock (lockForPointer T dest)
      memcpy dest src 0 size
      unlock (lockForPointer T dest))
    size

def atomicCompareExchangeC (size ptr expected desired : ℕ) : Program Bool :=
  lockFreeCases T
    (fun type => do
      let d ← load desired 0 type
      c11CompareExchange ptr type expected d)
    (do
      lock (lockForPointer T ptr)
      if ← memcmp ptr expected 0 size then
        memcpy ptr desired 0 size
        unlock (lockForPointer T ptr)
        return true
      else
        memcpy expected ptr 0 size
        unlock (lockForPointer T ptr)
        return false)
    size

def atomicExchangeC (size ptr val old : ℕ) : Program Unit :=
  lockFreeCases T
    (fun type => do
      let v ← load val 0 type
      let o ← c11Exchange ptr type v
      store old 0 o)
    (do
      lock (lockForPointer T ptr)
      memcpy old ptr 0 size
      memcpy ptr val 0 size
      unlock (lockForPointer T ptr))
    size

/-! ## The sized operations -/

/-- `__atomic_load_n` -/
def atomicLoadN (n src : ℕ) : Program (List Byte) :=
  if T.isLockFree n then c11Load src n
  else do
    lock (lockForPointer T src)
    let val ← load src 0 n
    unlock (lockForPointer T src)
    return val

/-- `__atomic_store_n` -/
def atomicStoreN (n dest : ℕ) (val : List Byte) : Program Unit :=
  if T.isLockFree n then c11Store dest n val
  else do
    lock (lockForPointer T dest)
    store dest 0 val
    unlock (lockForPointer T dest)

/-- `__atomic_exchange_n` -/
def atomicExchangeN (n dest : ℕ) (val : List Byte) : Program (List Byte) :=
  if T.isLockFree n then c11Exchange dest n val
  else do
    lock (lockForPointer T dest)
    let tmp ← load dest 0 n
    store dest 0 val
    unlock (lockForPointer T dest)
    return tmp

/-- `__atomic_compare_exchange_n` -/
def atomicCompareExchangeN (n ptr expected : ℕ) (desired : List Byte) : Program Bool :=
  if T.isLockFree n then c11CompareExchange ptr n expected desired
  else do
    lock (lockForPointer T ptr)
    let v ← load ptr 0 n
    let e ← load expected 0 n
    if v = e then
      store ptr 0 desired
      unlock (lockForPointer T ptr)
      return true
    else
      let v ← load ptr 0 n
      store expected 0 v
      unlock (lockForPointer T ptr)
      return false

inductive FetchOp
  | add
  | sub
  | and
  | or
  | xor
  deriving DecidableEq,Repr

/-- `tmp op val` at the type of `n` bytes. -/
def FetchOp.apply (op : FetchOp) (n : ℕ) (tmp val : List Byte) : List Byte :=
  let x := BitVec.ofNat (8 * n) (ofBytes T.order tmp)
  let y := BitVec.ofNat (8 * n) (ofBytes T.order val)
  let z := match op with
    | .add => x + y
    | .sub => x - y
    | .and => x &&& y
    | .or => x ||| y
    | .xor => x ^^^ y
  toBytes T.order n z.toNat

/-- `__atomic_fetch_opname_n` -/
def atomicFetchN (op : FetchOp) (n ptr : ℕ) (val : List Byte) : Program (List Byte) :=
  if T.isLockFree n then .atomic ptr n (fun tmp => op.apply T n tmp val) .ret
  else do
    lock (lockForPointer T ptr)
    let tmp ← load ptr 0 n
    store ptr 0 (op.apply T n tmp val)
    unlock (lockForPointer T ptr)
    return tmp

/-! ## The choice -/

/-- The width that the generic operations use the hardware with, if they do. -/
def lockFreeWidth (size : ℕ) : Option ℕ :=
  match size with
  | 2 => if T.isLockFree 2 then some 2 else if T.isLockFree 4 then some 4 else if T.isLockFree 8 then some 8 else none
  | 4 => if T.isLockFree 4 then some 4 else if T.isLockFree 8 then some 8 else none
  | 8 => if T.isLockFree 8 then some 8 else none
  | _ => none

theorem lockFreeCases_eq {α : Type} (action : ℕ → Program α) (otherwise : Program α) (size : ℕ) :
    lockFreeCases T action otherwise size = (lockFreeWidth T size).elim otherwise action := by
  have h₈ : lockFreeCase8 T action otherwise = (if T.isLockFree 8 then some 8 else none).elim otherwise action := by
    rw [lockFreeCase8]
    split <;> rfl
  have h₄ : lockFreeCase4 T action otherwise =
      (if T.isLockFree 4 then some 4 else if T.isLockFree 8 then some 8 else none).elim otherwise action := by
    rw [lockFreeCase4,h₈]
    cases T.isLockFree 4 <;> rfl
  unfold lockFreeCases lockFreeWidth
  split
  · rw [lockFreeCase2,h₄]
    cases T.isLockFree 2 <;> rfl
  · exact h₄
  · exact h₈
  · rfl

theorem le_lockFreeWidth {size w : ℕ} (h : lockFreeWidth T size = some w) : size ≤ w := by
  unfold lockFreeWidth at h
  grind

end Model
end CompilerRt.Atomic
