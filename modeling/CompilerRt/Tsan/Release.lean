import CompilerRt.Lib.Transition
import CompilerRt.Tsan.Scan

/-! # The build without debug checks

Accesses to single places and to ranges, with threads that ignore accesses for a while, as they are when
`DCHECK` is compiled out: nothing then keeps a thread's word with its ignore bit from becoming a shadow word.
A race is reported without a change to the state.
-/
namespace CompilerRt.Tsan.Release
open FastState Shadow

def IncrementEpoch (x : u64) : u64 := x + (1 : u64) <<< kClkShift

def SetIgnoreBit (x : u64) : u64 := x ||| kIgnoreBit
def ClearIgnoreBit (x : u64) : u64 := x &&& ~~~kIgnoreBit

def SetAddr0AndSizeLog (x : u64) (addr0 kAccessSizeLog : ℕ) : u64 :=
  x ||| (BitVec.ofNat 64 kAccessSizeLog <<< 3 ||| BitVec.ofNat 64 addr0)

def SetWrite (x : u64) (kAccessIsWrite : Bool) : u64 := if kAccessIsWrite then x ||| 32 else x

def MarkAsFreed (x : u64) : u64 := x ||| kFreedBit

def GetFreedAndReset (x : u64) : Bool × u64 := (x &&& kFreedBit != 0, x &&& ~~~kFreedBit)

structure Thread extends ThreadState where
  ignore_reads_and_writes : ℕ

structure State where
  threads : ℕ → Option Thread
  shadow : ℕ → Row
  /-- The size in the header of an allocated block. -/
  size : ℕ → ℕ
  initialized : Bool

def State.setThread (s : State) (t : ℕ) (thr : Thread) : State :=
  { s with threads := Function.update s.threads t (some thr) }

section Access
variable (cfg : Config)

def MemoryAccess (s : State) (t addr kAccessSizeLog : ℕ) (kAccessIsWrite : Bool) : Option State := do
  let thr ← s.threads t
  if GetIgnoreBit thr.fast_state then return s
  let fast_state := IncrementEpoch thr.fast_state
  let thr := { thr with fast_state := fast_state }
  let cur := SetWrite (SetAddr0AndSizeLog fast_state (addr % 8) kAccessSizeLog) kAccessIsWrite
  let cell := addr / kShadowCell
  let row := (MemoryAccessImpl cfg thr.toThreadState kAccessSizeLog kAccessIsWrite cur (s.shadow cell)).1
  return { s.setThread t thr with shadow := Function.update s.shadow cell row }

section Range
variable (thr : ThreadState) (is_write : Bool)

/-- One access of a range, with the shadow at the cell `shadow_mem`. -/
def rangeAccess (addr0 kAccessSizeLog shadow_mem : ℕ) (shadow : ℕ → Row) : ℕ → Row :=
  let cur := SetAddr0AndSizeLog (SetWrite thr.fast_state is_write) addr0 kAccessSizeLog
  Function.update shadow shadow_mem (MemoryAccessImpl cfg thr kAccessSizeLog is_write cur (shadow shadow_mem)).1

/-- The unaligned beginning; what is left of the range comes back with the shadow. -/
def rangeBeginning (shadow_mem : ℕ) : ℕ → ℕ → (ℕ → Row) → ℕ × ℕ × (ℕ → Row)
  | addr, 0, shadow => (addr,0,shadow)
  | addr, size + 1, shadow =>
    if addr % kShadowCell ≠ 0 then
      rangeBeginning shadow_mem (addr + 1) size
        (rangeAccess cfg thr is_write (addr % kShadowCell) 0 shadow_mem shadow)
    else (addr,size + 1,shadow)

/-- The middle part of `n` whole cells. -/
def rangeMiddle : ℕ → ℕ → (ℕ → Row) → ℕ → Row
  | 0, _, shadow => shadow
  | n + 1, shadow_mem, shadow => rangeMiddle n (shadow_mem + 1) (rangeAccess cfg thr is_write 0 3 shadow_mem shadow)

def rangeEnding (shadow_mem : ℕ) : ℕ → ℕ → (ℕ → Row) → ℕ → Row
  | _, 0, shadow => shadow
  | addr, size + 1, shadow =>
    rangeEnding shadow_mem (addr + 1) size (rangeAccess cfg thr is_write (addr % kShadowCell) 0 shadow_mem shadow)

end Range

def MemoryAccessRange (s : State) (t addr size : ℕ) (is_write : Bool) : Option State := do
  let thr ← s.threads t
  if size = 0 then return s
  if GetIgnoreBit thr.fast_state then return s
  let thr := { thr with fast_state := IncrementEpoch thr.fast_state }
  let shadow_mem := addr / kShadowCell
  let unaligned := addr % kShadowCell ≠ 0
  let (addr,size,shadow) := rangeBeginning cfg thr.toThreadState is_write shadow_mem addr size s.shadow
  let shadow_mem := if unaligned then shadow_mem + 1 else shadow_mem
  let cells := size / kShadowCell
  let shadow := rangeMiddle cfg thr.toThreadState is_write cells shadow_mem shadow
  let shadow := rangeEnding cfg thr.toThreadState is_write (shadow_mem + cells) (addr + cells * kShadowCell)
    (size % kShadowCell) shadow
  return { s.setThread t thr with shadow := shadow }

def MemoryResetRange (s : State) (t addr size : ℕ) : Option State := do
  let _ ← s.threads t
  return { s with shadow := MemoryRangeSet cfg s.shadow addr size 0 }

def MemoryRangeFreed (s : State) (t addr size : ℕ) : Option State := do
  let s ← MemoryAccessRange cfg s t addr size true
  let thr ← s.threads t
  let x := SetAddr0AndSizeLog (SetWrite (MarkAsFreed thr.fast_state) true) 0 3
  return { s with shadow := MemoryRangeSet cfg s.shadow addr size x }

def MemoryRangeImitateWrite (s : State) (t addr size : ℕ) : Option State := do
  let thr ← s.threads t
  let x := SetAddr0AndSizeLog (SetWrite thr.fast_state true) 0 3
  return { s with shadow := MemoryRangeSet cfg s.shadow addr size x }

/-- The nesting depth goes up or down, and never below zero. -/
def IgnoreCtl (s : State) (t : ℕ) (begin : Bool) : Option State := do
  let thr ← s.threads t
  if !begin ∧ thr.ignore_reads_and_writes = 0 then none
  else
    let depth := if begin then thr.ignore_reads_and_writes + 1 else thr.ignore_reads_and_writes - 1
    let fast_state := if depth ≠ 0 then SetIgnoreBit thr.fast_state else ClearIgnoreBit thr.fast_state
    return s.setThread t { thr with ignore_reads_and_writes := depth, fast_state := fast_state }

/-- `p` is what the allocator returns for the size `sz`, and zero is its failure. -/
def user_alloc (s : State) (t p sz : ℕ) : Option State := do
  let _ ← s.threads t
  if p = 0 then return s
  let s := { s with size := Function.update s.size p sz }
  if s.initialized then MemoryRangeImitateWrite cfg s t p sz else return s

def user_free (s : State) (t p in_rtl : ℕ) : Option State := do
  let _ ← s.threads t
  if in_rtl = 0 ∨ p = 0 then none
  else if s.initialized ∧ in_rtl = 1 then MemoryRangeFreed cfg s t p (s.size p)
  else return s

end Access

/-! ## Steps -/

inductive Op where
  | MemoryAccess (addr kAccessSizeLog : ℕ) (kAccessIsWrite : Bool)
  | MemoryAccessRange (addr size : ℕ) (is_write : Bool)
  | MemoryRangeImitateWrite (addr size : ℕ)
  | MemoryRangeFreed (addr size : ℕ)
  | MemoryResetRange (addr size : ℕ)
  | user_alloc (p sz : ℕ)
  | user_free (p in_rtl : ℕ)
  | IgnoreCtl (begin : Bool)

/-- Accesses of the program are naturally aligned and of at most eight bytes. -/
def Op.Aligned : Op → Prop
  | MemoryAccess addr n _ => n ≤ 3 ∧ 2^n ∣ addr
  | _ => True

instance (op : Op) : Decidable op.Aligned := by
  cases op <;> unfold Op.Aligned <;> infer_instance

def Op.exec (cfg : Config) (s : State) (t : ℕ) : Op → Option State
  | MemoryAccess addr n w => Release.MemoryAccess cfg s t addr n w
  | MemoryAccessRange addr size w => Release.MemoryAccessRange cfg s t addr size w
  | MemoryRangeImitateWrite addr size => Release.MemoryRangeImitateWrite cfg s t addr size
  | MemoryRangeFreed addr size => Release.MemoryRangeFreed cfg s t addr size
  | MemoryResetRange addr size => Release.MemoryResetRange cfg s t addr size
  | user_alloc p sz => Release.user_alloc cfg s t p sz
  | user_free p in_rtl => Release.user_free cfg s t p in_rtl
  | IgnoreCtl begin => Release.IgnoreCtl s t begin

/-- The range that the step marks as written or freed by the word of its thread. -/
def Op.marks (s : State) : Op → Option (ℕ × ℕ)
  | MemoryRangeImitateWrite addr size | MemoryRangeFreed addr size => some (addr,size)
  | user_alloc p sz => if p ≠ 0 ∧ s.initialized then some (p,sz) else none
  | user_free p in_rtl => if s.initialized ∧ in_rtl = 1 then some (p,s.size p) else none
  | MemoryAccess .. | MemoryAccessRange .. | MemoryResetRange .. | IgnoreCtl _ => none

/-- The offsets in their cells and the size logarithms of the accesses that the step makes. -/
inductive Op.Touches (s : State) : Op → ℕ → ℕ → Prop
  | access (addr n : ℕ) (w : Bool) : Touches s (.MemoryAccess addr n w) (addr % kShadowCell) n
  | byte (addr size : ℕ) (w : Bool) (a : ℕ) (h : addr ≤ a ∧ a < addr + size) :
      Touches s (.MemoryAccessRange addr size w) (a % kShadowCell) 0
  | cell (addr size : ℕ) (w : Bool) : Touches s (.MemoryAccessRange addr size w) 0 3
  | freed (op : Op) (addr size a : ℕ) (h : addr ≤ a ∧ a < addr + size) (hm : op.marks s = some (addr,size)) :
      Touches s op (a % kShadowCell) 0
  | marked (op : Op) (range : ℕ × ℕ) (hm : op.marks s = some range) : Touches s op 0 3

/-- The range has a whole cell in application memory. -/
def Covers (cfg : Config) (addr size : ℕ) : Prop :=
  let first := (addr + (kShadowCell - 1)) / kShadowCell * kShadowCell
  first < addr + size ∧ cfg.IsAppMem first = true ∧ cfg.IsAppMem (addr + size - 1) = true

/-- A thread that ignores accesses marks a range of which a cell gets its word. -/
def Op.MarksIgnoring (cfg : Config) (s : State) (t : ℕ) (op : Op) : Prop :=
  ∃ thr addr size, s.threads t = some thr ∧ thr.ignore_reads_and_writes ≠ 0 ∧ op.marks s = some (addr,size) ∧
    Covers cfg addr size

end CompilerRt.Tsan.Release
