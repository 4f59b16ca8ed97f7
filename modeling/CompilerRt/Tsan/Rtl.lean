import CompilerRt.Tsan.Clock
import CompilerRt.Tsan.Shadow

/-! # The state of the detector and its memory accesses

The data of `lib/tsan/rtl/tsan_rtl.h` and `tsan_sync.h` that the clocks and the shadow depend on, and the
accesses of `tsan_rtl.cc`. A failing `CHECK` or `DCHECK`, and `Die`, end the run: the step has no result.
-/
namespace CompilerRt.Tsan
open FastState Shadow

/-- What the build chooses. -/
structure Config where
  kShadowCnt : ℕ
  kShadowCnt_eq : kShadowCnt = 2 ∨ kShadowCnt = 4 ∨ kShadowCnt = 8
  IsAppMem : ℕ → Bool

/-- Four slots to a cell, and all memory is that of the application. -/
def fourSlots : Config := ⟨4,Or.inr (Or.inl rfl),fun _ => true⟩

/-- Stack, TLS and the location of the thread's own `ThreadState`, as the system reports them. -/
structure StackAndTls where
  stk_addr : ℕ
  stk_size : ℕ
  tls_addr : ℕ
  tls_size : ℕ
  thr_beg : ℕ
  thr_end : ℕ

structure ThreadState where
  fast_state : u64
  /-- The epoch of the last action that made the thread's clock known to others. -/
  fast_synch_epoch : ℕ
  clock : ThreadClock
  tid : ℕ
  unique_id : ℕ
  is_alive : Bool
  layout : StackAndTls

inductive ThreadStatus where
  | Invalid
  | Created
  | Running
  | Finished
  | Dead
  deriving DecidableEq

structure ThreadContext where
  tid : ℕ
  unique_id : ℕ
  thr : Option ThreadState
  status : ThreadStatus
  detached : Bool
  reuse_count : ℕ
  sync : SyncClock
  epoch0 : ℕ
  epoch1 : ℕ
  dead_next : Option ℕ

structure SyncVar where
  clock : SyncClock
  read_clock : SyncClock
  /-- `kInvalidTid` is `none`. -/
  owner_tid : Option ℕ
  last_lock : u64
  recursion : ℕ
  is_broken : Bool

def SyncVar.new : SyncVar := ⟨.empty,.empty,none,0,0,false⟩

/-- The slots of one shadow cell. -/
abbrev Row := ℕ → u64

/-- The context with its sync table, in which a missing variable is a new one, and the shadow by cells. -/
structure State where
  synctab : ℕ → SyncVar
  thread_seq : ℕ
  unique_thread_seq : ℕ
  alive_threads : ℕ
  max_alive_threads : ℕ
  threads : ℕ → Option ThreadContext
  dead_list_size : ℕ
  dead_list_head : Option ℕ
  dead_list_tail : Option ℕ
  shadow : ℕ → Row

namespace State

def empty : State where
  synctab _ := .new
  thread_seq := 0
  unique_thread_seq := 0
  alive_threads := 0
  max_alive_threads := 0
  threads _ := none
  dead_list_size := 0
  dead_list_head := none
  dead_list_tail := none
  shadow _ _ := 0

/-- The `ThreadState` of a running thread. -/
def thr (s : State) (t : ℕ) : Option ThreadState := do (← s.threads t).thr

def setContext (s : State) (t : ℕ) (tctx : ThreadContext) : State :=
  { s with threads := Function.update s.threads t (some tctx) }

/-- Write back the `ThreadState` of a running thread. -/
def setThr (s : State) (t : ℕ) (thr : ThreadState) : State :=
  { s with threads := Function.update s.threads t ((s.threads t).map ({ · with thr := some thr })) }

def setSync (s : State) (addr : ℕ) (v : SyncVar) : State := { s with synctab := Function.update s.synctab addr v }

def setRow (s : State) (cell : ℕ) (row : Row) : State := { s with shadow := Function.update s.shadow cell row }

end State

/-! ## Memory accesses -/

def BothReads (s : u64) (kAccessIsWrite : Bool) : Bool := !kAccessIsWrite && !is_write s
def OldIsRWStronger (old : u64) (kAccessIsWrite : Bool) : Bool := is_write old || !kAccessIsWrite
def OldIsRWWeaker (old : u64) (kAccessIsWrite : Bool) : Bool := !is_write old || kAccessIsWrite
def OldIsInSameSynchEpoch (old : u64) (thr : ThreadState) : Bool := thr.fast_synch_epoch ≤ epoch old
def HappensBefore (old : u64) (thr : ThreadState) : Bool := epoch old ≤ thr.clock.get (tid old)

/-- Stores the word that is still to be stored, which may be zero by now. -/
def StoreIfNotYetStored (row : Row) (sp : ℕ) (store_word : u64) : Row × u64 :=
  (Function.update row sp store_word, 0)

/-- How one slot ends: the scan goes on, returns because the slot holds the same information, or races. -/
inductive Scan where
  | next (row : Row) (store_word : u64)
  | same (row : Row)
  | race (row : Row) (old : u64)

section Access
variable (cfg : Config) (thr : ThreadState) (kAccessSizeLog : ℕ) (kAccessIsWrite : Bool) (cur : u64)

/-- The body of `tsan_update_shadow_word_inl.h`. -/
def update_shadow_word (idx : ℕ) (row : Row) (store_word : u64) : Scan :=
  let kAccessSize : u64 := (1 : u64) <<< kAccessSizeLog
  let off := ComputeSearchOffset cur
  let sp := (idx + off) % cfg.kShadowCnt
  let old := row sp
  let store := StoreIfNotYetStored row sp store_word
  if IsZero old then
    if store_word ≠ 0 then .next store.1 store.2 else .next row store_word
  else if Addr0AndSizeAreEqual cur old then
    if TidsAreEqual old cur then
      if OldIsInSameSynchEpoch old thr then
        if OldIsRWStronger old kAccessIsWrite then .same row else .next store.1 store.2
      else if OldIsRWWeaker old kAccessIsWrite then .next store.1 store.2
      else .next row store_word
    else if HappensBefore old thr then .next store.1 store.2
    else if BothReads old kAccessIsWrite then .next row store_word
    else .race row old
  else if TwoRangesIntersect old cur kAccessSize then
    if TidsAreEqual old cur then .next row store_word
    else if HappensBefore old thr then .next row store_word
    else if BothReads old kAccessIsWrite then .next row store_word
    else .race row old
  else .next row store_word

/-- The slots from `idx` on; at the end a word that found no slot replaces one. -/
def scan : List ℕ → Row → u64 → Row × Option u64
  | [], row, store_word =>
    if store_word = 0 then (row, none)
    else (Function.update row (epoch cur % cfg.kShadowCnt) store_word, none)
  | idx :: rest, row, store_word =>
    match update_shadow_word cfg thr kAccessSizeLog kAccessIsWrite cur idx row store_word with
    | .next row store_word => scan rest row store_word
    | .same row => (row, none)
    | .race row old => (row, some old)

/-- The new slots of the cell, and the old word if the access races with it. -/
def MemoryAccessImpl (row : Row) : Row × Option u64 :=
  scan cfg thr kAccessSizeLog kAccessIsWrite cur (List.range cfg.kShadowCnt) row cur

end Access

/-- An access by the running thread `t`; the result says with which old word it races. -/
def MemoryAccess (cfg : Config) (s : State) (t addr kAccessSizeLog : ℕ) (kAccessIsWrite : Bool) :
    Option (State × Option u64) := do
  let thr ← s.thr t
  let fast_state := thr.fast_state
  if GetIgnoreBit fast_state then return (s, none)
  let fast_state ← IncrementEpoch fast_state
  let thr := { thr with fast_state := fast_state }
  let cur ← SetAddr0AndSizeLog fast_state (addr % 8) kAccessSizeLog
  let cur ← SetWrite cur kAccessIsWrite
  let cell := addr / kShadowCell
  let (row, race) := MemoryAccessImpl cfg thr kAccessSizeLog kAccessIsWrite cur (s.shadow cell)
  return ((s.setThr t thr).setRow cell row, race)

def MemoryRead1Byte (cfg : Config) (s : State) (t addr : ℕ) : Option (State × Option u64) :=
  MemoryAccess cfg s t addr 0 false

/-! ## Ranges -/

def kMaxResetSize : ℕ := 4 * 1024 * 1024 * 1024

/-- The whole cells of the range get `val` in their first slot and zeros in the others. -/
def MemoryRangeSet (cfg : Config) (shadow : ℕ → Row) (addr size : ℕ) (val : u64) : ℕ → Row :=
  if size = 0 then shadow
  else
    let offset := addr % kShadowCell
    let offset := if offset ≠ 0 then kShadowCell - offset else 0
    if offset ≠ 0 ∧ size ≤ offset then shadow
    else
      let addr := addr + offset
      let size := size - offset
      if !cfg.IsAppMem addr || !cfg.IsAppMem (addr + size - 1) then shadow
      else
        let size := if size > kMaxResetSize then kMaxResetSize else size
        let size := (size + (kShadowCell - 1)) / kShadowCell * kShadowCell
        fun cell =>
          if addr / kShadowCell ≤ cell ∧ cell < addr / kShadowCell + size / kShadowCell then
            fun i => if i = 0 then val else 0
          else shadow cell

def MemoryResetRange (cfg : Config) (s : State) (addr size : ℕ) : State :=
  { s with shadow := MemoryRangeSet cfg s.shadow addr size 0 }

end CompilerRt.Tsan
