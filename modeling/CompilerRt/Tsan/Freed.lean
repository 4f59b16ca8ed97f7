import CompilerRt.Tsan.Bounded
import CompilerRt.Tsan.Times
import CompilerRt.Tsan.WellFormed

/-! # Use after free

Accesses to ranges, freed memory and threads that ignore accesses, on top of the steps of the detector. The
words of ranges are put together as they are without debug checks; only the overflow of an epoch ends a run.
-/
namespace CompilerRt.Tsan
open FastState

/-! ## Which cells a step touches -/

/-- An operation on the range writes the cell. -/
def Sets (cfg : Config) (addr size cell : ℕ) : Prop := MemoryRangeSet cfg (fun _ _ => 0) addr size 1 cell 0 = 1

instance (cfg : Config) (addr size cell : ℕ) : Decidable (Sets cfg addr size cell) :=
  inferInstanceAs (Decidable (_ = _))

/-- The cells that `resetStackAndTls` resets. -/
def StackAndTls.Resets (cfg : Config) (l : StackAndTls) (cell : ℕ) : Prop :=
  l.stk_addr ≠ 0 ∧ l.stk_size ≠ 0 ∧ Sets cfg l.stk_addr l.stk_size cell ∨
    l.tls_addr ≠ 0 ∧ l.tls_size ≠ 0 ∧ (Sets cfg l.tls_addr (l.thr_beg - l.tls_addr) cell ∨
      Sets cfg l.thr_end (l.tls_addr + l.tls_size - l.thr_end) cell)

/-- The running thread has its ignore bit set. -/
def State.Ignores (s : State) (t : ℕ) : Prop := ∃ thr, s.thr t = some thr ∧ GetIgnoreBit thr.fast_state = true

section Touches
variable (cfg : Config) (s : State) (t cell : ℕ)

def Act.Touches : Act → Prop
  | access addr _ _ => addr / kShadowCell = cell ∧ ¬ s.Ignores t
  | start l => t ≠ 0 ∧ l.Resets cfg cell
  | finish => ∃ thr, s.thr t = some thr ∧ thr.layout.Resets cfg cell
  | _ => False

def Op.Touches (op : Op) : Prop := ∃ a ∈ op.acts cfg, a.Touches cfg s t cell

end Touches

section Frame
variable {cfg : Config} {s s' : State} {t cell : ℕ}

/-- Whether a cell is written depends on the range alone. -/
theorem rangeSet_cell (cfg : Config) (addr size cell : ℕ) :
    (∀ sh val, MemoryRangeSet cfg sh addr size val cell = sh cell) ∨
      ∀ sh val, MemoryRangeSet cfg sh addr size val cell = fun i => if i = 0 then val else 0 := by
  unfold MemoryRangeSet
  dsimp only
  generalize (if addr % kShadowCell ≠ 0 then kShadowCell - addr % kShadowCell else 0) = offset
  generalize (if size - offset > kMaxResetSize then kMaxResetSize else size - offset) = length
  by_cases h₀ : size = 0
  · simp only [if_pos h₀]
    exact Or.inl fun _ _ => trivial
  by_cases h₁ : offset ≠ 0 ∧ size ≤ offset
  · simp only [if_neg h₀, if_pos h₁]
    exact Or.inl fun _ _ => trivial
  by_cases h₂ : (!cfg.IsAppMem (addr + offset) || !cfg.IsAppMem (addr + offset + (size - offset) - 1)) = true
  · simp only [if_neg h₀, if_neg h₁, if_pos h₂]
    exact Or.inl fun _ _ => trivial
  simp only [if_neg h₀, if_neg h₁, if_neg h₂]
  by_cases h₃ : (addr + offset) / kShadowCell ≤ cell ∧
      cell < (addr + offset) / kShadowCell + (length + (kShadowCell - 1)) / kShadowCell * kShadowCell / kShadowCell
  · simp only [if_pos h₃]
    exact Or.inr fun _ _ => trivial
  · simp only [if_neg h₃]
    exact Or.inl fun _ _ => trivial

theorem rangeSet_eq (cfg : Config) (sh : ℕ → Row) (addr size : ℕ) (val : u64) (cell : ℕ) :
    MemoryRangeSet cfg sh addr size val cell =
      if Sets cfg addr size cell then fun i => if i = 0 then val else 0 else sh cell := by
  rcases rangeSet_cell cfg addr size cell with h | h
  · have hno : ¬ Sets cfg addr size cell := by
      rw [Sets, h]
      decide
    rw [h, if_neg hno]
  · have hyes : Sets cfg addr size cell := by
      rw [Sets, h]
      rfl
    rw [h, if_pos hyes]

theorem Sets.size_ne_zero {addr size : ℕ} (h : Sets cfg addr size cell) : size ≠ 0 := by
  rintro rfl
  cases h

theorem resetStackAndTls_shadow_eq {l : StackAndTls} (h : ¬ l.Resets cfg cell) :
    (resetStackAndTls cfg s l).shadow cell = s.shadow cell := by
  simp only [StackAndTls.Resets, not_or, not_and] at h
  obtain ⟨hstk,htls⟩ := h
  unfold resetStackAndTls
  dsimp only
  split_ifs with htls' hstk' hstk'
  · simp only [MemoryResetRange, rangeSet_eq, if_neg (htls htls'.1 htls'.2).1, if_neg (htls htls'.1 htls'.2).2,
      if_neg (hstk hstk'.1 hstk'.2)]
  · simp only [MemoryResetRange, rangeSet_eq, if_neg (htls htls'.1 htls'.2).1, if_neg (htls htls'.1 htls'.2).2]
  · simp only [MemoryResetRange, rangeSet_eq, if_neg (hstk hstk'.1 hstk'.2)]
  · rfl

theorem access_shadow_eq {addr n : ℕ} {w : Bool} {race : Option u64}
    (he : MemoryAccess cfg s t addr n w = some (s',race)) (hno : ¬ (Act.access addr n w).Touches cfg s t cell) :
    s'.shadow cell = s.shadow cell := by
  obtain ⟨thr,hthr,⟨-,rfl,-⟩ | ⟨thr',cur,cur',-,-,-,rfl,-⟩⟩ := MemoryAccess_eq_some he
  · rfl
  · by_cases hign : GetIgnoreBit thr.fast_state = true
    · simp [MemoryAccess, hthr, hign] at he
      rw [← he.1]
    · have hcell : cell ≠ addr / kShadowCell := by
        rintro rfl
        refine hno ⟨rfl,fun hign' => hign ?_⟩
        obtain ⟨x,hx,hi⟩ := hign'
        rw [hthr, Option.some.injEq] at hx
        exact hx ▸ hi
      exact Function.update_of_ne hcell _ _

/-- A part of a step keeps the cells that it does not touch. -/
theorem Act.shadow_eq (h : s.Bounded) {a : Act} (he : a.exec cfg s t = some s') (hno : ¬ a.Touches cfg s t cell) :
    s'.shadow cell = s.shadow cell := by
  cases a with
  | access addr n w =>
    simp only [Act.exec, Option.pure_def, Option.bind_eq_bind, Option.bind_eq_some_iff] at he
    obtain ⟨⟨s₁,race⟩,he,h₁⟩ := he
    cases h₁
    exact access_shadow_eq he hno
  | lock addr =>
    obtain ⟨thr,thr',v,-,-,-,rfl⟩ := lockSyncVar_eq_some he
    rfl
  | unlock addr =>
    obtain ⟨thr,thr',-,-,⟨-,-,rfl⟩ | ⟨-,v,rfl,-⟩⟩ := unlockSyncVar_eq_some he
    · rfl
    · rfl
  | readLock addr =>
    obtain ⟨thr,thr',-,-,rfl⟩ := readLockSyncVar_eq_some he
    rfl
  | readUnlock addr =>
    obtain ⟨thr,thr',-,-,rfl⟩ := readUnlockSyncVar_eq_some he
    rfl
  | readOrWriteUnlock addr =>
    obtain ⟨thr,-,⟨-,he⟩ | ⟨-,-,he⟩ | ⟨-,-,v,rfl,-⟩⟩ := readOrWriteUnlockSyncVar_eq_some he
    · obtain ⟨thr,thr',-,-,rfl⟩ := readUnlockSyncVar_eq_some he
      rfl
    · obtain ⟨thr,thr',-,-,⟨-,-,rfl⟩ | ⟨-,v,rfl,-⟩⟩ := unlockSyncVar_eq_some he
      · rfl
      · rfl
    · rfl
  | acquire addr =>
    obtain ⟨thr,-,rfl⟩ := Acquire_eq_some he
    rfl
  | acquireGlobal =>
    obtain ⟨thr,thr',-,-,-,-,-,rfl⟩ := AcquireGlobal_eq_some he
    rfl
  | release addr =>
    obtain ⟨thr,-,rfl⟩ := Release_eq_some he
    rfl
  | releaseStore addr =>
    obtain ⟨thr,-,rfl⟩ := ReleaseStore_eq_some he
    rfl
  | create detached =>
    simp only [Act.exec, Option.pure_def, Option.bind_eq_bind, Option.bind_eq_some_iff] at he
    obtain ⟨⟨s₂,tid⟩,he,h₂⟩ := he
    cases h₂
    obtain ⟨s₁,tctx,thr,thr',-,-,-,-,-,-,-,-,-,hsh,-⟩ := pthread_create_eq_some he
    exact congrFun hsh cell
  | start l =>
    obtain ⟨tctx,x,-,-,-,-,-,-,hsh,-⟩ := ThreadStart_eq_some he
    rw [hsh]
    split_ifs with h0
    · exact resetStackAndTls_shadow_eq fun hl => hno ⟨h0,hl⟩
    · rfl
  | finish =>
    obtain ⟨thr,tctx,hthr,-,-,-,-,hsh,-⟩ := ThreadFinish_eq_some he
    rw [hsh]
    exact resetStackAndTls_shadow_eq fun hl => hno ⟨thr,hthr,hl⟩
  | join v =>
    obtain ⟨thr,tctx,-,-,hcore,⟨-,rfl⟩ | ⟨-,-,himp⟩⟩ := ThreadJoin_eq_some he
    · rfl
    · obtain ⟨-,-,-,hsh,-⟩ := himp (h.context v tctx hcore).tid
      exact congrFun hsh cell
  | detach v =>
    obtain ⟨thr,tctx,-,-,hcore,⟨-,rfl⟩ | ⟨-,himp⟩ | ⟨-,-,-,-,hsh,-⟩⟩ := ThreadDetach_eq_some he
    · rfl
    · obtain ⟨-,-,-,hsh,-⟩ := himp (h.context v tctx hcore).tid
      exact congrFun hsh cell
    · exact congrFun hsh cell

theorem execs_onMutex_shadow_eq (h : s.Bounded) {addr : ℕ} {a : Act} (ha : ∀ s, ¬ a.Touches cfg s t cell)
    (he : Act.execs cfg t s (onMutex cfg addr a) = some s')
    (hno : ¬ ∃ x ∈ onMutex cfg addr a, x.Touches cfg s t cell) : s'.shadow cell = s.shadow cell := by
  unfold onMutex at he hno
  split_ifs at he hno
  · simp only [Act.execs, List.foldlM_cons, List.foldlM_nil, Option.bind_eq_bind, Option.bind_eq_some_iff,
      Option.pure_def, Option.some.injEq] at he
    obtain ⟨s₁,h₁,s₂,h₂,rfl⟩ := he
    have hfirst : ¬ (Act.access addr 0 false).Touches cfg s t cell := fun hx => hno ⟨_,List.mem_cons_self,hx⟩
    rw [Act.shadow_eq (h.exec h₁) h₂ (ha s₁)]
    exact Act.shadow_eq h h₁ hfirst
  · rw [execs_singleton] at he
    exact Act.shadow_eq h he (ha s)

theorem Op.shadow_eq (h : s.Bounded) {op : Op} (he : op.step cfg s t = some s') (hno : ¬ op.Touches cfg s t cell) :
    s'.shadow cell = s.shadow cell := by
  rw [step_eq_execs] at he
  cases op with
  | MutexLock addr | MutexUnlock addr | MutexReadLock addr | MutexReadUnlock addr | MutexReadOrWriteUnlock addr =>
    exact execs_onMutex_shadow_eq h (fun _ => id) he hno
  | _ =>
    rw [Op.acts, execs_singleton] at he
    exact Act.shadow_eq h he fun hx => hno ⟨_,List.mem_singleton.mpr rfl,hx⟩

end Frame

/-! ## Ranges and ignored accesses -/

namespace Freed
open Release (SetAddr0AndSizeLog SetWrite MarkAsFreed SetIgnoreBit ClearIgnoreBit)

section Range
variable (cfg : Config) (s : Tsan.State) (t addr size : ℕ)

/-- The three loops of `MemoryAccessRange`. -/
def rangeShadow (thr : ThreadState) (is_write : Bool) (shadow : ℕ → Row) : ℕ → Row :=
  let shadow_mem := addr / kShadowCell
  let unaligned := addr % kShadowCell ≠ 0
  let (addr,size,shadow) := Release.rangeBeginning cfg thr is_write shadow_mem addr size shadow
  let shadow_mem := if unaligned then shadow_mem + 1 else shadow_mem
  let cells := size / kShadowCell
  let shadow := Release.rangeMiddle cfg thr is_write cells shadow_mem shadow
  Release.rangeEnding cfg thr is_write (shadow_mem + cells) (addr + cells * kShadowCell) (size % kShadowCell) shadow

def MemoryAccessRange (is_write : Bool) : Option Tsan.State := do
  let thr ← s.thr t
  if size = 0 then some s
  else if GetIgnoreBit thr.fast_state then some s
  else
    let thr ← thr.incrementEpoch
    return { s.setThr t thr with shadow := rangeShadow cfg addr size thr is_write s.shadow }

/-- The word of a freed cell. -/
def freedWord (fast_state : u64) : u64 := SetAddr0AndSizeLog (SetWrite (MarkAsFreed fast_state) true) 0 3

def MemoryRangeFreed : Option Tsan.State := do
  let s ← MemoryAccessRange cfg s t addr size true
  let thr ← s.thr t
  return { s with shadow := MemoryRangeSet cfg s.shadow addr size (freedWord thr.fast_state) }

def MemoryRangeImitateWrite : Option Tsan.State := do
  let thr ← s.thr t
  let x := SetAddr0AndSizeLog (SetWrite thr.fast_state true) 0 3
  return { s with shadow := MemoryRangeSet cfg s.shadow addr size x }

end Range

/-- The detector, and how deep each running thread has nested its requests to ignore accesses. -/
structure State where
  base : Tsan.State
  ignore_reads_and_writes : ℕ → ℕ

inductive Op where
  | base (op : Tsan.Op)
  | FuncEntryExit
  | MemoryAccessRange (addr size : ℕ) (is_write : Bool)
  | MemoryRangeImitateWrite (addr size : ℕ)
  | MemoryRangeFreed (addr size : ℕ)
  | MemoryResetRange (addr size : ℕ)
  | IgnoreCtl (begin : Bool)

/-- A new thread ignores nothing. -/
def baseStep (cfg : Config) (s : State) (t : ℕ) (op : Tsan.Op) : Option State := do
  let b ← op.step cfg s.base t
  let ignore := match op with
    | .ThreadStart _ => Function.update s.ignore_reads_and_writes t 0
    | _ => s.ignore_reads_and_writes
  return ⟨b,ignore⟩

/-- `FuncEntry` and `FuncExit`, without the shadow stack. -/
def FuncEntryExit (s : Tsan.State) (t : ℕ) : Option Tsan.State := do
  let thr ← (← s.thr t).incrementEpoch
  return s.setThr t thr

/-- The nesting depth goes up or down, and never below zero. -/
def IgnoreCtl (s : State) (t : ℕ) (begin : Bool) : Option State := do
  let thr ← s.base.thr t
  let depth := s.ignore_reads_and_writes t
  if !begin ∧ depth = 0 then none
  else
    let depth := if begin then depth + 1 else depth - 1
    let fast_state := if depth ≠ 0 then SetIgnoreBit thr.fast_state else ClearIgnoreBit thr.fast_state
    return ⟨s.base.setThr t { thr with fast_state := fast_state },
      Function.update s.ignore_reads_and_writes t depth⟩

/-- One step of thread `op.1`. -/
def step (cfg : Config) (s : State) (op : ℕ × Op) : Option State :=
  match op.2 with
  | .base op' => baseStep cfg s op.1 op'
  | .FuncEntryExit => (FuncEntryExit s.base op.1).map (⟨·,s.ignore_reads_and_writes⟩)
  | .MemoryAccessRange addr size w =>
    (MemoryAccessRange cfg s.base op.1 addr size w).map (⟨·,s.ignore_reads_and_writes⟩)
  | .MemoryRangeImitateWrite addr size =>
    (MemoryRangeImitateWrite cfg s.base op.1 addr size).map (⟨·,s.ignore_reads_and_writes⟩)
  | .MemoryRangeFreed addr size =>
    (MemoryRangeFreed cfg s.base op.1 addr size).map (⟨·,s.ignore_reads_and_writes⟩)
  | .MemoryResetRange addr size => do
    let _ ← s.base.thr op.1
    return ⟨Tsan.MemoryResetRange cfg s.base addr size,s.ignore_reads_and_writes⟩
  | .IgnoreCtl begin => IgnoreCtl s op.1 begin

/-- The runtime right after `Initialize`. -/
def init (cfg : Config) (l : StackAndTls) : Option State := (Initialize cfg l).map (⟨·,fun _ => 0⟩)

/-- A thread that does not ignore accesses makes one to the cell, or the cell is marked or reset. -/
def Touches (cfg : Config) (s : State) (op : ℕ × Op) (cell : ℕ) : Prop :=
  match op.2 with
  | .base op' => op'.Touches cfg s.base op.1 cell
  | .MemoryAccessRange addr size _ =>
    ¬ s.base.Ignores op.1 ∧ ∃ a, addr ≤ a ∧ a < addr + size ∧ a / kShadowCell = cell
  | .MemoryRangeFreed addr size =>
    (¬ s.base.Ignores op.1 ∧ ∃ a, addr ≤ a ∧ a < addr + size ∧ a / kShadowCell = cell) ∨ Sets cfg addr size cell
  | .MemoryRangeImitateWrite addr size | .MemoryResetRange addr size => Sets cfg addr size cell
  | .FuncEntryExit | .IgnoreCtl _ => False

/-! ## What a step keeps -/

section Keeps
variable {cfg : Config} {s s' : Tsan.State} {t cell : ℕ}

theorem MemoryAccessRange_eq_some {addr size : ℕ} {w : Bool} (he : MemoryAccessRange cfg s t addr size w = some s') :
    ∃ thr, s.thr t = some thr ∧ ((size = 0 ∨ GetIgnoreBit thr.fast_state = true) ∧ s' = s ∨
      size ≠ 0 ∧ GetIgnoreBit thr.fast_state = false ∧ ∃ thr', thr.incrementEpoch = some thr' ∧
        s' = { s.setThr t thr' with shadow := rangeShadow cfg addr size thr' w s.shadow }) := by
  simp only [MemoryAccessRange, Option.pure_def, Option.bind_eq_bind, Option.bind_eq_some_iff] at he
  obtain ⟨thr,hthr,he⟩ := he
  refine ⟨thr,hthr,?_⟩
  split_ifs at he with h0 hign
  · cases he
    exact Or.inl ⟨Or.inl h0,rfl⟩
  · cases he
    exact Or.inl ⟨Or.inr hign,rfl⟩
  · simp only [Option.bind_eq_some_iff, Option.some.injEq] at he
    obtain ⟨thr',hi,rfl⟩ := he
    exact Or.inr ⟨h0,Bool.eq_false_iff.mpr hign,thr',hi,rfl⟩

theorem MemoryRangeFreed_eq_some {addr size : ℕ} (he : MemoryRangeFreed cfg s t addr size = some s') :
    ∃ s₁ thr, MemoryAccessRange cfg s t addr size true = some s₁ ∧ s₁.thr t = some thr ∧
      s' = { s₁ with shadow := MemoryRangeSet cfg s₁.shadow addr size (freedWord thr.fast_state) } := by
  simp only [MemoryRangeFreed, Option.pure_def, Option.bind_eq_bind, Option.bind_eq_some_iff, Option.some.injEq] at he
  obtain ⟨s₁,hs₁,thr,hthr,rfl⟩ := he
  exact ⟨s₁,thr,hs₁,hthr,rfl⟩

theorem IgnoreCtl_eq_some {S S' : State} {begin : Bool} (he : IgnoreCtl S t begin = some S') :
    ∃ thr depth, S.base.thr t = some thr ∧ S' =
      ⟨S.base.setThr t { thr with
          fast_state := if depth ≠ 0 then SetIgnoreBit thr.fast_state else ClearIgnoreBit thr.fast_state },
        Function.update S.ignore_reads_and_writes t depth⟩ := by
  simp only [IgnoreCtl, Option.pure_def, Option.bind_eq_bind, Option.bind_eq_some_iff] at he
  obtain ⟨thr,hthr,he⟩ := he
  by_cases h0 : (!begin) = true ∧ S.ignore_reads_and_writes t = 0
  · rw [if_pos h0] at he
    cases he
  · rw [if_neg h0] at he
    exact ⟨thr,_,hthr,(Option.some.inj he).symm⟩

theorem bounded_shadow (h : s.Bounded) (shadow : ℕ → Row) : Tsan.State.Bounded { s with shadow := shadow } :=
  ⟨h.context,h.sync⟩

theorem bounded_accessRange (h : s.Bounded) {addr size : ℕ} {w : Bool}
    (he : MemoryAccessRange cfg s t addr size w = some s') : s'.Bounded := by
  obtain ⟨thr,hthr,⟨-,rfl⟩ | ⟨-,-,thr',hi,rfl⟩⟩ := MemoryAccessRange_eq_some he
  · exact h
  · exact bounded_shadow (h.setThr ((h.running hthr).incrementEpoch hi)) _

theorem isThreadWord_ignore {x : u64} {e : ℕ} (h : IsThreadWord x t e) (depth : ℕ) :
    IsThreadWord (if depth ≠ 0 then SetIgnoreBit x else ClearIgnoreBit x) t e := by
  obtain ⟨ht,he,b,hb,hx⟩ := h
  have hlow : packed t e false 0 0 % 2 = 0 := by
    unfold packed
    simp only [Bool.toNat_false]
    omega
  generalize hp : packed t e false 0 0 = p at hx hlow
  split_ifs
  · refine ⟨ht,he,1,le_rfl,?_⟩
    rw [Release.toNat_setIgnoreBit, hp]
    omega
  · refine ⟨ht,he,0,Nat.zero_le 1,?_⟩
    rw [Release.toNat_clearIgnoreBit, hp]
    omega

/-- The steps with ranges and with ignored accesses keep the entries zero as well. -/
theorem bounded_step {S S' : State} (h : S.base.Bounded) {op : ℕ × Op} (he : step cfg S op = some S') :
    S'.base.Bounded := by
  obtain ⟨t,op⟩ := op
  cases op with
  | base op =>
    simp only [step, baseStep, Option.pure_def, Option.bind_eq_bind, Option.bind_eq_some_iff, Option.some.injEq] at he
    obtain ⟨b,hb,rfl⟩ := he
    exact h.step hb
  | FuncEntryExit =>
    simp only [step, FuncEntryExit, Option.pure_def, Option.bind_eq_bind, Option.map_eq_some_iff,
      Option.bind_eq_some_iff, Option.some.injEq] at he
    obtain ⟨b,⟨thr,hthr,thr',hi,rfl⟩,rfl⟩ := he
    exact h.setThr ((h.running hthr).incrementEpoch hi)
  | MemoryAccessRange addr size w =>
    obtain ⟨b,hb,rfl⟩ := Option.map_eq_some_iff.mp he
    exact bounded_accessRange h hb
  | MemoryRangeImitateWrite addr size =>
    obtain ⟨b,hb,rfl⟩ := Option.map_eq_some_iff.mp he
    simp only [MemoryRangeImitateWrite, Option.pure_def, Option.bind_eq_bind, Option.bind_eq_some_iff,
      Option.some.injEq] at hb
    obtain ⟨thr,-,rfl⟩ := hb
    exact bounded_shadow h _
  | MemoryRangeFreed addr size =>
    obtain ⟨b,hb,rfl⟩ := Option.map_eq_some_iff.mp he
    obtain ⟨s₁,thr,hs₁,-,rfl⟩ := MemoryRangeFreed_eq_some hb
    exact bounded_shadow (bounded_accessRange h hs₁) _
  | MemoryResetRange addr size =>
    simp only [step, Option.pure_def, Option.bind_eq_bind, Option.bind_eq_some_iff, Option.some.injEq] at he
    obtain ⟨thr,-,rfl⟩ := he
    exact bounded_shadow h _
  | IgnoreCtl begin =>
    obtain ⟨thr,depth,hthr,rfl⟩ := IgnoreCtl_eq_some he
    have hb := h.running hthr
    obtain ⟨e,hw⟩ := hb.word
    exact h.setThr ⟨hb.tid,⟨e,isThreadWord_ignore hw _⟩,hb.clock⟩

theorem bounded_created : Tsan.State.created.Bounded where
  context u tctx hu := by
    rw [core_created] at hu
    split_ifs at hu with h0
    cases hu
    refine ⟨h0.symm,h0 ▸ Nat.two_pow_pos kTidBits,?_,fun _ hx => nomatch hx⟩
    change HighZero SyncClock.empty.get
    rw [SyncClock.get_empty]
    exact .zero
  sync a := by
    have hz : HighZero SyncClock.empty.get := by
      rw [SyncClock.get_empty]
      exact .zero
    exact ⟨hz,hz⟩

theorem bounded_run {l : StackAndTls} {S S' : State} {ops : List (ℕ × Op)} (hinit : init cfg l = some S)
    (hrun : Transition.run (step cfg) S ops = some S') : S'.base.Bounded := by
  obtain ⟨b,hb,rfl⟩ := Option.map_eq_some_iff.mp hinit
  have h0 : b.Bounded := bounded_created.exec (Initialize_eq_some hb)
  exact Transition.run_inv (I := fun S => S.base.Bounded) (fun _ _ _ h he => bounded_step h he) h0 hrun

/-! ### Cells of a range -/

section Cells
variable {thr : ThreadState} {w : Bool} {addr size : ℕ} {sh : ℕ → Row}

theorem rangeAccess_of_ne {addr0 n mem : ℕ} (h : cell ≠ mem) :
    Release.rangeAccess cfg thr w addr0 n mem sh cell = sh cell := Function.update_of_ne h _ _

theorem rangeBeginning_of_ne {mem : ℕ} (h : size ≠ 0 → cell ≠ mem) :
    (Release.rangeBeginning cfg thr w mem addr size sh).2.2 cell = sh cell := by
  induction size generalizing addr sh with
  | zero => rfl
  | succ size ih =>
    unfold Release.rangeBeginning
    have hne := h (Nat.succ_ne_zero _)
    split_ifs
    · exact (ih fun _ => hne).trans (rangeAccess_of_ne hne)
    · rfl

/-- The beginning ends with the range or at the next cell. -/
theorem rangeBeginning_aligned (mem : ℕ) :
    (Release.rangeBeginning cfg thr w mem addr size sh).2.1 = 0 ∨
      (Release.rangeBeginning cfg thr w mem addr size sh).1 = (addr + 7) / 8 * 8 := by
  induction size generalizing addr sh with
  | zero => exact Or.inl rfl
  | succ size ih =>
    unfold Release.rangeBeginning
    split_ifs with h
    · refine ih.imp id fun h' => h'.trans ?_
      change addr % 8 ≠ 0 at h
      omega
    · change ¬ addr % 8 ≠ 0 at h
      refine Or.inr ?_
      dsimp only
      omega

theorem rangeMiddle_of_lt (n : ℕ) {mem : ℕ} (h : cell < mem ∨ mem + n ≤ cell) :
    Release.rangeMiddle cfg thr w n mem sh cell = sh cell := by
  induction n generalizing mem sh with
  | zero => rfl
  | succ n ih => exact (ih (by omega)).trans (rangeAccess_of_ne (by omega))

theorem rangeEnding_of_ne {mem : ℕ} (h : size ≠ 0 → cell ≠ mem) :
    Release.rangeEnding cfg thr w mem addr size sh cell = sh cell := by
  induction size generalizing addr sh with
  | zero => rfl
  | succ size ih =>
    have hne := h (Nat.succ_ne_zero _)
    exact (ih fun _ => hne).trans (rangeAccess_of_ne hne)

theorem rangeShadow_of_disjoint (h : ¬ ∃ a, addr ≤ a ∧ a < addr + size ∧ a / kShadowCell = cell) :
    rangeShadow cfg addr size thr w sh cell = sh cell := by
  have hout : ∀ a, addr ≤ a → a < addr + size → a / 8 ≠ cell := fun a h₁ h₂ h₃ => h ⟨a,h₁,h₂,h₃⟩
  have hbeg : (Release.rangeBeginning cfg thr w (addr / kShadowCell) addr size sh).2.2 cell = sh cell :=
    rangeBeginning_of_ne fun h0 => (hout addr le_rfl (by omega)).symm
  have hsum : addr ≤ (Release.rangeBeginning cfg thr w (addr / kShadowCell) addr size sh).1 ∧
      (Release.rangeBeginning cfg thr w (addr / kShadowCell) addr size sh).1 +
        (Release.rangeBeginning cfg thr w (addr / kShadowCell) addr size sh).2.1 = addr + size :=
    (Release.stores_rangeBeginning (P := fun _ => True) (addr / kShadowCell) fun _ _ => trivial).2
  have hal : (Release.rangeBeginning cfg thr w (addr / kShadowCell) addr size sh).2.1 = 0 ∨
      (Release.rangeBeginning cfg thr w (addr / kShadowCell) addr size sh).1 = (addr + 7) / 8 * 8 :=
    rangeBeginning_aligned (addr / kShadowCell)
  unfold rangeShadow
  revert hbeg hsum hal
  generalize Release.rangeBeginning cfg thr w (addr / kShadowCell) addr size sh = rest
  obtain ⟨addr',size',sh'⟩ := rest
  intro hbeg hsum hal
  dsimp only at hbeg hsum hal ⊢
  have hmem : size' ≠ 0 → (if addr % kShadowCell ≠ 0 then addr / kShadowCell + 1 else addr / kShadowCell) = addr' / 8 ∧
      addr' % 8 = 0 := by
    intro h0
    have haddr := hal.resolve_left h0
    unfold kShadowCell
    split_ifs <;> omega
  revert hmem
  generalize (if addr % kShadowCell ≠ 0 then addr / kShadowCell + 1 else addr / kShadowCell) = mem
  intro hmem
  unfold kShadowCell
  rw [rangeEnding_of_ne, rangeMiddle_of_lt, hbeg]
  · by_cases h0 : size' = 0
    · omega
    · obtain ⟨rfl,h8⟩ := hmem h0
      by_contra hc
      exact hout (cell * 8) (by omega) (by omega) (by omega)
  · intro h0 hc
    obtain ⟨rfl,h8⟩ := hmem (by omega)
    exact hout (addr' + size' / 8 * 8) (by omega) (by omega) (by omega)

end Cells

theorem accessRange_shadow_eq {addr size : ℕ} {w : Bool} (he : MemoryAccessRange cfg s t addr size w = some s')
    (hno : ¬ (¬ s.Ignores t ∧ ∃ a, addr ≤ a ∧ a < addr + size ∧ a / kShadowCell = cell)) :
    s'.shadow cell = s.shadow cell := by
  obtain ⟨thr,hthr,⟨-,rfl⟩ | ⟨-,hign,thr',-,rfl⟩⟩ := MemoryAccessRange_eq_some he
  · rfl
  · refine rangeShadow_of_disjoint fun ha => hno ⟨fun ⟨x,hx,hi⟩ => ?_,ha⟩
    rw [hthr, Option.some.injEq] at hx
    rw [← hx, hign] at hi
    cases hi

/-- A step keeps the cells that it does not touch. -/
theorem step_shadow_eq {S S' : State} (h : S.base.Bounded) {op : ℕ × Op} (he : step cfg S op = some S')
    (hno : ¬ Touches cfg S op cell) : S'.base.shadow cell = S.base.shadow cell := by
  obtain ⟨t,op⟩ := op
  cases op with
  | base op =>
    simp only [step, baseStep, Option.pure_def, Option.bind_eq_bind, Option.bind_eq_some_iff, Option.some.injEq] at he
    obtain ⟨b,hb,rfl⟩ := he
    exact Op.shadow_eq h hb hno
  | FuncEntryExit =>
    simp only [step, FuncEntryExit, Option.pure_def, Option.bind_eq_bind, Option.map_eq_some_iff,
      Option.bind_eq_some_iff, Option.some.injEq] at he
    obtain ⟨b,⟨thr,hthr,thr',hi,rfl⟩,rfl⟩ := he
    rfl
  | MemoryAccessRange addr size w =>
    obtain ⟨b,hb,rfl⟩ := Option.map_eq_some_iff.mp he
    exact accessRange_shadow_eq hb hno
  | MemoryRangeImitateWrite addr size =>
    obtain ⟨b,hb,rfl⟩ := Option.map_eq_some_iff.mp he
    simp only [MemoryRangeImitateWrite, Option.pure_def, Option.bind_eq_bind, Option.bind_eq_some_iff,
      Option.some.injEq] at hb
    obtain ⟨thr,-,rfl⟩ := hb
    exact (rangeSet_eq cfg _ addr size _ cell).trans (if_neg hno)
  | MemoryRangeFreed addr size =>
    obtain ⟨b,hb,rfl⟩ := Option.map_eq_some_iff.mp he
    obtain ⟨s₁,thr,hs₁,-,rfl⟩ := MemoryRangeFreed_eq_some hb
    simp only [Touches, not_or] at hno
    exact ((rangeSet_eq cfg _ addr size _ cell).trans (if_neg hno.2)).trans (accessRange_shadow_eq hs₁ hno.1)
  | MemoryResetRange addr size =>
    simp only [step, Option.pure_def, Option.bind_eq_bind, Option.bind_eq_some_iff, Option.some.injEq] at he
    obtain ⟨thr,-,rfl⟩ := he
    exact (rangeSet_eq cfg _ addr size _ cell).trans (if_neg hno)
  | IgnoreCtl begin =>
    obtain ⟨thr,depth,-,rfl⟩ := IgnoreCtl_eq_some he
    rfl

/-- A run keeps a cell that none of its steps touches. -/
theorem run_shadow_eq {S S' : State} (h : S.base.Bounded) {ops : List (ℕ × Op)}
    (hno : Transition.AllSteps (step cfg) (fun S op => ¬ Touches cfg S op cell) S ops)
    (hrun : Transition.run (step cfg) S ops = some S') : S'.base.shadow cell = S.base.shadow cell := by
  induction ops generalizing S with
  | nil =>
    cases hrun
    rfl
  | cons op ops ih =>
    rw [Transition.run_cons, Option.bind_eq_some_iff] at hrun
    obtain ⟨S₁,hS₁,hrun⟩ := hrun
    obtain ⟨htouch,hrest⟩ := hno S₁ hS₁
    exact (ih (bounded_step h hS₁) hrest hrun).trans (step_shadow_eq h hS₁ htouch)

end Keeps
end Freed
end CompilerRt.Tsan
