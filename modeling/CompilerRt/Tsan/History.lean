import CompilerRt.Lib.RingLog
import CompilerRt.Lib.Transition
import CompilerRt.Tsan.Trace

/-! # Stacks restored from the trace

The events of a thread are a log without end, which the trace keeps in a ring, and so are the headers of its
parts. A part that has not been overwritten is replayed from the stack it began with.
-/
namespace CompilerRt.Tsan.History
open FastState

/-! ## Events -/

namespace Event
variable {typ : EventType} {addr : u64}

theorem toNat_ofType_shift (typ : EventType) : (BitVec.ofNat 64 typ.ctorIdx <<< 61).toNat = typ.ctorIdx * 2^61 := by
  cases typ <;> rfl

/-- A type and a pc of 48 bits share the word. -/
theorem toNat_ofType (h : addr.toNat < 2^48) : (ofType typ addr).toNat = typ.ctorIdx * 2^61 + addr.toNat := by
  have hlt : addr.toNat < 2^61 := h.trans (by norm_num)
  rw [ofType, BitVec.toNat_or, toNat_ofType_shift, Nat.or_comm, Nat.mul_comm,
    ← Nat.two_pow_add_eq_or_of_lt hlt]

theorem typ_ofType (h : addr.toNat < 2^48) : (ofType typ addr).typ = typ.ctorIdx := by
  have hlt : addr.toNat < 2^61 := h.trans (by norm_num)
  rw [Event.typ, BitVec.toNat_ushiftRight, toNat_ofType h, Nat.shiftRight_eq_div_pow]
  omega

theorem pc_ofType (h : addr.toNat < 2^48) : (ofType typ addr).pc = addr := by
  apply BitVec.eq_of_toNat_eq
  rw [pc, BitVec.toNat_and, toNat_ofType h]
  change (typ.ctorIdx * 2^61 + addr.toNat) &&& (2^48 - 1) = addr.toNat
  rw [Nat.and_two_pow_sub_one_eq_mod]
  omega

/-- The high bits of an address cannot make another kind of event of a lock. -/
theorem typ_lock (typ : EventType) (addr : u64) (h : 3 ≤ typ.ctorIdx) : 3 ≤ (ofType typ addr).typ := by
  have hor : (ofType typ addr).typ = addr.toNat / 2^61 ||| typ.ctorIdx := by
    rw [Event.typ, ofType, BitVec.toNat_ushiftRight, BitVec.toNat_or, toNat_ofType_shift, Nat.shiftRight_or_distrib,
      Nat.shiftRight_eq_div_pow, Nat.shiftRight_eq_div_pow]
    congr 1
    omega
  rw [hor]
  exact h.trans Nat.right_le_or

/-- What the event does to the call stack. -/
def effect (ev : Event) (stack : List u64) : List u64 :=
  if ev.typ = EventType.FuncEnter.ctorIdx then stack ++ [ev.pc]
  else if ev.typ = EventType.FuncExit.ctorIdx then stack.dropLast
  else stack

theorem effect_zero (stack : List u64) : effect 0 stack = stack := rfl

theorem effect_FuncEnter {pc : u64} (h : pc.toNat < 2^48) (stack : List u64) :
    (ofType .FuncEnter pc).effect stack = stack ++ [pc] := by
  rw [effect, typ_ofType h, if_pos rfl, pc_ofType h]

theorem effect_FuncExit (stack : List u64) : (ofType .FuncExit 0).effect stack = stack.dropLast := rfl

theorem effect_Mop {pc : u64} (h : pc.toNat < 2^48) (stack : List u64) : (ofType .Mop pc).effect stack = stack := by
  rw [effect, typ_ofType h, if_neg (by decide), if_neg (by decide)]

theorem effect_lock {addr : u64} (h : 3 ≤ typ.ctorIdx) (stack : List u64) : (ofType typ addr).effect stack = stack := by
  have htyp := typ_lock typ addr h
  have hne : ∀ t : EventType, t.ctorIdx < 3 → (ofType typ addr).typ ≠ t.ctorIdx := by omega
  rw [effect, if_neg (hne .FuncEnter (by decide)), if_neg (hne .FuncExit (by decide))]

end Event

/-! ## Replay -/

namespace Replay
variable {r r' : Replay} {stack : List u64}

/-- The buffer shows the stack, up to the position. -/
structure Shows (r : Replay) (stack : List u64) : Prop where
  pos : r.pos = stack.length
  frames : (List.range r.pos).map r.stack = stack

theorem shows_start (stack : List u64) (h : stack.length ≤ kReplaySize) : ∃ r, start stack = some r ∧ r.Shows stack := by
  refine ⟨_,if_pos h,rfl,?_⟩
  apply List.ext_getElem
  · simp
  · intro i h₁ h₂
    simp [List.getD, h₂]

/-- A frame at the position leaves those below it. -/
theorem map_update (f : ℕ → u64) (pc : u64) (n : ℕ) : (List.range n).map (Function.update f n pc) = (List.range n).map f := by
  refine List.map_congr_left fun i hi => ?_
  rw [Function.update_of_ne (List.mem_range.mp hi).ne]

/-- The event does to the buffer what it did to the stack, and an access leaves its pc behind it. -/
theorem Shows.event (h : r.Shows stack) (ev : Event) (hlt : stack.length < kReplaySize) : ∃ r', r.event ev = some r' ∧
    r'.Shows (ev.effect stack) ∧ (ev.typ = EventType.Mop.ctorIdx → r'.stack stack.length = ev.pc) := by
  have hpos : r.pos < kReplaySize := h.pos ▸ hlt
  by_cases hmop : ev.typ = EventType.Mop.ctorIdx
  · have heff : ev.effect stack = stack := by
      rw [Event.effect, hmop, if_neg (by decide), if_neg (by decide)]
    refine ⟨{ r with stack := Function.update r.stack r.pos ev.pc },?_,⟨h.pos.trans (congrArg _ heff.symm),?_⟩,fun _ => ?_⟩
    · rw [Replay.event, if_pos hmop, if_pos hpos]
    · rw [heff, map_update]
      exact h.frames
    · rw [← h.pos]
      exact Function.update_self ..
  · by_cases henter : ev.typ = EventType.FuncEnter.ctorIdx
    · have heff : ev.effect stack = stack ++ [ev.pc] := if_pos henter
      refine ⟨⟨Function.update r.stack r.pos ev.pc,r.pos + 1⟩,?_,⟨?_,?_⟩,fun hm => absurd hm hmop⟩
      · rw [Replay.event, if_neg hmop, if_pos henter, if_pos hpos]
      · simp [heff, h.pos]
      · rw [heff, List.range_succ, List.map_append, map_update, h.frames]
        simp
    · by_cases hexit : ev.typ = EventType.FuncExit.ctorIdx
      · have heff : ev.effect stack = stack.dropLast := by rw [Event.effect, if_neg henter, if_pos hexit]
        refine ⟨{ r with pos := r.pos - 1 },?_,⟨?_,?_⟩,fun hm => absurd hm hmop⟩
        · rw [Replay.event, if_neg hmop, if_neg henter, if_pos hexit]
        · simp [heff, h.pos]
        · rw [heff, ← h.frames]
          cases r.pos with
          | zero => rfl
          | succ n => simp [List.range_succ]
      · have heff : ev.effect stack = stack := by rw [Event.effect, if_neg henter, if_neg hexit]
        refine ⟨r,?_,heff.symm ▸ h,fun hm => absurd hm hmop⟩
        rw [Replay.event, if_neg hmop, if_neg henter, if_neg hexit]

/-- A stretch of the log is replayed from the stack before it. -/
theorem Shows.replay {events log : ℕ → Event} {before : ℕ → List u64} {i b n : ℕ} (h : r.Shows (before b))
    (hev : ∀ j < n, events (i + j) = log (b + j)) (hb : ∀ j < n, before (b + j + 1) = (log (b + j)).effect (before (b + j)))
    (hlen : ∀ j < n, (before (b + j)).length < kReplaySize) :
    ∃ r', (List.range' i n).foldlM (fun r i => r.event (events i)) r = some r' ∧ r'.Shows (before (b + n)) := by
  induction n with
  | zero => exact ⟨r,rfl,h⟩
  | succ n ih =>
    obtain ⟨r₁,h₁,hs⟩ := ih (fun j hj => hev j (by omega)) (fun j hj => hb j (by omega)) fun j hj => hlen j (by omega)
    obtain ⟨r₂,h₂,hs₂,-⟩ := hs.event (events (i + n)) (hlen n (by omega))
    refine ⟨r₂,?_,?_⟩
    · rw [List.range'_concat, List.foldlM_append, h₁]
      simpa using h₂
    · rw [hev n (by omega), ← hb n (by omega)] at hs₂
      exact hs₂

end Replay

/-! ## The log of a thread -/

/-- All events of a thread by their epochs, and the call stack before each. -/
structure Record where
  log : ℕ → Event
  before : ℕ → List u64

namespace Record

/-- The record of a thread that starts at epoch `first`; the storage before is zero. -/
structure From (R : Record) (first : ℕ) : Prop where
  log : ∀ k ≤ first, R.log k = 0
  before : ∀ k ≤ first, R.before k = []

def empty : Record := ⟨fun _ => 0,fun _ => []⟩

/-- One more event, at epoch `c`. -/
def add (R : Record) (c : ℕ) (ev : Event) : Record where
  log := Function.update R.log c ev
  before k := if k ≤ c then R.before k else ev.effect (R.before c)

/-- The records agree on the events before epoch `c`. -/
structure Agree (c : ℕ) (R R' : Record) : Prop where
  log : ∀ k < c, R'.log k = R.log k
  before : ∀ k ≤ c, R'.before k = R.before k

variable {R R' R₂ : Record} {c c' first : ℕ} {ev : Event}

theorem Agree.refl (c : ℕ) (R : Record) : Agree c R R := ⟨fun _ _ => rfl,fun _ _ => rfl⟩

theorem Agree.trans (h : Agree c R R') (h' : Agree c' R' R₂) (hc : c ≤ c') : Agree c R R₂ where
  log k hk := (h'.log k (by omega)).trans (h.log k hk)
  before k hk := (h'.before k (by omega)).trans (h.before k hk)

theorem agree_add (R : Record) (c : ℕ) (ev : Event) : Agree c R (R.add c ev) where
  log k hk := by simp [add, hk.ne]
  before k hk := if_pos hk

@[simp] theorem log_add (R : Record) (c : ℕ) (ev : Event) : (R.add c ev).log c = ev := by simp [add]

@[simp] theorem before_add (R : Record) (c : ℕ) (ev : Event) : (R.add c ev).before (c + 1) = ev.effect (R.before c) :=
  if_neg (by omega)

theorem From.agree (h : R.From first) (ha : Agree c R R') (hc : first < c) : R'.From first where
  log k hk := (ha.log k (by omega)).trans (h.log k hk)
  before k hk := (ha.before k (by omega)).trans (h.before k hk)

end Record

/-- The header of a part: the stack before it, and its first epoch unless the thread starts in it. -/
def header (first : ℕ) (R : Record) (q : ℕ) : TraceHeader where
  stack0 := ⟨kTraceStackSize,R.before (q * kTracePartSize)⟩
  epoch0 := if first < q * kTracePartSize then q * kTracePartSize else 0

/-- The trace of a running thread up to epoch `c`. -/
structure Logged (first : ℕ) (R : Record) (trace : Trace) (c : ℕ) : Prop where
  events : RingLog.Holds kTraceSize trace.events R.log c
  headers : RingLog.Holds kTraceParts trace.headers (header first R) (c / kTracePartSize)
  effect : ∀ k ≤ c, R.before (k + 1) = (R.log k).effect (R.before k)
  from_first : R.From first
  first_le : first ≤ c
  static : ∀ i, (trace.headers i).stack0.c_ = kTraceStackSize
  short : ∀ k ≤ c, (R.before k).length < 1023

theorem part_succ (c : ℕ) : (c + 1) / kTracePartSize =
    if (c + 1) % kTracePartSize = 0 then c / kTracePartSize + 1 else c / kTracePartSize := by
  have hP : kTracePartSize = 16384 := rfl
  rw [hP]
  split_ifs <;> omega

theorem part_start {c : ℕ} (h : c % kTracePartSize = 0) : c / kTracePartSize * kTracePartSize = c :=
  Nat.div_mul_cancel (Nat.dvd_of_mod_eq_zero h)

/-- The static buffer takes a stack of up to 256 frames as it is. -/
theorem ObtainCurrent_eq {st : StackTrace} {stack : List u64} (hc : st.c_ = kTraceStackSize)
    (hlen : stack.length ≤ kTraceStackSize) : st.ObtainCurrent stack 0 = ⟨kTraceStackSize,stack⟩ := by
  unfold StackTrace.ObtainCurrent
  simp only [↓reduceIte, Nat.add_zero, List.append_nil, hc]
  split_ifs with h0 h1
  · simp [List.eq_nil_of_length_eq_zero h0]
  · omega
  · simp

namespace Logged
variable {first c tid : ℕ} {R : Record} {trace : Trace} {thr thr' : TracedThread} {typ : EventType} {addr : u64}

/-- A header stays as long as the stack before its part is known. -/
theorem header_agree {R' : Record} {q : ℕ} (ha : Record.Agree c R R') (hq : q * kTracePartSize ≤ c) :
    header first R' q = header first R q := by
  rw [header, header, ha.before _ hq]

/-- One more event, with headers that are right for it. -/
theorem extend (h : Logged first R trace c) {ev : Event} {headers : ℕ → TraceHeader}
    (hheaders : RingLog.Holds kTraceParts headers (header first (R.add (c + 1) ev)) ((c + 1) / kTracePartSize))
    (hstatic : ∀ i, (headers i).stack0.c_ = kTraceStackSize) (hshort : (R.before (c + 1)).length < 1023) :
    Logged first (R.add (c + 1) ev) ⟨Function.update trace.events ((c + 1) % kTraceSize) ev,headers⟩ (c + 1) := by
  have ha := R.agree_add (c + 1) ev
  constructor
  · have hold : ∀ k ≤ c, (R.add (c + 1) ev).log k = R.log k := fun k hk => ha.log k (by omega)
    have hw := h.events.write hold
    rw [Record.log_add] at hw
    exact hw
  · exact hheaders
  · intro k hk
    rcases Nat.lt_or_eq_of_le hk with hk | rfl
    · rw [ha.before _ (by omega), ha.before _ (by omega), ha.log _ hk]
      exact h.effect k (by omega)
    · rw [Record.before_add, Record.log_add, ha.before _ le_rfl]
  · exact h.from_first.agree ha (Nat.lt_succ_of_le h.first_le)
  · exact h.first_le.trans (Nat.le_succ c)
  · exact hstatic
  · intro k hk
    rw [ha.before k hk]
    rcases Nat.lt_or_eq_of_le hk with hk | rfl
    · exact h.short k (by omega)
    · exact hshort

/-- The next event is written to the trace, after a new part has begun if it is the first one of it. -/
theorem addEvent (h : Logged first R thr.trace c) (hw : IsFast thr.fast_state tid c)
    (hstack : thr.shadow_stack = R.before (c + 1)) (hshort : thr.shadow_stack.length < 1023)
    (hpart : (c + 1) % kTracePartSize = 0 → thr.shadow_stack.length ≤ kTraceStackSize)
    (he : thr.addEvent typ addr = some thr') :
    IsFast thr'.fast_state tid (c + 1) ∧ thr'.shadow_stack = thr.shadow_stack ∧
      Logged first (R.add (c + 1) (.ofType typ addr)) thr'.trace (c + 1) := by
  simp only [TracedThread.addEvent, Option.pure_def, Option.bind_eq_bind, Option.bind_eq_some_iff, Option.some.injEq] at he
  obtain ⟨x,hx,rfl⟩ := he
  have hx' := hw.incrementEpoch hx
  have hep := hx'.isWord.epoch
  have ha := R.agree_add (c + 1) (.ofType typ addr)
  have hshort' : (R.before (c + 1)).length < 1023 := hstack ▸ hshort
  have hq : ∀ q ≤ c / kTracePartSize, header first (R.add (c + 1) (.ofType typ addr)) q = header first R q := by
    intro q hq
    have hle := Nat.mul_le_mul_right kTracePartSize hq
    exact header_agree ha ((hle.trans (Nat.div_mul_le_self c kTracePartSize)).trans (Nat.le_succ c))
  unfold TraceAddEvent
  rw [hep]
  split_ifs with h0
  · refine ⟨hx',rfl,h.extend ?_ ?_ hshort'⟩
    · -- the part's header has the stack before this event
      have hnew : header first (R.add (c + 1) (.ofType typ addr)) (c / kTracePartSize + 1) =
          ⟨⟨kTraceStackSize,thr.shadow_stack⟩,c + 1⟩ := by
        have hpc := part_succ c
        rw [if_pos h0] at hpc
        rw [header, ← hpc, part_start h0, if_pos (Nat.lt_succ_of_le h.first_le), ha.before _ le_rfl, hstack]
      have hwrite := h.headers.write hq
      rw [hnew] at hwrite
      simp only [TraceSwitch, hep, ObtainCurrent_eq (h.static _) (hpart h0), part_succ, if_pos h0]
      exact hwrite
    · intro i
      simp only [TraceSwitch, ObtainCurrent_eq (h.static _) (hpart h0), Function.update_apply]
      split_ifs
      · rfl
      · exact h.static i
  · refine ⟨hx',rfl,h.extend ?_ h.static hshort'⟩
    rw [part_succ, if_neg h0]
    intro q hle hlt
    rw [hq q hle]
    exact h.headers q hle hlt

end Logged

/-! ## Threads that run and threads that are gone -/

/-- What a finished thread leaves has the stacks of the headers, but not their epochs. -/
theorem deadInfo_eq_some {trace d : Trace} (h : TracedContext.deadInfo trace = some d) : d.events = trace.events ∧
    ∀ i < kTraceParts, d.headers i = ⟨⟨kTraceStackSize,(trace.headers i).stack0.s_⟩,0⟩ := by
  have hloop : ∀ n (f : ℕ → TraceHeader), (List.range n).foldlM (fun (headers : ℕ → TraceHeader) i => do
        let stack0 ← (headers i).stack0.CopyFrom (trace.headers i).stack0
        return Function.update headers i { headers i with stack0 := stack0 }) Trace.new.headers = some f →
      (∀ i, n ≤ i → f i = .new) ∧ ∀ i < n, f i = ⟨⟨kTraceStackSize,(trace.headers i).stack0.s_⟩,0⟩ := by
    intro n
    induction n with
    | zero =>
      intro f hf
      cases hf
      exact ⟨fun i _ => rfl,fun i hi => absurd hi (Nat.not_lt_zero i)⟩
    | succ n ih =>
      intro f hf
      rw [List.range_succ, List.foldlM_append, Option.bind_eq_bind, Option.bind_eq_some_iff] at hf
      obtain ⟨g,hg,hf⟩ := hf
      obtain ⟨hnew,hold⟩ := ih g hg
      simp only [List.foldlM_cons, List.foldlM_nil, Option.pure_def, Option.bind_eq_bind, Option.bind_eq_some_iff] at hf
      obtain ⟨f',⟨stack0,hcopy,hf'⟩,hf⟩ := hf
      cases hf
      cases hf'
      have hstack : stack0 = ⟨kTraceStackSize,(trace.headers n).stack0.s_⟩ := by
        rw [hnew n le_rfl, StackTrace.CopyFrom, StackTrace.Init] at hcopy
        split_ifs at hcopy with h0 h1
        · cases hcopy
          rw [List.eq_nil_of_length_eq_zero h0]
          rfl
        · cases hcopy
          rfl
      constructor
      · intro i hi
        rw [Function.update_of_ne (by omega)]
        exact hnew i (by omega)
      · intro i hi
        rcases eq_or_ne i n with rfl | hne
        · rw [Function.update_self, hstack, hnew i le_rfl]
          rfl
        · rw [Function.update_of_ne hne]
          exact hold i (by omega)
  simp only [TracedContext.deadInfo, Option.pure_def, Option.bind_eq_bind, Option.bind_eq_some_iff] at h
  obtain ⟨headers,hh,h⟩ := h
  cases h
  exact ⟨rfl,(hloop _ _ hh).2⟩

/-- The thread has a record up to epoch `c`, and its trace is that of the record. -/
inductive Recorded (first tid : ℕ) (R : Record) (tctx : TracedContext) (c : ℕ) : Prop
  | running (thr : TracedThread) (hthr : tctx.thr = some thr) (hst : tctx.status = .Running)
      (hw : IsFast thr.fast_state tid c) (hstack : thr.shadow_stack = R.before (c + 1))
      (hlog : Logged first R thr.trace c)
  | stopped (old trace : Trace) (hthr : tctx.thr = none) (hst : tctx.status = .Finished ∨ tctx.status = .Dead)
      (hep : tctx.epoch1 = c) (hdead : tctx.dead_info = some trace) (hlog : Logged first R old c)
      (hev : trace.events = old.events)
      (hh : ∀ i < kTraceParts, trace.headers i = ⟨⟨kTraceStackSize,(old.headers i).stack0.s_⟩,0⟩)

/-- The last epoch of the thread so far. -/
def TracedContext.lastEpoch (tctx : TracedContext) : ℕ := match tctx.thr with
  | some thr => epoch thr.fast_state
  | none => tctx.epoch1

/-- The event that an operation of the running thread is. -/
def TraceOp.event : TraceOp → Option Event
  | FuncEntry pc => some (.ofType .FuncEnter pc)
  | FuncExit => some (.ofType .FuncExit 0)
  | MemoryAccess pc => some (.ofType .Mop pc)
  | MutexLock addr => some (.ofType .Lock addr)
  | MutexUnlock addr => some (.ofType .Unlock addr)
  | MutexReadLock addr => some (.ofType .RLock addr)
  | MutexReadUnlock addr => some (.ofType .RUnlock addr)
  | ThreadFinish | ThreadDead => none

/-- The operation writes an event. -/
def TraceOp.Logs (tctx : TracedContext) (op : TraceOp) : Prop :=
  op.event ≠ none ∨ op = .ThreadFinish ∧ tctx.detached = false

/-- Pcs have 48 bits and are not zero, and the call stack is not too deep. -/
structure TracedContext.Legal (tctx : TracedContext) (op : TraceOp) : Prop where
  pc : ∀ pc, op = .FuncEntry pc ∨ op = .MemoryAccess pc → pc ≠ 0 ∧ pc.toNat < 2^48
  depth : ∀ thr, tctx.thr = some thr → thr.shadow_stack.length < 1023
  part : ∀ thr, tctx.thr = some thr → op.Logs tctx → (epoch thr.fast_state + 1) % kTracePartSize = 0 →
    thr.shadow_stack.length ≤ kTraceStackSize

namespace Recorded
variable {first tid c : ℕ} {R : Record} {tctx tctx' : TracedContext} {op : TraceOp} {ev : Event}

theorem lastEpoch (h : Recorded first tid R tctx c) : tctx.lastEpoch = c := by
  cases h with
  | running thr hthr hst hw =>
    rw [TracedContext.lastEpoch, hthr]
    exact hw.isWord.epoch
  | stopped old trace hthr hst hep =>
    rw [TracedContext.lastEpoch, hthr]
    exact hep

theorem start {epoch1 : ℕ} {detached : Bool} (htid : tid < kMaxTid)
    (h : TracedContext.ThreadStart tid epoch1 detached = some tctx) :
    Recorded tctx.epoch0 tid .empty tctx tctx.epoch0 := by
  simp only [TracedContext.ThreadStart, Option.pure_def, Option.bind_eq_bind, Option.bind_eq_some_iff] at h
  obtain ⟨x,hx,h⟩ := h
  cases h
  refine .running _ rfl rfl (isFast_mk htid hx) rfl ⟨?_,?_,fun k _ => (Event.effect_zero []).symm,
    ⟨fun k _ => rfl,fun k _ => rfl⟩,le_rfl,fun i => rfl,fun k _ => by simp [Record.empty]⟩
  · exact RingLog.holds_const fun k _ => rfl
  · refine RingLog.holds_const fun q hq => ?_
    have hle : q * kTracePartSize ≤ epoch1 + 1 :=
      (Nat.mul_le_mul_right _ hq).trans (Nat.div_mul_le_self _ kTracePartSize)
    rw [header, if_neg (Nat.not_lt.mpr hle)]
    rfl

/-- An operation of the running thread is the next event of its record. -/
theorem event (h : Recorded first tid R tctx c) (hl : tctx.Legal op) (hev : op.event = some ev)
    (he : tctx.step op = some tctx') : Recorded first tid (R.add (c + 1) ev) tctx' (c + 1) := by
  cases h with
  | stopped old trace hthr =>
    cases op with
    | ThreadFinish => cases hev
    | ThreadDead => cases hev
    | _ => simp [TracedContext.step, hthr] at he
  | running thr hthr hst hw hstack hlog =>
    have hshort := hl.depth thr hthr
    have hpart : (c + 1) % kTracePartSize = 0 → thr.shadow_stack.length ≤ kTraceStackSize := by
      intro h0
      refine hl.part thr hthr (Or.inl (by simp [hev])) ?_
      rw [hw.isWord.epoch]
      exact h0
    have hadd : ∀ {typ : EventType} {addr : u64} {thr' : TracedThread}, thr.addEvent typ addr = some thr' →
        IsFast thr'.fast_state tid (c + 1) ∧ thr'.shadow_stack = thr.shadow_stack ∧
          Logged first (R.add (c + 1) (.ofType typ addr)) thr'.trace (c + 1) :=
      hlog.addEvent hw hstack hshort hpart
    -- the new state, if the thread's stack is what the event makes of it
    have hrun : ∀ {typ : EventType} {addr : u64} {thr₁ thr' : TracedThread}, thr.addEvent typ addr = some thr₁ →
        thr'.fast_state = thr₁.fast_state → thr'.trace = thr₁.trace →
        thr'.shadow_stack = (Event.ofType typ addr).effect thr.shadow_stack →
        Recorded first tid (R.add (c + 1) (.ofType typ addr)) { tctx with thr := some thr' } (c + 1) := by
      intro typ addr thr₁ thr' h₁ hfast htrace hstack'
      obtain ⟨hw',-,hlog'⟩ := hadd h₁
      refine .running thr' rfl hst (hfast ▸ hw') ?_ (htrace ▸ hlog')
      rw [Record.before_add, ← hstack]
      exact hstack'
    cases op with
    | FuncEntry pc =>
      simp only [TracedContext.step, TracedThread.FuncEntry, hthr, Option.pure_def, Option.bind_eq_bind,
        Option.bind_some, Option.bind_eq_some_iff] at he
      obtain ⟨thr',⟨thr₁,h₁,he'⟩,he⟩ := he
      split_ifs at he' with hsize
      cases he'
      cases he
      cases hev
      refine hrun h₁ rfl rfl ?_
      rw [Event.effect_FuncEnter (hl.pc pc (Or.inl rfl)).2, (hadd h₁).2.1]
    | FuncExit =>
      simp only [TracedContext.step, TracedThread.FuncExit, hthr, Option.pure_def, Option.bind_eq_bind,
        Option.bind_some, Option.bind_eq_some_iff] at he
      obtain ⟨thr',⟨thr₁,h₁,he'⟩,he⟩ := he
      split_ifs at he' with hsize
      cases he'
      cases he
      cases hev
      refine hrun h₁ rfl rfl ?_
      rw [Event.effect_FuncExit, (hadd h₁).2.1]
    | MemoryAccess pc =>
      simp only [TracedContext.step, TracedThread.MemoryAccess, hthr, hw.not_ignore, Bool.false_eq_true, ↓reduceIte,
        Option.pure_def, Option.bind_eq_bind, Option.bind_some, Option.bind_eq_some_iff] at he
      obtain ⟨thr',h₁,he⟩ := he
      cases he
      cases hev
      refine hrun h₁ rfl rfl ?_
      rw [Event.effect_Mop (hl.pc pc (Or.inr rfl)).2, (hadd h₁).2.1]
    | MutexLock addr | MutexUnlock addr | MutexReadLock addr | MutexReadUnlock addr =>
      simp only [TracedContext.step, hthr, Option.pure_def, Option.bind_eq_bind, Option.bind_some,
        Option.bind_eq_some_iff] at he
      obtain ⟨thr',h₁,he⟩ := he
      cases he
      cases hev
      refine hrun h₁ rfl rfl ?_
      rw [Event.effect_lock (by decide), (hadd h₁).2.1]
    | ThreadFinish => cases hev
    | ThreadDead => cases hev

/-- What is left of a thread that finishes. -/
theorem finish (h : Recorded first tid R tctx c) (hl : tctx.Legal .ThreadFinish)
    (he : tctx.step .ThreadFinish = some tctx') :
    Recorded first tid R tctx' c ∨ Recorded first tid (R.add (c + 1) (.ofType .Mop 0)) tctx' (c + 1) := by
  cases h with
  | stopped old trace hthr => simp [TracedContext.step, hthr] at he
  | running thr hthr hst hw hstack hlog =>
    simp only [TracedContext.step, TracedContext.ThreadFinish, hthr, hst, Option.pure_def, Option.bind_eq_bind,
      Option.bind_some, ne_eq, not_true_eq_false, ↓reduceIte] at he
    split_ifs at he with hdet
    · simp only [Option.bind_eq_some_iff] at he
      obtain ⟨d,hd,he⟩ := he
      cases he
      obtain ⟨hev,hh⟩ := deadInfo_eq_some hd
      exact Or.inl (.stopped thr.trace d rfl (Or.inr rfl) hw.isWord.epoch rfl hlog hev hh)
    · simp only [Option.bind_eq_some_iff] at he
      obtain ⟨thr',h₁,d,hd,he⟩ := he
      cases he
      obtain ⟨hev,hh⟩ := deadInfo_eq_some hd
      have hpart : (c + 1) % kTracePartSize = 0 → thr.shadow_stack.length ≤ kTraceStackSize := by
        intro h0
        refine hl.part thr hthr (Or.inr ⟨rfl,by simpa using hdet⟩) ?_
        rw [hw.isWord.epoch]
        exact h0
      obtain ⟨hw',-,hlog'⟩ := hlog.addEvent hw hstack (hl.depth thr hthr) hpart h₁
      exact Or.inr (.stopped thr'.trace d rfl (Or.inl rfl) hw'.isWord.epoch rfl hlog' hev hh)

theorem dead (h : Recorded first tid R tctx c) (he : tctx.step .ThreadDead = some tctx') :
    Recorded first tid R tctx' c := by
  simp only [TracedContext.step] at he
  split_ifs at he with hfin
  cases he
  cases h with
  | running thr hthr hst =>
    rw [hst] at hfin
    cases hfin
  | stopped old trace hthr hst hep hdead hlog hev hh => exact .stopped old trace hthr (Or.inr rfl) hep hdead hlog hev hh

/-- A step adds to the record at most. -/
theorem step (h : Recorded first tid R tctx c) (hl : tctx.Legal op) (he : tctx.step op = some tctx') :
    ∃ R' c', Recorded first tid R' tctx' c' ∧ c ≤ c' ∧ Record.Agree (c + 1) R R' := by
  cases hev : op.event with
  | some ev => exact ⟨_,c + 1,h.event hl hev he,Nat.le_succ c,R.agree_add (c + 1) ev⟩
  | none =>
    cases op with
    | ThreadFinish =>
      rcases h.finish hl he with h' | h'
      · exact ⟨R,c,h',le_rfl,.refl _ R⟩
      · exact ⟨_,c + 1,h',Nat.le_succ c,R.agree_add (c + 1) _⟩
    | ThreadDead => exact ⟨R,c,h.dead he,le_rfl,.refl _ R⟩
    | _ => cases hev

theorem run {ops : List TraceOp} (h : Recorded first tid R tctx c)
    (hl : Transition.AllSteps TracedContext.step TracedContext.Legal tctx ops)
    (hr : Transition.run TracedContext.step tctx ops = some tctx') :
    ∃ R' c', Recorded first tid R' tctx' c' ∧ c ≤ c' ∧ Record.Agree (c + 1) R R' := by
  induction ops generalizing tctx R c with
  | nil =>
    cases hr
    exact ⟨R,c,h,le_rfl,.refl _ R⟩
  | cons op ops ih =>
    rw [Transition.run_cons, Option.bind_eq_some_iff] at hr
    obtain ⟨tctx₁,h₁,hr⟩ := hr
    obtain ⟨hop,hops⟩ := hl tctx₁ h₁
    obtain ⟨R₁,c₁,hrec,hc,ha⟩ := h.step hop h₁
    obtain ⟨R₂,c₂,hrec₂,hc₂,ha₂⟩ := ih hrec hops hr
    exact ⟨R₂,c₂,hrec₂,hc.trans hc₂,ha.trans ha₂ (Nat.succ_le_succ hc)⟩

end Recorded

/-! ## Restored stacks -/

/-- The trace has started another part in the place of the one with epoch `e`. -/
def Overwritten (e last : ℕ) : Prop := e / kTracePartSize + kTraceParts ≤ last / kTracePartSize

instance (e last : ℕ) : Decidable (Overwritten e last) := inferInstanceAs (Decidable (_ ≤ _))

theorem kTraceSize_div : kTraceSize / kTraceParts = kTracePartSize := rfl

/-- The slots of a part up to that of epoch `e`. -/
theorem slot_add {e j : ℕ} (hj : j ≤ e % kTracePartSize) :
    e % kTraceSize / kTracePartSize * kTracePartSize + j = (e / kTracePartSize * kTracePartSize + j) % kTraceSize := by
  have hP : kTracePartSize = 16384 := rfl
  have hT : kTraceSize = 131072 := rfl
  rw [hP] at hj ⊢
  rw [hT]
  omega

theorem part_add (e : ℕ) : e / kTracePartSize * kTracePartSize + e % kTracePartSize = e := Nat.div_add_mod' e kTracePartSize

theorem slot_count (e : ℕ) : e % kTraceSize + 1 - e % kTraceSize / kTracePartSize * kTracePartSize =
    e % kTracePartSize + 1 := by
  have hP : kTracePartSize = 16384 := rfl
  have hT : kTraceSize = 131072 := rfl
  rw [hP, hT]
  omega

/-- The epochs of a part that has not been overwritten are still in the ring. -/
theorem lt_of_not_overwritten {e c j : ℕ} (h : ¬ Overwritten e c) :
    c < e / kTracePartSize * kTracePartSize + j + kTraceSize := by
  have hP : kTracePartSize = 16384 := rfl
  have hT : kTraceSize = 131072 := rfl
  have hN : kTraceParts = 8 := rfl
  rw [Overwritten, hP, hN] at h
  rw [hP, hT]
  omega

section Restore
variable {tctx : TracedContext} {trace old : Trace} {R : Record} {e c f first : ℕ} {pc : u64}

theorem RestoreStack_refused (htr : tctx.trace = some trace)
    (h : e < (trace.headers (e / kTracePartSize % kTraceParts)).epoch0) : RestoreStack tctx e = some none := by
  simp only [RestoreStack, htr, kTraceSize_div]
  exact if_pos h

/-- The replay goes up to the event before, and then that event. -/
theorem RestoreStack_eq (htr : tctx.trace = some trace)
    (h : (trace.headers (e / kTracePartSize % kTraceParts)).epoch0 ≤ e) : RestoreStack tctx e =
      (Replay.start (trace.headers (e / kTracePartSize % kTraceParts)).stack0.s_).bind fun r =>
        ((List.range' (e % kTraceSize / kTracePartSize * kTracePartSize) (e % kTracePartSize)).foldlM
          (fun (r : Replay) i => r.event (trace.events i)) r).bind fun r =>
            (r.event (trace.events (e % kTraceSize))).bind Replay.result := by
  have hlast : e % kTraceSize / kTracePartSize * kTracePartSize + e % kTracePartSize = e % kTraceSize := by
    rw [slot_add le_rfl, part_add]
  simp only [RestoreStack, htr, kTraceSize_div, slot_count]
  rw [if_neg (Nat.not_lt.mpr h), List.range'_concat]
  simp [List.foldlM_append, Option.bind_assoc, hlast]

/-- A part that is still there is replayed to the stack of the event. -/
theorem RestoreStack_of_logged (hlog : Logged first R old c) (htr : tctx.trace = some trace)
    (hev : trace.events = old.events)
    (hstack : (trace.headers (e / kTracePartSize % kTraceParts)).stack0.s_ =
      (old.headers (e / kTracePartSize % kTraceParts)).stack0.s_)
    (hep : (trace.headers (e / kTracePartSize % kTraceParts)).epoch0 ≤ e) (he : e ≤ c) (hover : ¬ Overwritten e c)
    (hmop : R.log e = .ofType .Mop pc) (hpc : pc ≠ 0) (hlt : pc.toNat < 2^48) :
    RestoreStack tctx e = some (some (R.before e ++ [pc])) := by
  have hle : ∀ j ≤ e % kTracePartSize, e / kTracePartSize * kTracePartSize + j ≤ e := by
    intro j hj
    have := part_add e
    omega
  have hevents : ∀ j ≤ e % kTracePartSize,
      trace.events (e % kTraceSize / kTracePartSize * kTracePartSize + j) =
        R.log (e / kTracePartSize * kTracePartSize + j) := by
    intro j hj
    rw [slot_add hj, hev]
    exact hlog.events _ ((hle j hj).trans he) (lt_of_not_overwritten hover)
  have hheader : (old.headers (e / kTracePartSize % kTraceParts)).stack0.s_ =
      R.before (e / kTracePartSize * kTracePartSize) := by
    rw [hlog.headers _ (Nat.div_le_div_right he) (Nat.not_le.mp hover)]
    rfl
  have hshort : ∀ j ≤ e % kTracePartSize, (R.before (e / kTracePartSize * kTracePartSize + j)).length < 1023 :=
    fun j hj => hlog.short _ ((hle j hj).trans he)
  rw [RestoreStack_eq htr hep, hstack, hheader]
  have hbegin : (R.before (e / kTracePartSize * kTracePartSize)).length ≤ kReplaySize := by
    have hlt := hshort 0 (Nat.zero_le _)
    rw [Nat.add_zero] at hlt
    exact hlt.le.trans (by decide)
  obtain ⟨r,hr,hs⟩ := Replay.shows_start _ hbegin
  have heffect : ∀ j < e % kTracePartSize, R.before (e / kTracePartSize * kTracePartSize + j + 1) =
      (R.log (e / kTracePartSize * kTracePartSize + j)).effect (R.before (e / kTracePartSize * kTracePartSize + j)) :=
    fun j hj => hlog.effect _ ((hle j hj.le).trans he)
  obtain ⟨r₁,hr₁,hs₁⟩ := hs.replay (fun j hj => hevents j hj.le) heffect
    fun j hj => (hshort j hj.le).trans (by decide)
  have hlast := hevents _ le_rfl
  rw [slot_add le_rfl, part_add, hmop] at hlast
  rw [part_add] at hs₁
  have hshort' : (R.before e).length < 1023 := hlog.short e he
  obtain ⟨r₂,hr₂,hs₂,htop⟩ := hs₁.event (.ofType .Mop pc) (hshort'.trans (by decide))
  rw [Event.effect_Mop hlt] at hs₂
  rw [Event.pc_ofType hlt] at htop
  have htop := htop (Event.typ_ofType hlt)
  rw [hr, Option.bind_some, hr₁, Option.bind_some, hlast, hr₂, Option.bind_some]
  have hpos := hs₂.pos
  rw [Replay.result, if_neg, if_pos, List.range_succ, List.map_append, hs₂.frames]
  · simp [hpos, htop]
  · change _ ≤ 1024
    omega
  · rintro ⟨h0,hz⟩
    rw [← hpos, h0] at htop
    exact hpc (htop.symm.trans hz)

/-- A replay that ends with an access or a call has a stack, if it has a result. -/
theorem RestoreStack_ne (htr : tctx.trace = some trace)
    (hep : (trace.headers (e / kTracePartSize % kTraceParts)).epoch0 ≤ e)
    (hev : trace.events (e % kTraceSize) = .ofType .Mop pc ∨ trace.events (e % kTraceSize) = .ofType .FuncEnter pc)
    (hpc : pc ≠ 0) (hlt : pc.toNat < 2^48) : RestoreStack tctx e ≠ some none := by
  rw [RestoreStack_eq htr hep]
  intro h
  simp only [Option.bind_eq_some_iff] at h
  obtain ⟨r,-,r₁,-,r₂,h₂,h⟩ := h
  have hnot : ¬ (r₂.pos = 0 ∧ r₂.stack 0 = 0) := by
    rintro ⟨h0,hz⟩
    rcases hev with hev | hev
    · rw [hev, Replay.event, Event.typ_ofType hlt, if_pos rfl, Event.pc_ofType hlt] at h₂
      split_ifs at h₂
      cases h₂
      change r₁.pos = 0 at h0
      simp only [h0, Function.update_self] at hz
      exact hpc hz
    · rw [hev, Replay.event, Event.typ_ofType hlt, if_neg (by decide), if_pos rfl] at h₂
      split_ifs at h₂
      cases h₂
      exact absurd h0 (Nat.succ_ne_zero _)
  rw [Replay.result, if_neg hnot] at h
  split_ifs at h
  cases h

/-- A running thread refuses an epoch whose part is overwritten. -/
theorem RestoreStack_running (hlog : Logged first R trace c) (htr : tctx.trace = some trace) (he : first ≤ e)
    (hover : Overwritten e c) : RestoreStack tctx e = some none := by
  have hP : kTracePartSize = 16384 := rfl
  have hN : kTraceParts = 8 := rfl
  -- the part that is in the place now
  obtain ⟨q,hq,hle,hlt,hslot⟩ : ∃ q, e < q * kTracePartSize ∧ q ≤ c / kTracePartSize ∧
      c / kTracePartSize < q + kTraceParts ∧ e / kTracePartSize % kTraceParts = q % kTraceParts := by
    refine ⟨c / kTracePartSize - (c / kTracePartSize - e / kTracePartSize) % kTraceParts,?_⟩
    rw [Overwritten, hP, hN] at hover
    rw [hP, hN]
    omega
  refine RestoreStack_refused htr ?_
  rw [hslot, hlog.headers q hle hlt, header, if_pos (he.trans_lt hq)]
  exact hq

end Restore

/-- What is asked of the history of a thread that has gone from `start` to `tctx` by the operations: the stack of an
access that is still there, and no stack for an epoch that is not. -/
structure Replays (start tctx : TracedContext) (ops : List TraceOp) (e : ℕ) : Prop where
  stack : ∀ pre pc post tctx₁ thr, ops = pre ++ .MemoryAccess pc :: post →
    Transition.run TracedContext.step start pre = some tctx₁ → tctx₁.thr = some thr → e = epoch thr.fast_state + 1 →
    ¬ Overwritten e tctx.lastEpoch → RestoreStack tctx e = some (some (thr.shadow_stack ++ [pc]))
  refused : Overwritten e tctx.lastEpoch → RestoreStack tctx e = some none

section Runs
variable {tid epoch1 : ℕ} {detached : Bool} {start tctx : TracedContext} {ops : List TraceOp} {e : ℕ}

/-- An event of the run is in the record that the run ends with. -/
theorem recorded_event (htid : tid < kMaxTid) (hstart : TracedContext.ThreadStart tid epoch1 detached = some start)
    (hl : Transition.AllSteps TracedContext.step TracedContext.Legal start ops)
    (hrun : Transition.run TracedContext.step start ops = some tctx) {pre post : List TraceOp} {op : TraceOp}
    {ev : Event} {tctx₁ : TracedContext} {thr : TracedThread} (hops : ops = pre ++ op :: post)
    (hpre : Transition.run TracedContext.step start pre = some tctx₁) (hthr : tctx₁.thr = some thr)
    (hev : op.event = some ev) : ∃ R, Recorded start.epoch0 tid R tctx tctx.lastEpoch ∧
      R.log (epoch thr.fast_state + 1) = ev ∧ R.before (epoch thr.fast_state + 1) = thr.shadow_stack ∧
      epoch thr.fast_state + 1 ≤ tctx.lastEpoch ∧ tctx₁.Legal op := by
  subst hops
  obtain ⟨hlpre,hlpost⟩ := Transition.allSteps_append.mp hl
  rw [Transition.run_append, hpre, Option.bind_some, Transition.run_cons, Option.bind_eq_some_iff] at hrun
  obtain ⟨tctx₂,h₂,hrun⟩ := hrun
  obtain ⟨hop,hpost⟩ := hlpost tctx₁ hpre tctx₂ h₂
  obtain ⟨R₁,c₁,hrec,-,-⟩ := (Recorded.start htid hstart).run hlpre hpre
  have hc₁ : epoch thr.fast_state = c₁ := by
    rw [← hrec.lastEpoch, TracedContext.lastEpoch, hthr]
  obtain ⟨R,c,hrec',hle,ha⟩ := (hrec.event hop hev h₂).run hpost hrun
  have hc := hrec'.lastEpoch
  rw [hc₁, hc]
  refine ⟨R,hrec',?_,?_,hle,hop⟩
  · rw [ha.log _ (Nat.lt_succ_self _), Record.log_add]
  · rw [ha.before _ (Nat.le_succ _), (R₁.agree_add _ ev).before _ le_rfl]
    cases hrec with
    | running thr' hthr' hst hw hstack =>
      cases hthr.symm.trans hthr'
      exact hstack.symm
    | stopped old trace hthr' =>
      rw [hthr] at hthr'
      cases hthr'

/-- The history is right while the thread runs, and later for the parts that were not overwritten. -/
theorem replays (htid : tid < kMaxTid) (hstart : TracedContext.ThreadStart tid epoch1 detached = some start)
    (hl : Transition.AllSteps TracedContext.step TracedContext.Legal start ops)
    (hrun : Transition.run TracedContext.step start ops = some tctx) (he : start.epoch0 ≤ e)
    (hgood : tctx.status = .Running ∨ ¬ Overwritten e tctx.lastEpoch) : Replays start tctx ops e := by
  constructor
  · intro pre pc post tctx₁ thr hops hpre hthr hep hover
    obtain ⟨R,hrec,hlog,hbefore,hle,hop⟩ := recorded_event htid hstart hl hrun hops hpre hthr rfl
    obtain ⟨hpc,hlt⟩ := hop.pc pc (Or.inr rfl)
    rw [← hep] at hlog hbefore hle
    rw [← hbefore]
    cases hrec with
    | running thr' hthr' hst hw hstack hlogged =>
      have htr : tctx.trace = some thr'.trace := by simp [TracedContext.trace, hst, hthr']
      refine RestoreStack_of_logged hlogged htr rfl rfl ?_ hle hover hlog hpc hlt
      rw [hlogged.headers _ (Nat.div_le_div_right hle) (Nat.not_le.mp hover), header]
      dsimp only
      split_ifs
      · exact Nat.div_mul_le_self e kTracePartSize
      · exact Nat.zero_le e
    | stopped old trace hthr' hst hlast hdead hlogged hev hh =>
      have htr : tctx.trace = some trace := by
        rcases hst with hst | hst <;> simp [TracedContext.trace, hst, hdead]
      have hslot := hh (e / kTracePartSize % kTraceParts) (Nat.mod_lt _ (by decide))
      refine RestoreStack_of_logged hlogged htr hev ?_ ?_ hle hover hlog hpc hlt
      · rw [hslot]
      · rw [hslot]
        exact Nat.zero_le e
  · intro hover
    have hst := hgood.resolve_right (not_not.mpr hover)
    obtain ⟨R,c,hrec,-,-⟩ := (Recorded.start htid hstart).run hl hrun
    rw [hrec.lastEpoch] at hover
    cases hrec with
    | running thr' hthr' _ hw hstack hlogged =>
      exact RestoreStack_running hlogged (by simp [TracedContext.trace, hst, hthr']) he hover
    | stopped old trace hthr' hst' =>
      rw [hst] at hst'
      rcases hst' with h | h <;> cases h

/-- A finished thread does not refuse an epoch whose part is overwritten, if an access or a call took its slot. -/
theorem not_replays (htid : tid < kMaxTid) (hstart : TracedContext.ThreadStart tid epoch1 detached = some start)
    (hl : Transition.AllSteps TracedContext.step TracedContext.Legal start ops)
    (hrun : Transition.run TracedContext.step start ops = some tctx) (hst : tctx.status ≠ .Running)
    (hover : Overwritten e tctx.lastEpoch) {pre post : List TraceOp} {op : TraceOp} {pc : u64} {tctx₁ : TracedContext}
    {thr : TracedThread} (hops : ops = pre ++ op :: post)
    (hpre : Transition.run TracedContext.step start pre = some tctx₁) (hthr : tctx₁.thr = some thr)
    (hop : op = .MemoryAccess pc ∨ op = .FuncEntry pc)
    (hslot : (epoch thr.fast_state + 1) % kTraceSize = e % kTraceSize)
    (hlast : tctx.lastEpoch < epoch thr.fast_state + 1 + kTraceSize) : ¬ Replays start tctx ops e := by
  obtain ⟨ev,hev,hcases⟩ : ∃ ev, op.event = some ev ∧ (ev = .ofType .Mop pc ∨ ev = .ofType .FuncEnter pc) := by
    rcases hop with rfl | rfl
    · exact ⟨_,rfl,Or.inl rfl⟩
    · exact ⟨_,rfl,Or.inr rfl⟩
  obtain ⟨R,hrec,hlog,-,hle,hlegal⟩ := recorded_event htid hstart hl hrun hops hpre hthr hev
  obtain ⟨hpc,hlt⟩ := hlegal.pc pc hop.symm
  intro h
  cases hrec with
  | running thr' hthr' hst' => exact hst hst'
  | stopped old trace hthr' hst' _ hdead hlogged hevents hh =>
    have htr : tctx.trace = some trace := by
      rcases hst' with hst' | hst' <;> simp [TracedContext.trace, hst', hdead]
    have hep : (trace.headers (e / kTracePartSize % kTraceParts)).epoch0 ≤ e := by
      rw [hh _ (Nat.mod_lt _ (by decide))]
      exact Nat.zero_le e
    have hlatest : trace.events (e % kTraceSize) = ev := by
      rw [hevents, ← hslot, hlogged.events _ hle hlast, hlog]
    rw [← hlatest] at hcases
    exact RestoreStack_ne htr hep hcases hpc hlt (h.refused hover)

/-- Every run: the history is right while the thread runs, and for the parts that are still there. When the thread is
gone it does not refuse an epoch whose part was overwritten, if the latest event in the slot is an access or a call. -/
theorem RestoreStack_history (htid : tid < kMaxTid)
    (hstart : TracedContext.ThreadStart tid epoch1 detached = some start)
    (hl : Transition.AllSteps TracedContext.step TracedContext.Legal start ops)
    (hrun : Transition.run TracedContext.step start ops = some tctx) (he : start.epoch0 ≤ e) :
    (tctx.status = .Running ∨ ¬ Overwritten e tctx.lastEpoch → Replays start tctx ops e) ∧
      (tctx.status ≠ .Running → Overwritten e tctx.lastEpoch → ∀ pre op post pc tctx₁ thr, ops = pre ++ op :: post →
        Transition.run TracedContext.step start pre = some tctx₁ → tctx₁.thr = some thr →
        op = .MemoryAccess pc ∨ op = .FuncEntry pc → (epoch thr.fast_state + 1) % kTraceSize = e % kTraceSize →
        tctx.lastEpoch < epoch thr.fast_state + 1 + kTraceSize → ¬ Replays start tctx ops e) := by
  constructor
  · intro hgood
    exact replays htid hstart hl hrun he hgood
  · intro hst hover pre op post pc tctx₁ thr hops hpre hthr hop hslot hlast
    exact not_replays htid hstart hl hrun hst hover hops hpre hthr hop hslot hlast

end Runs

/-! ## A long run of accesses -/

/-- A thread outside all functions, in which no part began inside one. -/
structure Outside (tid c : ℕ) (thr : TracedThread) : Prop where
  word : IsFast thr.fast_state tid c
  shadow_stack : thr.shadow_stack = []
  headers : ∀ i, (thr.trace.headers i).stack0.s_ = []

theorem Outside.addEvent {tid c : ℕ} {thr : TracedThread} (h : Outside tid c thr) (hc : c + 1 < 2^kClkBits)
    (typ : EventType) (addr : u64) : ∃ thr', thr.addEvent typ addr = some thr' ∧ Outside tid (c + 1) thr' := by
  obtain ⟨x,hx⟩ := h.word.incrementEpoch_isSome hc
  have hx' := h.word.incrementEpoch hx
  refine ⟨_,by rw [TracedThread.addEvent, hx]; rfl,?_⟩
  unfold TraceAddEvent
  split_ifs with h0
  · refine ⟨hx',h.shadow_stack,fun i => ?_⟩
    simp only [TraceSwitch, Function.update_apply, h.shadow_stack]
    split_ifs
    · rfl
    · exact h.headers i
  · exact ⟨hx',h.shadow_stack,h.headers⟩

/-- While the stack is short only the pcs matter. -/
theorem legal_of_short {tctx : TracedContext} {op : TraceOp}
    (h : ∀ thr, tctx.thr = some thr → thr.shadow_stack.length ≤ kTraceStackSize)
    (hpc : ∀ pc, op = .FuncEntry pc ∨ op = .MemoryAccess pc → pc ≠ 0 ∧ pc.toNat < 2^48) : tctx.Legal op where
  pc := hpc
  depth thr hthr := (h thr hthr).trans_lt (by decide)
  part thr hthr _ _ := h thr hthr

theorem Outside.legal {tid c : ℕ} {thr : TracedThread} {tctx : TracedContext} (h : Outside tid c thr)
    (hthr : tctx.thr = some thr) {op : TraceOp} (hop : op = .MemoryAccess 1 ∨ op = .ThreadFinish) : tctx.Legal op := by
  apply legal_of_short
  · intro thr' hthr'
    cases hthr.symm.trans hthr'
    rw [h.shadow_stack]
    exact Nat.zero_le _
  · rintro pc (hpc | hpc)
    · rcases hop with rfl | rfl <;> cases hpc
    · rcases hop with rfl | rfl
      · cases hpc
        decide
      · cases hpc

theorem run_accesses {tid c : ℕ} (n : ℕ) {thr : TracedThread} {tctx : TracedContext} (h : Outside tid c thr)
    (hthr : tctx.thr = some thr) (hc : c + n < 2^kClkBits) :
    Transition.AllSteps TracedContext.step TracedContext.Legal tctx (List.replicate n (.MemoryAccess 1)) ∧
      ∃ thr', Outside tid (c + n) thr' ∧
        Transition.run TracedContext.step tctx (List.replicate n (.MemoryAccess 1)) = some { tctx with thr := some thr' } := by
  induction n generalizing c thr tctx with
  | zero =>
    refine ⟨trivial,thr,h,?_⟩
    rw [← hthr]
    rfl
  | succ n ih =>
    obtain ⟨thr₁,h₁,hout⟩ := h.addEvent (by omega) .Mop 1
    have hstep : tctx.step (.MemoryAccess 1) = some { tctx with thr := some thr₁ } := by
      simp only [TracedContext.step, TracedThread.MemoryAccess, hthr, h.word.not_ignore, Option.bind_eq_bind,
        Option.bind_some, Bool.false_eq_true, ↓reduceIte, h₁]
      rfl
    have hthr₁ : ({ tctx with thr := some thr₁ } : TracedContext).thr = some thr₁ := rfl
    obtain ⟨hl,thr',hout',hrun⟩ := ih hout hthr₁ (by omega)
    constructor
    · rw [List.replicate_succ]
      intro tctx₁ he
      cases hstep.symm.trans he
      exact ⟨h.legal hthr (Or.inl rfl),hl⟩
    · refine ⟨thr',?_,?_⟩
      · rw [← Nat.add_assoc, Nat.add_right_comm]
        exact hout'
      · rw [List.replicate_succ, Transition.run_cons, hstep, Option.bind_some]
        exact hrun

theorem deadInfo_isSome {trace : Trace} (h : ∀ i, (trace.headers i).stack0.s_ = []) :
    ∃ d, TracedContext.deadInfo trace = some d := by
  have hloop : ∀ n (f : ℕ → TraceHeader), ∃ g, (List.range n).foldlM (fun (headers : ℕ → TraceHeader) i => do
      let stack0 ← (headers i).stack0.CopyFrom (trace.headers i).stack0
      return Function.update headers i { headers i with stack0 := stack0 }) f = some g := by
    intro n f
    induction n with
    | zero => exact ⟨f,rfl⟩
    | succ n ih =>
      obtain ⟨g,hg⟩ := ih
      rw [List.range_succ, List.foldlM_append, hg]
      simp [StackTrace.CopyFrom, StackTrace.Init, h]
  obtain ⟨g,hg⟩ := hloop kTraceParts Trace.new.headers
  exact ⟨_,by rw [TracedContext.deadInfo, hg]; rfl⟩

/-- A thread that makes so many accesses that its first part is overwritten, and finishes. -/
theorem accesses_finish (n : ℕ) (hn : 1 + n < 2^kClkBits) :
    ∃ start tctx, TracedContext.ThreadStart 1 0 true = some start ∧ start.epoch0 = 1 ∧ tctx.status = .Dead ∧
      tctx.lastEpoch = 1 + n ∧
      Transition.AllSteps TracedContext.step TracedContext.Legal start (List.replicate n (.MemoryAccess 1) ++ [.ThreadFinish]) ∧
      Transition.run TracedContext.step start (List.replicate n (.MemoryAccess 1) ++ [.ThreadFinish]) = some tctx := by
  obtain ⟨x,hx⟩ : ∃ x, FastState.mk 1 1 = some x := Option.isSome_iff_exists.mp (by decide)
  have hout : Outside 1 1 ⟨x,[],.new⟩ := ⟨isFast_mk (by decide) hx,rfl,fun i => rfl⟩
  have hthr : (TracedContext.mk .Running true 1 (2^64 - 1) (some ⟨x,[],.new⟩) none).thr = some ⟨x,[],.new⟩ := rfl
  obtain ⟨hl,thr',hout',hrun⟩ := run_accesses n hout hthr hn
  obtain ⟨d,hd⟩ := deadInfo_isSome hout'.headers
  refine ⟨⟨.Running,true,1,2^64 - 1,some ⟨x,[],.new⟩,none⟩,⟨.Dead,true,1,epoch thr'.fast_state,none,some d⟩,
    by simp [TracedContext.ThreadStart, hx],rfl,rfl,hout'.word.isWord.epoch,?_,?_⟩
  · refine Transition.allSteps_append.mpr ⟨hl,fun tctx₁ hr => ?_⟩
    cases hrun.symm.trans hr
    exact fun tctx₂ _ => ⟨hout'.legal rfl (Or.inr rfl),trivial⟩
  · rw [Transition.run_append, hrun]
    simp [Transition.run_cons, TracedContext.step, TracedContext.ThreadFinish, hd]

/-- The last epoch of this thread begins the ninth part. The first access is gone, yet a stack is restored for it. -/
theorem RestoreStack_overwritten : ¬ ∀ tid epoch1 detached start tctx ops e, tid < kMaxTid →
    TracedContext.ThreadStart tid epoch1 detached = some start →
    Transition.AllSteps TracedContext.step TracedContext.Legal start ops →
    Transition.run TracedContext.step start ops = some tctx → start.epoch0 ≤ e → Replays start tctx ops e := by
  intro h
  obtain ⟨start,tctx,hstart,hfirst,hst,hlast,hl,hrun⟩ := accesses_finish (kTraceSize - 1) (by decide)
  obtain ⟨x,hx⟩ : ∃ x, FastState.mk 1 1 = some x := Option.isSome_iff_exists.mp (by decide)
  have hthr : start.thr = some ⟨x,[],.new⟩ := by
    simp only [TracedContext.ThreadStart, hx, Option.pure_def, Option.bind_eq_bind, Option.bind_some,
      Option.some.injEq, Nat.zero_add] at hstart
    rw [← hstart]
  have hep : epoch (TracedThread.fast_state ⟨x,[],.new⟩) = 1 := (isFast_mk (by decide) hx).isWord.epoch
  have hops : List.replicate (kTraceSize - 1) (.MemoryAccess 1) ++ [.ThreadFinish] =
      [] ++ TraceOp.MemoryAccess 1 :: (List.replicate (kTraceSize - 2) (.MemoryAccess 1) ++ [.ThreadFinish]) := rfl
  have hover : Overwritten 2 tctx.lastEpoch := by
    rw [hlast]
    decide
  have hgone : tctx.status ≠ .Running := by simp [hst]
  refine not_replays (by decide) hstart hl hrun hgone hover hops rfl hthr (Or.inl rfl) ?_ ?_
    (h _ _ _ _ _ _ 2 (by decide) hstart hl hrun (by omega))
  · rw [hep]
  · rw [hlast, hep]
    decide

/-- A call and an access in it, and the thread still runs. -/
theorem RestoreStack_history_call : ∃ start tctx, TracedContext.ThreadStart 1 0 false = some start ∧
    Transition.run TracedContext.step start [.FuncEntry 16,.MemoryAccess 20] = some tctx ∧
    Replays start tctx [.FuncEntry 16,.MemoryAccess 20] 3 := by
  have hrun : ((TracedContext.ThreadStart 1 0 false).bind fun start =>
      (start.step (.FuncEntry 16)).bind fun tctx₁ => (tctx₁.step (.MemoryAccess 20)).map fun tctx =>
        (start.epoch0,start.thr.map (·.shadow_stack.length),tctx₁.thr.map (·.shadow_stack.length),tctx.status)) =
      some (1,some 0,some 1,.Running) := by decide +kernel
  simp only [Option.bind_eq_some_iff, Option.map_eq_some_iff, Prod.mk.injEq] at hrun
  obtain ⟨start,hstart,tctx₁,h₁,tctx,h₂,hfirst,⟨thr,hthr,hlen⟩,⟨thr₁,hthr₁,hlen₁⟩,hst⟩ := hrun
  have hl : Transition.AllSteps TracedContext.step TracedContext.Legal start [.FuncEntry 16,.MemoryAccess 20] := by
    intro tctx' h'
    cases h₁.symm.trans h'
    refine ⟨legal_of_short ?_ ?_,fun tctx' h' => ⟨legal_of_short ?_ ?_,trivial⟩⟩
    · intro thr' hthr'
      cases hthr.symm.trans hthr'
      rw [hlen]
      decide
    · rintro pc (hpc | hpc) <;> cases hpc
      decide
    · intro thr' hthr'
      cases hthr₁.symm.trans hthr'
      rw [hlen₁]
      decide
    · rintro pc (hpc | hpc) <;> cases hpc
      decide
  have hrun : Transition.run TracedContext.step start [.FuncEntry 16,.MemoryAccess 20] = some tctx := by
    rw [Transition.run_cons, h₁, Option.bind_some, Transition.run_cons, h₂]
    rfl
  exact ⟨start,tctx,hstart,hrun,(RestoreStack_history (by decide) hstart hl hrun (by omega)).1 (Or.inl hst)⟩

end CompilerRt.Tsan.History
