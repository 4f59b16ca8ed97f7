import CompilerRt.Lib.ReflectedWalk
import CompilerRt.Tsan.History
import Mathlib

/-! # The buffer of a replay

`RestoreStack` replays the events of a part in a buffer of 1024 words, while a thread may be 4096 calls deep. The
position in the buffer is a walk over the events of the part.
-/
namespace CompilerRt.Tsan.History
open FastState ReflectedWalk

/-- `FuncExit` without the debug checks, which leave no room for the exit from a full stack. -/
def TracedThread.exit (thr : TracedThread) : Option TracedThread := do
  let thr ← thr.addEvent .FuncExit 0
  if 0 < thr.shadow_stack.length then return { thr with shadow_stack := thr.shadow_stack.dropLast }
  else none

/-- A step of a thread whose stack may be full. -/
def TracedContext.deepStep (tctx : TracedContext) : TraceOp → Option TracedContext
  | .FuncExit => do return { tctx with thr := some (← (← tctx.thr).exit) }
  | op => tctx.step op

/-- The part of `RestoreStack` that writes to the buffer; `some none` where it returns before. -/
def Replayed (tctx : TracedContext) (epoch : ℕ) : Option (Option Replay) :=
  match tctx.trace with
  | none => some none
  | some trace =>
    let partidx := epoch / (kTraceSize / kTraceParts) % kTraceParts
    let hdr := trace.headers partidx
    if epoch < hdr.epoch0 then some none
    else do
      let eend := epoch % kTraceSize
      let ebegin := eend / kTracePartSize * kTracePartSize
      let r ← Replay.start hdr.stack0.s_
      let r ← (List.range' ebegin (eend + 1 - ebegin)).foldlM (fun r i => r.event (trace.events i)) r
      some (some r)

theorem RestoreStack_eq_Replayed (tctx : TracedContext) (e : ℕ) :
    RestoreStack tctx e = (Replayed tctx e).bind fun r => match r with
      | none => some none
      | some r => r.result := by
  rw [RestoreStack, Replayed]
  cases tctx.trace with
  | none => rfl
  | some trace =>
    dsimp only
    split_ifs
    · rfl
    · simp only [Option.bind_eq_bind, Option.bind_assoc, Option.bind_some]

namespace Event

/-- How the event moves the position. -/
def delta (ev : Event) : ℤ :=
  if ev.typ = EventType.FuncEnter.ctorIdx then 1 else if ev.typ = EventType.FuncExit.ctorIdx then -1 else 0

/-- The event is written to the buffer. -/
def Writes (ev : Event) : Prop := ev.typ = EventType.Mop.ctorIdx ∨ ev.typ = EventType.FuncEnter.ctorIdx

end Event

/-- In front of every event that is written, the frames and the events so far leave room in the buffer. -/
def Shallow (frames : ℕ) (evs : List Event) : Prop :=
  ∀ pre ev post, evs = pre ++ ev :: post → ev.Writes → Below frames kReplaySize (pre.map Event.delta)

namespace Replay
variable {r : Replay} {ev : Event} {evs : List Event}

theorem event_none (hw : ev.Writes) (hfull : kReplaySize ≤ r.pos) : r.event ev = none := by
  rw [Replay.event]
  rcases hw with hw | hw
  · rw [if_pos hw, if_neg (Nat.not_lt.mpr hfull)]
  · rw [if_neg (by rw [hw]; decide), if_pos hw, if_neg (Nat.not_lt.mpr hfull)]

theorem event_some (hroom : ev.Writes → r.pos < kReplaySize) :
    ∃ r', r.event ev = some r' ∧ (r'.pos : ℤ) = max 0 (r.pos + ev.delta) := by
  rw [Replay.event, Event.delta]
  by_cases hmop : ev.typ = EventType.Mop.ctorIdx
  · refine ⟨{ r with stack := Function.update r.stack r.pos ev.pc },?_,?_⟩
    · rw [if_pos hmop, if_pos (hroom (Or.inl hmop))]
    · rw [hmop, if_neg (by decide), if_neg (by decide)]
      dsimp only
      omega
  · rw [if_neg hmop]
    by_cases henter : ev.typ = EventType.FuncEnter.ctorIdx
    · refine ⟨⟨Function.update r.stack r.pos ev.pc,r.pos + 1⟩,?_,?_⟩
      · rw [if_pos henter, if_pos (hroom (Or.inr henter))]
      · rw [if_pos henter]
        dsimp only
        omega
    · rw [if_neg henter, if_neg henter]
      split_ifs with hexit
      · refine ⟨{ r with pos := r.pos - 1 },rfl,?_⟩
        dsimp only
        omega
      · exact ⟨r,rfl,by omega⟩

/-- The events are replayed exactly where the walk is below the end of the buffer in front of each that is written. -/
theorem events_isSome_iff : (evs.foldlM Replay.event r).isSome ↔ Shallow r.pos evs := by
  have hbound : (0 : ℤ) < kReplaySize := by decide
  induction evs generalizing r with
  | nil =>
    refine iff_of_true rfl fun pre ev post h => ?_
    exact absurd h.symm (List.append_ne_nil_of_right_ne_nil _ (List.cons_ne_nil _ _))
  | cons ev evs ih =>
    rw [List.foldlM_cons]
    by_cases hroom : ev.Writes → r.pos < kReplaySize
    · obtain ⟨r',hr',hpos⟩ := event_some hroom
      rw [hr', Option.bind_eq_bind, Option.bind_some]
      refine ih.trans ?_
      constructor
      · intro h pre ev' post heq hw
        rw [← walk_lt_iff (Int.natCast_nonneg _) hbound]
        cases pre with
        | nil =>
          obtain ⟨rfl,-⟩ := List.cons.inj heq
          exact Int.ofNat_lt.mpr (hroom hw)
        | cons a pre =>
          obtain ⟨rfl,hrest⟩ := List.cons.inj heq
          have hlt := (walk_lt_iff (Int.natCast_nonneg _) hbound).mpr (h pre ev' post hrest hw)
          rw [hpos] at hlt
          exact hlt
      · intro h pre ev' post heq hw
        rw [← walk_lt_iff (Int.natCast_nonneg _) hbound, hpos]
        exact (walk_lt_iff (Int.natCast_nonneg _) hbound).mpr (h (ev :: pre) ev' post (congrArg _ heq) hw)
    · rw [Classical.not_imp, Nat.not_lt] at hroom
      rw [event_none hroom.1 hroom.2]
      refine iff_of_false Bool.false_ne_true fun h => ?_
      have hlt := (walk_lt_iff (Int.natCast_nonneg _) hbound).mpr (h [] ev evs rfl hroom.1)
      exact absurd (Int.ofNat_lt.mp hlt) (Nat.not_lt.mpr hroom.2)

end Replay

/-- The events that the trace holds from the begin of the part to the epoch's event. -/
def recorded (trace : Trace) (e : ℕ) : List Event :=
  (List.range' (e % kTraceSize / kTracePartSize * kTracePartSize)
    (e % kTraceSize + 1 - e % kTraceSize / kTracePartSize * kTracePartSize)).map trace.events

/-- The header of the part. -/
def headerOf (trace : Trace) (e : ℕ) : TraceHeader := trace.headers (e / kTracePartSize % kTraceParts)

/-- The condition on the trace of a thread. -/
def Fits (tctx : TracedContext) (e : ℕ) : Prop := ∀ trace, tctx.trace = some trace → (headerOf trace e).epoch0 ≤ e →
  Shallow (headerOf trace e).stack0.s_.length (recorded trace e)

/-! ## Headers -/

/-- The headers have no more frames than their buffers take. -/
structure Capped (trace : Trace) : Prop where
  static : ∀ i, (trace.headers i).stack0.c_ = kTraceStackSize
  frames : ∀ i < kTraceParts, (trace.headers i).stack0.s_.length ≤ kTraceStackSize

theorem capped_new : Capped .new := ⟨fun _ => rfl,fun _ _ => Nat.zero_le _⟩

theorem ObtainCurrent_capped {st : StackTrace} (h : st.c_ = kTraceStackSize) (stack : List u64) :
    (st.ObtainCurrent stack 0).c_ = kTraceStackSize ∧ (st.ObtainCurrent stack 0).s_.length ≤ kTraceStackSize := by
  rw [StackTrace.ObtainCurrent]
  simp only [↓reduceIte, Nat.add_zero, List.append_nil, h]
  split_ifs with h0 h1
  · exact ⟨rfl,Nat.zero_le _⟩
  · refine ⟨rfl,?_⟩
    rw [List.length_drop]
    omega
  · refine ⟨rfl,?_⟩
    have hpos : kTraceStackSize ≠ 0 := by decide
    dsimp only
    rw [List.drop_zero]
    omega

/-- The header of a new part is cut to the size of its buffer. -/
theorem Capped.addEvent {thr thr' : TracedThread} {typ : EventType} {addr : u64} (h : Capped thr.trace)
    (he : thr.addEvent typ addr = some thr') : Capped thr'.trace := by
  simp only [TracedThread.addEvent, Option.pure_def, Option.bind_eq_bind, Option.bind_eq_some_iff, Option.some.injEq] at he
  obtain ⟨x,-,rfl⟩ := he
  unfold TraceAddEvent
  split_ifs with h0
  · constructor
    · intro i
      simp only [TraceSwitch, Function.update_apply]
      split_ifs
      · exact (ObtainCurrent_capped (h.static _) _).1
      · exact h.static i
    · intro i hi
      simp only [TraceSwitch, Function.update_apply]
      split_ifs
      · exact (ObtainCurrent_capped (h.static _) _).2
      · exact h.frames i hi
  · exact ⟨h.static,h.frames⟩

/-- The traces of the thread, while it runs and when it is gone. -/
structure CappedContext (tctx : TracedContext) : Prop where
  thr : ∀ thr, tctx.thr = some thr → Capped thr.trace
  dead : ∀ d, tctx.dead_info = some d → ∀ i < kTraceParts, (d.headers i).stack0.s_.length ≤ kTraceStackSize

namespace CappedContext
variable {tctx tctx' : TracedContext} {op : TraceOp}

theorem start {tid epoch1 : ℕ} {detached : Bool} (h : TracedContext.ThreadStart tid epoch1 detached = some tctx) :
    CappedContext tctx := by
  simp only [TracedContext.ThreadStart, Option.pure_def, Option.bind_eq_bind, Option.bind_eq_some_iff] at h
  obtain ⟨x,-,h⟩ := h
  cases h
  refine ⟨fun thr hthr => ?_,fun d hd => ?_⟩
  · cases hthr
    exact capped_new
  · cases hd

theorem setThr (h : CappedContext tctx) {thr : TracedThread} (hthr : Capped thr.trace) :
    CappedContext { tctx with thr := some thr } := by
  refine ⟨fun thr' hthr' => ?_,h.dead⟩
  cases hthr'
  exact hthr

theorem finish (h : CappedContext tctx) (he : tctx.step .ThreadFinish = some tctx') : CappedContext tctx' := by
  simp only [TracedContext.step, TracedContext.ThreadFinish, Option.pure_def, Option.bind_eq_bind,
    Option.bind_eq_some_iff] at he
  obtain ⟨thr,hthr,he⟩ := he
  have hgone : ∀ {trace d : Trace} {tctx' : TracedContext}, Capped trace → TracedContext.deadInfo trace = some d →
      tctx'.thr = none → tctx'.dead_info = some d → CappedContext tctx' := by
    intro trace d tctx' hcap hd hnone hdead
    refine ⟨fun thr' hthr' => ?_,fun d' hd' i hi => ?_⟩
    · rw [hnone] at hthr'
      cases hthr'
    · rw [hdead] at hd'
      cases hd'
      rw [(deadInfo_eq_some hd).2 i hi]
      exact hcap.frames i hi
  split_ifs at he with hst hdet
  · simp only [Option.bind_eq_some_iff] at he
    obtain ⟨thr',hthr',d,hd,he⟩ := he
    cases hthr'
    cases he
    exact hgone (h.thr thr hthr) hd rfl rfl
  · simp only [Option.bind_eq_some_iff] at he
    obtain ⟨thr',h₁,d,hd,he⟩ := he
    cases he
    exact hgone ((h.thr thr hthr).addEvent h₁) hd rfl rfl

theorem step (h : CappedContext tctx) (he : tctx.deepStep op = some tctx') : CappedContext tctx' := by
  cases op with
  | FuncEntry pc =>
    simp only [TracedContext.deepStep, TracedContext.step, TracedThread.FuncEntry, Option.pure_def, Option.bind_eq_bind,
      Option.bind_eq_some_iff] at he
    obtain ⟨thr,hthr,thr',⟨thr₁,h₁,he'⟩,he⟩ := he
    split_ifs at he' with hsize
    cases he'
    cases he
    have hcap := (h.thr thr hthr).addEvent h₁
    exact h.setThr hcap
  | FuncExit =>
    simp only [TracedContext.deepStep, TracedThread.exit, Option.pure_def, Option.bind_eq_bind,
      Option.bind_eq_some_iff] at he
    obtain ⟨thr,hthr,thr',⟨thr₁,h₁,he'⟩,he⟩ := he
    split_ifs at he' with hsize
    cases he'
    cases he
    have hcap := (h.thr thr hthr).addEvent h₁
    exact h.setThr hcap
  | MemoryAccess pc =>
    simp only [TracedContext.deepStep, TracedContext.step, TracedThread.MemoryAccess, Option.pure_def,
      Option.bind_eq_bind, Option.bind_eq_some_iff] at he
    obtain ⟨thr,hthr,thr',h₁,he⟩ := he
    cases he
    split_ifs at h₁
    · cases h₁
      exact h.setThr (h.thr thr hthr)
    · exact h.setThr ((h.thr thr hthr).addEvent h₁)
  | MutexLock addr | MutexUnlock addr | MutexReadLock addr | MutexReadUnlock addr =>
    simp only [TracedContext.deepStep, TracedContext.step, Option.pure_def, Option.bind_eq_bind,
      Option.bind_eq_some_iff] at he
    obtain ⟨thr,hthr,thr',h₁,he⟩ := he
    cases he
    exact h.setThr ((h.thr thr hthr).addEvent h₁)
  | ThreadFinish => exact h.finish he
  | ThreadDead =>
    simp only [TracedContext.deepStep, TracedContext.step] at he
    split_ifs at he
    cases he
    exact ⟨h.thr,h.dead⟩

theorem run {ops : List TraceOp} (h : CappedContext tctx)
    (hr : Transition.run TracedContext.deepStep tctx ops = some tctx') : CappedContext tctx' :=
  Transition.run_inv (fun _ _ _ hs he => hs.step he) h hr

/-- The trace that is looked at has such headers, whether the thread runs or is gone. -/
theorem trace (h : CappedContext tctx) {trace : Trace} (htr : tctx.trace = some trace) {i : ℕ} (hi : i < kTraceParts) :
    (trace.headers i).stack0.s_.length ≤ kTraceStackSize := by
  rw [TracedContext.trace] at htr
  split at htr
  · obtain ⟨thr,hthr,rfl⟩ := Option.map_eq_some_iff.mp htr
    exact (h.thr thr hthr).frames i hi
  · exact h.dead trace htr i hi
  · exact h.dead trace htr i hi
  · cases htr

end CappedContext

theorem Replayed_isSome_iff {tctx : TracedContext} (h : CappedContext tctx) (e : ℕ) :
    (Replayed tctx e).isSome ↔ Fits tctx e := by
  rw [Replayed, Fits]
  cases htr : tctx.trace with
  | none => exact iff_of_true rfl fun trace h => nomatch h
  | some trace =>
    dsimp only
    rw [kTraceSize_div]
    by_cases hold : e < (trace.headers (e / kTracePartSize % kTraceParts)).epoch0
    · rw [if_pos hold]
      refine iff_of_true rfl fun trace' htr' hep => ?_
      cases htr'
      exact absurd hold (Nat.not_lt.mpr hep)
    · have hlen := h.trace htr (Nat.mod_lt (e / kTracePartSize) (by decide : 0 < kTraceParts))
      have hstart : Replay.start (trace.headers (e / kTracePartSize % kTraceParts)).stack0.s_ = some _ :=
        if_pos (hlen.trans (by decide))
      have hsome : ∀ o : Option Replay, (o.bind fun r => some (some r)).isSome = o.isSome := by
        intro o
        cases o with
        | none => rfl
        | some r => rfl
      rw [if_neg hold, hstart, Option.bind_eq_bind, Option.bind_some, hsome, ← List.foldlM_map]
      refine Replay.events_isSome_iff.trans ⟨fun hshallow trace' htr' _ => ?_,fun hfits => ?_⟩
      · cases htr'
        exact hshallow
      · exact hfits trace rfl (Nat.le_of_not_lt hold)

section Runs
variable {tid epoch1 e : ℕ} {detached : Bool} {start tctx : TracedContext} {ops : List TraceOp}

/-- In every state of every run, the replay of an epoch stays in the buffer exactly if the events of its part leave
room. -/
theorem Replayed_iff_fits (hstart : TracedContext.ThreadStart tid epoch1 detached = some start)
    (hrun : Transition.run TracedContext.deepStep start ops = some tctx) : (Replayed tctx e).isSome ↔ Fits tctx e :=
  Replayed_isSome_iff ((CappedContext.start hstart).run hrun) e

end Runs

/-! ## Deep recursion -/

/-- A thread that started outside all functions, made `n` calls and nothing else, in one part. -/
structure Called (n : ℕ) (thr : TracedThread) : Prop where
  word : IsFast thr.fast_state 1 (1 + n)
  depth : thr.shadow_stack.length = n
  events : ∀ k, thr.trace.events k = if 2 ≤ k ∧ k < n + 2 then .ofType .FuncEnter 1 else 0
  headers : thr.trace.headers = Trace.new.headers

theorem Called.addEvent {n : ℕ} {thr : TracedThread} (h : Called n thr) (hn : n + 2 < kTracePartSize) (typ : EventType)
    (addr : u64) : ∃ thr', thr.addEvent typ addr = some thr' ∧ IsFast thr'.fast_state 1 (n + 2) ∧
      thr'.shadow_stack = thr.shadow_stack ∧ thr'.trace.headers = Trace.new.headers ∧
      thr'.trace.events = Function.update thr.trace.events (n + 2) (.ofType typ addr) := by
  have hP : kTracePartSize = 16384 := rfl
  have hT : kTraceSize = 131072 := rfl
  have hclk : (2 : ℕ)^14 < 2^kClkBits := Nat.pow_lt_pow_right (by decide) (by decide)
  obtain ⟨x,hx⟩ := h.word.incrementEpoch_isSome (by omega)
  have hx' := h.word.incrementEpoch hx
  have hep := hx'.isWord.epoch
  refine ⟨_,by rw [TracedThread.addEvent, hx]; rfl,?_⟩
  have hnext : 1 + n + 1 = n + 2 := by omega
  rw [hnext] at hx' hep
  have hmod : ¬(n + 2) % kTracePartSize = 0 := by
    rw [Nat.mod_eq_of_lt hn]
    omega
  unfold TraceAddEvent
  rw [hep, if_neg hmod, Nat.mod_eq_of_lt (by omega)]
  exact ⟨hx',rfl,h.headers,rfl⟩

theorem Called.call {n : ℕ} {thr : TracedThread} (h : Called n thr) (hn : n + 2 < kTracePartSize)
    (hdepth : n < kShadowStackSize) : ∃ thr', thr.FuncEntry 1 = some thr' ∧ Called (n + 1) thr' := by
  obtain ⟨thr',h',hw,hstack,hheaders,hevents⟩ := h.addEvent hn .FuncEnter 1
  have hlen : thr'.shadow_stack.length = n := hstack ▸ h.depth
  refine ⟨{ thr' with shadow_stack := thr'.shadow_stack ++ [1] },?_,?_,?_,?_,hheaders⟩
  · rw [TracedThread.FuncEntry, h', Option.bind_eq_bind, Option.bind_some, if_pos (by omega)]
    rfl
  · have hnext : 1 + (n + 1) = n + 2 := by omega
    rw [hnext]
    exact hw
  · rw [List.length_append, hlen]
    rfl
  · intro k
    dsimp only
    rw [hevents, Function.update_apply, h.events]
    split_ifs <;> first | rfl | omega

theorem run_calls (n : ℕ) {m : ℕ} {thr : TracedThread} {tctx : TracedContext} (h : Called m thr)
    (hthr : tctx.thr = some thr) (hn : m + n + 2 < kTracePartSize) (hdepth : m + n ≤ kShadowStackSize) :
    ∃ thr', Called (m + n) thr' ∧ Transition.run TracedContext.deepStep tctx (List.replicate n (.FuncEntry 1)) =
      some { tctx with thr := some thr' } := by
  induction n generalizing m thr tctx with
  | zero =>
    refine ⟨thr,h,?_⟩
    rw [← hthr]
    rfl
  | succ n ih =>
    obtain ⟨thr₁,h₁,hcalled⟩ := h.call (by omega) (by omega)
    have hstep : tctx.deepStep (.FuncEntry 1) = some { tctx with thr := some thr₁ } := by
      simp only [TracedContext.deepStep, TracedContext.step, hthr, Option.bind_eq_bind, Option.bind_some, h₁]
      rfl
    have hthr₁ : ({ tctx with thr := some thr₁ } : TracedContext).thr = some thr₁ := rfl
    obtain ⟨thr',h',hrun⟩ := ih hcalled hthr₁ (by omega) (by omega)
    refine ⟨thr',?_,?_⟩
    · rw [← Nat.add_assoc, Nat.add_right_comm]
      exact h'
    · rw [List.replicate_succ, Transition.run_cons, hstep, Option.bind_some]
      exact hrun

/-- The thread that starts, and what it is after its calls. -/
theorem start_calls (n : ℕ) (hn : n + 2 < kTracePartSize) (hdepth : n ≤ kShadowStackSize) :
    ∃ start thr, TracedContext.ThreadStart 1 0 false = some start ∧ start.status = .Running ∧ Called n thr ∧
      Transition.run TracedContext.deepStep start (List.replicate n (.FuncEntry 1)) =
        some { start with thr := some thr } := by
  obtain ⟨x,hx⟩ : ∃ x, FastState.mk 1 1 = some x := Option.isSome_iff_exists.mp (by decide)
  have hcalled : Called 0 ⟨x,[],.new⟩ := by
    refine ⟨isFast_mk (by decide) hx,rfl,fun k => ?_,rfl⟩
    rw [if_neg (by omega)]
    rfl
  have hthr : (TracedContext.mk .Running false 1 (2^64 - 1) (some ⟨x,[],.new⟩) none).thr = some ⟨x,[],.new⟩ := rfl
  obtain ⟨thr,h,hrun⟩ := run_calls n hcalled hthr (by omega) (by omega)
  rw [Nat.zero_add] at h
  exact ⟨_,thr,by simp [TracedContext.ThreadStart, hx],rfl,h,hrun⟩

theorem Replayed_iff_fits_calls : ∃ start tctx, TracedContext.ThreadStart 1 0 false = some start ∧
    Transition.run TracedContext.deepStep start (List.replicate 3 (.FuncEntry 1)) = some tctx ∧
      ((Replayed tctx 4).isSome ↔ Fits tctx 4) := by
  obtain ⟨start,thr,hstart,-,-,hrun⟩ := start_calls 3 (by decide) (by decide)
  exact ⟨start,_,hstart,hrun,Replayed_iff_fits hstart hrun⟩

/-- The position is at the end of the buffer behind 1024 calls. -/
theorem deep_surplus {events : ℕ → Event}
    (hevents : ∀ k < 1026, events k = if 2 ≤ k ∧ k < 1026 then .ofType .FuncEnter 1 else 0) :
    (((List.range' 0 1026).map events).map Event.delta).sum = 1024 := by
  have hdelta : ((List.range' 0 1026).map events).map Event.delta =
      (List.range' 0 1026).map fun k => if 2 ≤ k ∧ k < 1026 then (1 : ℤ) else 0 := by
    rw [List.map_map]
    refine List.map_congr_left fun k hk => ?_
    have hlt := (List.mem_range'_1.mp hk).2
    rw [Function.comp_apply, hevents k (by omega)]
    split_ifs
    · decide
    · decide
  rw [hdelta]
  decide +kernel

/-- An access behind 1024 calls is not replayed: its pc would be written behind the buffer. -/
theorem Replayed_deep : ∃ start tctx, TracedContext.ThreadStart 1 0 false = some start ∧
    Transition.run TracedContext.deepStep start (List.replicate 1024 (.FuncEntry 1) ++ [.MemoryAccess 1]) = some tctx ∧
      tctx.lastEpoch = 1026 ∧ Replayed tctx 1026 = none := by
  obtain ⟨start,thr,hstart,hst,hcalled,hrun⟩ := start_calls 1024 (by decide) (by decide)
  obtain ⟨thr',h',hw,-,hheaders,hevents⟩ := hcalled.addEvent (by decide) .Mop 1
  have hlast : Transition.run TracedContext.deepStep start (List.replicate 1024 (.FuncEntry 1) ++ [.MemoryAccess 1]) =
      some { start with thr := some thr' } := by
    rw [Transition.run_append, hrun, Option.bind_some]
    simp only [Transition.run_cons, TracedContext.deepStep, TracedContext.step, TracedThread.MemoryAccess,
      hcalled.word.not_ignore, Option.bind_eq_bind, Option.bind_some, Bool.false_eq_true, ↓reduceIte, h']
    rfl
  refine ⟨start,_,hstart,hlast,hw.isWord.epoch,?_⟩
  have hcapped := (CappedContext.start hstart).run hlast
  rw [← Option.not_isSome_iff_eq_none, Replayed_isSome_iff hcapped]
  intro hfits
  have htr : ({ start with thr := some thr' } : TracedContext).trace = some thr'.trace := by
    rw [TracedContext.trace, hst]
    rfl
  have hheader : headerOf thr'.trace 1026 = .new := by
    rw [headerOf, hheaders]
    rfl
  have hshallow := hfits _ htr (by rw [hheader]; exact Nat.zero_le _)
  have hrecorded : recorded thr'.trace 1026 =
      (List.range' 0 1026).map thr'.trace.events ++ [thr'.trace.events 1026] := by
    have hcount : List.range' (1026 % kTraceSize / kTracePartSize * kTracePartSize)
        (1026 % kTraceSize + 1 - 1026 % kTraceSize / kTracePartSize * kTracePartSize) = List.range' 0 (1026 + 1) := rfl
    rw [recorded, hcount, List.range'_concat, List.map_append]
    rfl
  have hwrites : (thr'.trace.events 1026).Writes := by
    rw [hevents, Function.update_self]
    exact Or.inl (by decide)
  have hbelow := (hshallow _ _ _ hrecorded hwrites).whole
  have hold : ∀ k < 1026, thr'.trace.events k = if 2 ≤ k ∧ k < 1026 then .ofType .FuncEnter 1 else 0 := by
    intro k hk
    rw [hevents, Function.update_of_ne hk.ne]
    exact hcalled.events k
  rw [deep_surplus hold, hheader] at hbelow
  exact absurd hbelow (by decide)

end CompilerRt.Tsan.History
