import CompilerRt.Lib.Transition
import Mathlib.Data.List.Count
import Mathlib.Logic.Function.Basic

/-! # Signals of a thread

A signal that arrives is noted in the signal context of the thread, and its handler runs when the thread leaves the
outermost interceptor. Only what the thread did to itself is handled at once. A signal can arrive between any two
instructions of the thread where it is not blocked; the steps here are that small.
-/
namespace CompilerRt.Tsan.Signals

def kSigCount : ℕ := 128

def SIG_DFL : ℕ := 0
def SIG_IGN : ℕ := 1

/-- SIGSEGV, SIGBUS, SIGILL, SIGABRT, SIGFPE and SIGPIPE. -/
def synchronous : List ℕ := [11,7,4,6,8,13]

/-- The details of a signal stand for themselves. -/
structure SignalDesc where
  armed : Bool
  sigaction : Bool
  siginfo : ℕ
  ctx : ℕ

structure SignalContext where
  int_signal_send : ℕ
  pending_signal_count : ℕ
  pending_signals : ℕ → SignalDesc

/-- The context is allocated with zeros. -/
def SignalContext.zero : SignalContext := ⟨0,0,fun _ => ⟨false,false,0,0⟩⟩

/-- Where the thread is in `process_pending_signals`. -/
inductive Place where
  /-- outside of it -/
  | out
  /-- at the test whether there is anything to do -/
  | test
  /-- at `in_signal_handler = true` -/
  | flag
  /-- at `pending_signal_count = 0` -/
  | zero
  /-- where all signals are blocked -/
  | block
  /-- at the head of the loop -/
  | loop (sig : ℕ)
  /-- after `armed = false` -/
  | call (sig : ℕ)
  /-- in the handler of the user -/
  | handler (sig saved_errno : ℕ)
  /-- where the old mask is restored -/
  | unblock
  /-- at `in_signal_handler = false` -/
  | unflag
  deriving DecidableEq

/-- What is written down of the signals. -/
inductive Note where
  | armed (sig : ℕ)
  /-- the handler is called -/
  | ran (sig siginfo : ℕ)
  /-- there is no handler any more -/
  | dropped (sig : ℕ)
  /-- the handler of a synchronous signal is called -/
  | ranAtOnce (sig siginfo : ℕ)
  /-- the handler is reported to have changed `errno` -/
  | spoiled (sig : ℕ)
  /-- the count is reset and the loop is begun -/
  | processing
  deriving DecidableEq

structure State where
  in_rtl : ℕ
  in_signal_handler : Bool
  is_alive : Bool
  signal_ctx : Option SignalContext
  /-- the signals that are blocked -/
  mask : ℕ → Bool
  oldset : ℕ → Bool
  errno : ℕ
  place : Place
  /-- In the handler of a synchronous signal, what is restored after it: the mask and `in_rtl`. -/
  sync : Option ((ℕ → Bool) × ℕ)
  /-- the handlers of the user, which all threads share -/
  sigactions : ℕ → ℕ
  log : List Note

inductive Step where
  /-- a signal arrives, with what the kernel passes on -/
  | arrive (sig : ℕ) (sigact : Bool) (info ctx : Option ℕ)
  /-- the next instruction of `process_pending_signals` -/
  | next
  /-- an interceptor is entered -/
  | enter
  /-- an interceptor is left -/
  | exit
  /-- the handler of the user returns -/
  | ret
  /-- `raise`, `kill` and `pthread_kill` say which signal the thread is about to send itself -/
  | send (sig : ℕ)
  /-- the user, in any thread, sets a handler -/
  | sigaction (sig handler : ℕ)
  /-- the user sets the mask -/
  | sigmask (mask : ℕ → Bool)
  | setErrno (v : ℕ)
  /-- the thread ends -/
  | finalize

namespace State
variable (s : State)

/-- `SigCtx` allocates the context when it is first needed. -/
def SigCtx : State := match s.signal_ctx with
  | some _ => s
  | none => if s.is_alive then { s with signal_ctx := some .zero } else s

/-- Code of the user or of an interceptor runs. -/
def outside : Bool := s.sync.isSome || match s.place with
  | .out | .handler .. => true
  | _ => false

def isSynchronous (sig : ℕ) : Bool :=
  sig ∈ synchronous || match s.signal_ctx with
    | some sctx => sig = sctx.int_signal_send
    | none => false

end State

/-- Whether the step can be taken at all. -/
def enabled (s : State) : Step → Bool
  | .arrive sig .. => sig < kSigCount && !s.mask sig
  | .next => s.sync.isNone && match s.place with
    | .out | .handler .. => false
    | _ => true
  | .enter | .send _ | .sigmask _ | .setErrno _ => s.outside
  | .exit => s.outside && 0 < s.in_rtl
  | .ret => s.sync.isSome || match s.place with
    | .handler .. => s.in_rtl = 0
    | _ => false
  | .sigaction .. => true
  | .finalize => s.sync.isNone && s.place = .out && s.is_alive

section Step
variable (report_bugs : Bool) (s : State)

/-- The handler that the run-time library sets for every signal. A check that fails gives no state. -/
def rtl_generic_sighandler (sigact : Bool) (sig : ℕ) (info ctx : Option ℕ) : Option State :=
  let s := s.SigCtx
  -- Synchronous signals are not deferred.
  if s.isSynchronous sig then
    if (s.in_rtl = 0 ∨ s.in_rtl = 1) ∧ s.in_signal_handler = false then
      some { s with
        sync := some (s.mask,s.in_rtl), mask := fun _ => true, in_rtl := 0, in_signal_handler := true
        log := .ranAtOnce sig (info.getD 0) :: s.log }
    else none
  else match s.signal_ctx with
    | none => some s
    | some sctx =>
      let signal := sctx.pending_signals sig
      if signal.armed then some s
      else some { s with
        signal_ctx := some { sctx with
          pending_signals := Function.update sctx.pending_signals sig
            ⟨true,sigact,info.getD signal.siginfo,ctx.getD signal.ctx⟩
          pending_signal_count := sctx.pending_signal_count + 1 }
        log := .armed sig :: s.log }

def process_pending_signals : Option State :=
  match s.place, s.signal_ctx with
  | .test, _ =>
    if s.in_rtl = 0 then
      let s := s.SigCtx
      match s.signal_ctx with
      | none => some { s with place := .out }
      | some sctx =>
        if sctx.pending_signal_count = 0 ∨ s.in_signal_handler then some { s with place := .out }
        else some { s with place := .flag }
    else none
  | .flag, _ => some { s with in_signal_handler := true, place := .zero }
  | .zero, some sctx =>
    some { s with
      signal_ctx := some { sctx with pending_signal_count := 0 }, place := .block, log := .processing :: s.log }
  | .block, _ => some { s with oldset := s.mask, mask := fun _ => true, place := .loop 0 }
  | .loop sig, some sctx =>
    if sig < kSigCount then
      let signal := sctx.pending_signals sig
      if signal.armed then
        some { s with
          signal_ctx := some { sctx with
            pending_signals := Function.update sctx.pending_signals sig { signal with armed := false } }
          place := .call sig }
      else some { s with place := .loop (sig + 1) }
    else some { s with place := .unblock }
  | .call sig, some sctx =>
    if s.sigactions sig ≠ SIG_DFL ∧ s.sigactions sig ≠ SIG_IGN then
      some { s with
        errno := 0, place := .handler sig s.errno, log := .ran sig (sctx.pending_signals sig).siginfo :: s.log }
    else some { s with place := .loop (sig + 1), log := .dropped sig :: s.log }
  | .unblock, _ => some { s with mask := s.oldset, place := .unflag }
  | .unflag, _ => if s.in_signal_handler then some { s with in_signal_handler := false, place := .out } else none
  | _, _ => none

/-- The handler of the user returns, one that was called at once or one that was deferred. -/
def handlerReturns : Option State := match s.sync, s.place with
  | some (mask,in_rtl), _ =>
    if s.in_signal_handler then
      some { s with mask := mask, in_rtl := in_rtl, in_signal_handler := false, sync := none }
    else none
  | none, .handler sig saved_errno =>
    some { s with
      errno := saved_errno, place := .loop (sig + 1)
      log := if report_bugs && s.errno != 0 then .spoiled sig :: s.log else s.log }
  | none, _ => none

def exec : Step → Option State
  | .arrive sig sigact info ctx => rtl_generic_sighandler s sigact sig info ctx
  | .next => process_pending_signals s
  | .enter => some { s with in_rtl := s.in_rtl + 1 }
  | .exit =>
    if s.in_rtl = 1 then
      -- in a handler `process_pending_signals` returns at once
      if s.in_signal_handler then some { s.SigCtx with in_rtl := 0 }
      else some { s with in_rtl := 0, place := .test }
    else some { s with in_rtl := s.in_rtl - 1 }
  | .ret => handlerReturns report_bugs s
  | .send sig =>
    let s := s.SigCtx
    match s.signal_ctx with
    | some sctx => some { s with signal_ctx := some { sctx with int_signal_send := sig } }
    | none => none
  | .sigaction sig handler => some { s with sigactions := Function.update s.sigactions sig handler }
  | .sigmask mask => some { s with mask := mask }
  | .setErrno v => some { s with errno := v }
  | .finalize => some { s with is_alive := false, signal_ctx := none }

end Step

/-- A thread that has started, with whatever handlers there are. -/
def start (mask : ℕ → Bool) (sigactions : ℕ → ℕ) : State :=
  ⟨0,false,true,none,mask,fun _ => false,0,.out,none,sigactions,[]⟩

inductive Reachable (report_bugs : Bool) : State → Prop
  | start (mask : ℕ → Bool) (sigactions : ℕ → ℕ) : Reachable report_bugs (start mask sigactions)
  | step {s s' : State} {a : Step} (h : Reachable report_bugs s) (hen : enabled s a = true)
      (ha : exec report_bugs s a = some s') : Reachable report_bugs s'

/-! ## The invariant -/

namespace State
variable (s : State)

def armed (sig : ℕ) : Bool := match s.signal_ctx with
  | some sctx => (sctx.pending_signals sig).armed
  | none => false

def count : ℕ := match s.signal_ctx with
  | some sctx => sctx.pending_signal_count
  | none => 0

end State

namespace Place

/-- The loop has still to come to the signal. -/
def ahead (sig : ℕ) : Place → Prop
  | block => True
  | loop k => k ≤ sig
  | call k | handler k _ => k < sig
  | _ => False

/-- In these places `in_signal_handler` is set. -/
def flagged : Place → Bool
  | out | test | flag => false
  | _ => true

end Place

def Note.isRan (sig : ℕ) : Note → Bool
  | ran sig' _ => sig' = sig
  | _ => false

/-- The notes since the loop was begun the last time. -/
def recent (log : List Note) : List Note := log.takeWhile (· ≠ .processing)

theorem recent_cons {n : Note} (log : List Note) (hn : n ≠ .processing) : recent (n :: log) = n :: recent log := by
  rw [recent, List.takeWhile_cons, if_pos (by simpa using hn)]
  rfl

structure Inv (s : State) : Prop where
  flagged : s.in_signal_handler = (s.sync.isSome || s.place.flagged)
  sync : s.sync.isSome = true → s.place.flagged = false
  rtl : ∀ x, s.sync = some x → s.place ≠ .out → x.2 = 0
  in_rtl : s.outside = false → s.in_rtl = 0
  ctx : s.place ≠ .out → s.place ≠ .test → s.signal_ctx.isSome = true
  alive : s.is_alive = false → s.signal_ctx = none
  armed : ∀ sig, s.armed sig = true → sig < kSigCount ∧ (0 < s.count ∧ .armed sig ∈ recent s.log ∨ s.place.ahead sig)
  even : s.is_alive = true → ∀ sig, s.log.count (.armed sig) = s.log.countP (Note.isRan sig) + s.log.count (.dropped sig) +
    (if s.armed sig then 1 else 0) + (if s.place = .call sig then 1 else 0)

section Steps
variable {report_bugs : Bool} {s s' : State} {sig : ℕ}

theorem State.armed_of_ctx {sctx : SignalContext} (hctx : s.signal_ctx = some sctx) (sig : ℕ) :
    s.armed sig = (sctx.pending_signals sig).armed := by
  rw [State.armed, hctx]

theorem State.count_of_ctx {sctx : SignalContext} (hctx : s.signal_ctx = some sctx) :
    s.count = sctx.pending_signal_count := by
  rw [State.count, hctx]

/-- A new context has nothing armed. -/
theorem Inv.sigCtx (h : Inv s) : Inv s.SigCtx := by
  rw [State.SigCtx]
  match hctx : s.signal_ctx with
  | some sctx => exact h
  | none =>
    dsimp only
    split_ifs with hal
    · have hnone : ∀ sig, s.armed sig = false := fun sig => by rw [State.armed, hctx]
      refine ⟨h.flagged,h.sync,h.rtl,h.in_rtl,fun _ _ => rfl,fun hal' => ?_,fun sig hsig => ?_,fun _ sig => ?_⟩
      · cases hal.symm.trans hal'
      · cases hsig
      · have heven := h.even hal sig
        rw [hnone] at heven
        exact heven
    · exact h

theorem State.sigCtx_same (s : State) : s.SigCtx.place = s.place ∧ s.SigCtx.sync = s.sync ∧ s.SigCtx.in_rtl = s.in_rtl ∧
    s.SigCtx.in_signal_handler = s.in_signal_handler ∧ s.SigCtx.log = s.log ∧ s.SigCtx.is_alive = s.is_alive := by
  rw [State.SigCtx]
  match s.signal_ctx with
  | some sctx => exact ⟨rfl,rfl,rfl,rfl,rfl,rfl⟩
  | none =>
    dsimp only
    split_ifs <;> exact ⟨rfl,rfl,rfl,rfl,rfl,rfl⟩

theorem Inv.arrive (h : Inv s) {sigact : Bool} {info ctx : Option ℕ} (hsig : sig < kSigCount)
    (ha : rtl_generic_sighandler s sigact sig info ctx = some s') : Inv s' := by
  rw [rtl_generic_sighandler] at ha
  have hs := h.sigCtx
  generalize s.SigCtx = s₀ at hs ha
  dsimp only at ha
  split_ifs at ha with hsync hcheck
  · cases ha
    obtain ⟨hin,hflag⟩ := hcheck
    have hout := hs.flagged
    rw [hflag, eq_comm, Bool.or_eq_false_iff] at hout
    refine ⟨rfl,fun _ => hout.2,fun x hx hplace => ?_,fun _ => rfl,hs.ctx,hs.alive,fun sig' hsig' => ?_,fun hal sig' => ?_⟩
    · cases hx
      refine hs.in_rtl ?_
      rw [State.outside, hout.1, Bool.false_or]
      match hp : s₀.place with
      | .out => exact absurd hp hplace
      | .handler sig e =>
        rw [hp] at hout
        cases hout.2
      | .test | .flag | .zero | .block | .loop _ | .call _ | .unblock | .unflag => rfl
    · dsimp only
      rw [recent_cons _ (by simp)]
      exact (hs.armed sig' hsig').imp_right fun hor => hor.imp_left fun hc => ⟨hc.1,List.mem_cons_of_mem _ hc.2⟩
    · have heven := hs.even hal sig'
      rw [State.armed] at heven ⊢
      simpa [Note.isRan] using heven
  · match hctx : s₀.signal_ctx with
    | none =>
      rw [hctx] at ha
      cases ha
      exact hs
    | some sctx =>
      rw [hctx] at ha
      dsimp only at ha
      split_ifs at ha with harmed
      · cases ha
        exact hs
      · cases ha
        refine ⟨hs.flagged,hs.sync,hs.rtl,hs.in_rtl,fun _ _ => rfl,fun hal => ?_,fun sig' hsig' => ?_,fun hal sig' => ?_⟩
        · rw [hs.alive hal] at hctx
          cases hctx
        · dsimp only
          rw [recent_cons _ (by simp)]
          rcases eq_or_ne sig' sig with rfl | hne
          · exact ⟨hsig,Or.inl ⟨Nat.succ_pos _,List.mem_cons_self⟩⟩
          · have hold : s₀.armed sig' = true := by
              rw [State.armed_of_ctx hctx]
              simpa [State.armed, Function.update_of_ne hne] using hsig'
            exact (hs.armed sig' hold).imp_right fun hor =>
              hor.imp_left fun hc => ⟨Nat.succ_pos _,List.mem_cons_of_mem _ hc.2⟩
        · have heven := hs.even hal sig'
          rw [State.armed_of_ctx hctx] at heven
          rcases eq_or_ne sig' sig with rfl | hne
          · rw [if_neg harmed] at heven
            simp [State.armed, Note.isRan, heven]
            omega
          · simpa [State.armed, Note.isRan, Function.update_of_ne hne, hne.symm] using heven

theorem Inv.of_none (hsync : s.sync = none) (hflag : s.in_signal_handler = s.place.flagged)
    (hrtl : s.outside = false → s.in_rtl = 0)
    (hctx : s.place ≠ .out → s.place ≠ .test → s.signal_ctx.isSome = true) (halive : s.is_alive = false → s.signal_ctx = none)
    (harmed : ∀ sig, s.armed sig = true → sig < kSigCount ∧ (0 < s.count ∧ .armed sig ∈ recent s.log ∨ s.place.ahead sig))
    (heven : s.is_alive = true → ∀ sig, s.log.count (.armed sig) = s.log.countP (Note.isRan sig) +
      s.log.count (.dropped sig) + (if s.armed sig then 1 else 0) + (if s.place = .call sig then 1 else 0)) : Inv s where
  flagged := by rw [hflag, hsync]; rfl
  sync hs := by rw [hsync] at hs; cases hs
  rtl x hx := by rw [hsync] at hx; cases hx
  in_rtl := hrtl
  ctx := hctx
  alive := halive
  armed := harmed
  even := heven

theorem Inv.in_rtl_of_place (h : Inv s) (hsync : s.sync = none) (hout : s.place ≠ .out)
    (hhandler : ∀ sig e, s.place ≠ .handler sig e) : s.in_rtl = 0 := by
  refine h.in_rtl ?_
  rw [State.outside, hsync]
  match hp : s.place with
  | .out => exact absurd hp hout
  | .handler sig e => exact absurd hp (hhandler sig e)
  | .test | .flag | .zero | .block | .loop _ | .call _ | .unblock | .unflag => rfl

/-- What the next instruction of `process_pending_signals` can be. -/
inductive Processes (s : State) : State → Prop
  | nothing (hp : s.place = .test) (hrtl : s.in_rtl = 0) : Processes s { s.SigCtx with place := .out }
  | something (sctx : SignalContext) (hp : s.place = .test) (hrtl : s.in_rtl = 0)
      (hctx : s.SigCtx.signal_ctx = some sctx) : Processes s { s.SigCtx with place := .flag }
  | flag (hp : s.place = .flag) : Processes s { s with in_signal_handler := true, place := .zero }
  | zero (sctx : SignalContext) (hp : s.place = .zero) (hctx : s.signal_ctx = some sctx) : Processes s { s with
      signal_ctx := some { sctx with pending_signal_count := 0 }, place := .block, log := .processing :: s.log }
  | block (hp : s.place = .block) : Processes s { s with oldset := s.mask, mask := fun _ => true, place := .loop 0 }
  | disarm (sig : ℕ) (sctx : SignalContext) (hp : s.place = .loop sig) (hctx : s.signal_ctx = some sctx)
      (harmed : (sctx.pending_signals sig).armed = true) : Processes s { s with
        signal_ctx := some { sctx with
          pending_signals := Function.update sctx.pending_signals sig { sctx.pending_signals sig with armed := false } }
        place := .call sig }
  | pass (sig : ℕ) (sctx : SignalContext) (hp : s.place = .loop sig) (hctx : s.signal_ctx = some sctx)
      (harmed : ¬ (sctx.pending_signals sig).armed = true) : Processes s { s with place := .loop (sig + 1) }
  | done (sig : ℕ) (hp : s.place = .loop sig) (hge : ¬ sig < kSigCount) : Processes s { s with place := .unblock }
  | run (sig siginfo : ℕ) (hp : s.place = .call sig) : Processes s { s with
      errno := 0, place := .handler sig s.errno, log := .ran sig siginfo :: s.log }
  | drop (sig : ℕ) (hp : s.place = .call sig) : Processes s { s with
      place := .loop (sig + 1), log := .dropped sig :: s.log }
  | unblock (hp : s.place = .unblock) : Processes s { s with mask := s.oldset, place := .unflag }
  | unflag (hp : s.place = .unflag) : Processes s { s with in_signal_handler := false, place := .out }

theorem processes (ha : process_pending_signals s = some s') : Processes s s' := by
  rw [process_pending_signals] at ha
  split at ha
  next hp =>
    split_ifs at ha with hrtl
    dsimp only at ha
    split at ha
    next =>
      cases ha
      exact .nothing hp hrtl
    next sctx hctx =>
      split_ifs at ha
      · cases ha
        exact .nothing hp hrtl
      · cases ha
        exact .something sctx hp hrtl hctx
  next hp =>
    cases ha
    exact .flag hp
  next sctx hp hctx =>
    cases ha
    exact .zero sctx hp hctx
  next hp =>
    cases ha
    exact .block hp
  next sig sctx hp hctx =>
    dsimp only at ha
    split_ifs at ha with hlt harmed
    · cases ha
      exact .disarm sig sctx hp hctx harmed
    · cases ha
      exact .pass sig sctx hp hctx harmed
    · cases ha
      exact .done sig hp hlt
  next sig sctx hp hctx =>
    split_ifs at ha
    · cases ha
      exact .run sig _ hp
    · cases ha
      exact .drop sig hp
  next hp =>
    cases ha
    exact .unblock hp
  next hp =>
    split_ifs at ha
    cases ha
    exact .unflag hp
  next => cases ha

theorem Inv.process (h : Inv s) (hsync : s.sync = none) (hp : Processes s s') : Inv s' := by
  have hrtl := h.in_rtl_of_place hsync
  have hflagged := h.flagged
  have hctx := h.ctx
  have harmed := h.armed
  have heven := h.even
  have halive := h.alive
  rw [hsync, Option.isSome_none, Bool.false_or] at hflagged
  obtain ⟨hplace₀,hsync₀,hin₀,hflag₀,-⟩ := s.sigCtx_same
  have hs₀ := h.sigCtx
  cases hp with
  | nothing hp hin =>
    have harmed₀ := hs₀.armed
    have heven₀ := hs₀.even
    rw [hplace₀, hp] at harmed₀ heven₀
    exact .of_none (hsync₀.trans hsync) (hflag₀.trans (by rw [hflagged, hp]; rfl)) (fun _ => hin₀.trans hin) (by simp)
      hs₀.alive harmed₀ heven₀
  | something sctx hp hin hsctx =>
    have harmed₀ := hs₀.armed
    have heven₀ := hs₀.even
    rw [hplace₀, hp] at harmed₀ heven₀
    exact .of_none (hsync₀.trans hsync) (hflag₀.trans (by rw [hflagged, hp]; rfl)) (fun _ => hin₀.trans hin)
      (fun _ _ => by rw [hsctx]; rfl) hs₀.alive harmed₀ heven₀
  | flag hp =>
    rw [hp] at hrtl hctx harmed heven
    exact .of_none hsync rfl (fun _ => hrtl (by simp) (by simp)) (fun _ _ => hctx (by simp) (by simp)) halive harmed heven
  | zero sctx hp hsctx =>
    rw [hp] at hrtl heven hflagged
    refine .of_none hsync hflagged (fun _ => hrtl (by simp) (by simp)) (fun _ _ => rfl) (fun hal => ?_)
      (fun sig hsig => ⟨(harmed sig ?_).1,Or.inr trivial⟩) fun hal sig => ?_
    · rw [halive hal] at hsctx
      cases hsctx
    · rw [State.armed_of_ctx hsctx]
      exact hsig
    · have hold := heven hal sig
      rw [State.armed_of_ctx hsctx] at hold
      simp only [State.armed, Note.isRan, List.count_cons, List.countP_cons] at hold ⊢
      exact hold
  | block hp =>
    rw [hp] at hrtl hctx heven hflagged
    exact .of_none hsync hflagged (fun _ => hrtl (by simp) (by simp)) (fun _ _ => hctx (by simp) (by simp)) halive
      (fun sig hsig => ⟨(harmed sig hsig).1,Or.inr (Nat.zero_le sig)⟩) heven
  | disarm sig sctx hp hsctx hsig =>
    rw [hp] at hrtl heven hflagged harmed
    refine .of_none hsync hflagged (fun _ => hrtl (by simp) (by simp)) (fun _ _ => rfl) (fun hal => ?_)
      (fun sig' hsig' => ?_) fun hal sig' => ?_
    · rw [halive hal] at hsctx
      cases hsctx
    · rcases eq_or_ne sig' sig with rfl | hne
      · simp [State.armed] at hsig'
      · have hold : s.armed sig' = true := by
          rw [State.armed_of_ctx hsctx]
          simpa [State.armed, Function.update_of_ne hne] using hsig'
        obtain ⟨hlt,hor⟩ := harmed sig' hold
        rw [State.count_of_ctx hsctx] at hor
        exact ⟨hlt,hor.imp_right fun hle => Nat.lt_of_le_of_ne hle hne.symm⟩
    · have hold := heven hal sig'
      rw [State.armed_of_ctx hsctx] at hold
      rcases eq_or_ne sig' sig with rfl | hne
      · simpa [State.armed, hsig] using hold
      · simpa [State.armed, Function.update_of_ne hne, hne.symm] using hold
  | pass sig sctx hp hsctx hsig =>
    rw [hp] at hrtl hctx heven hflagged harmed
    refine .of_none hsync hflagged (fun _ => hrtl (by simp) (by simp)) (fun _ _ => hctx (by simp) (by simp)) halive
      (fun sig' hsig' => ⟨(harmed sig' hsig').1,?_⟩) heven
    refine (harmed sig' hsig').2.imp_right fun hle => Nat.lt_of_le_of_ne hle fun heq => hsig ?_
    rw [heq, ← State.armed_of_ctx hsctx]
    exact hsig'
  | done sig hp hge =>
    rw [hp] at hrtl hctx heven hflagged harmed
    refine .of_none hsync hflagged (fun _ => hrtl (by simp) (by simp)) (fun _ _ => hctx (by simp) (by simp)) halive
      (fun sig' hsig' => ?_) heven
    obtain ⟨hlt,hor⟩ := harmed sig' hsig'
    exact ⟨hlt,hor.imp_right fun hle => absurd (Nat.lt_of_le_of_lt hle hlt) hge⟩
  | run sig siginfo hp =>
    rw [hp] at hrtl hctx heven hflagged harmed
    refine .of_none hsync hflagged (fun _ => hrtl (by simp) (by simp)) (fun _ _ => hctx (by simp) (by simp)) halive
      (fun sig' hsig' => ?_) fun hal sig' => ?_
    · dsimp only
      rw [recent_cons _ (by simp)]
      exact (harmed sig' hsig').imp_right fun hor => hor.imp_left fun hc => ⟨hc.1,List.mem_cons_of_mem _ hc.2⟩
    have hold := heven hal sig'
    rw [State.armed] at hold ⊢
    rcases eq_or_ne sig' sig with rfl | hne
    · simp [Note.isRan] at hold ⊢
      omega
    · simpa [Note.isRan, hne.symm] using hold
  | drop sig hp =>
    rw [hp] at hrtl hctx heven hflagged harmed
    refine .of_none hsync hflagged (fun _ => hrtl (by simp) (by simp)) (fun _ _ => hctx (by simp) (by simp)) halive
      (fun sig' hsig' => ?_) fun hal sig' => ?_
    · dsimp only
      rw [recent_cons _ (by simp)]
      exact (harmed sig' hsig').imp_right fun hor => hor.imp_left fun hc => ⟨hc.1,List.mem_cons_of_mem _ hc.2⟩
    have hold := heven hal sig'
    rw [State.armed] at hold ⊢
    rcases eq_or_ne sig' sig with rfl | hne
    · simp [Note.isRan] at hold ⊢
      omega
    · simpa [Note.isRan, hne.symm] using hold
  | unblock hp =>
    rw [hp] at hrtl hctx heven hflagged harmed
    exact .of_none hsync hflagged (fun _ => hrtl (by simp) (by simp)) (fun _ _ => hctx (by simp) (by simp)) halive harmed
      heven
  | unflag hp =>
    rw [hp] at hrtl heven harmed
    exact .of_none hsync rfl (fun _ => hrtl (by simp) (by simp)) (by simp) halive harmed heven

/-- The handler of a synchronous signal returns to where it was called. -/
theorem Inv.returnSync (h : Inv s) {x : (ℕ → Bool) × ℕ} (hsync : s.sync = some x) :
    Inv { s with mask := x.1, in_rtl := x.2, in_signal_handler := false, sync := none } := by
  have hflag := h.sync (by rw [hsync]; rfl)
  refine .of_none rfl hflag.symm (fun hout => ?_) h.ctx h.alive h.armed h.even
  refine h.rtl x hsync fun hp => ?_
  rw [State.outside, hp] at hout
  cases hout

theorem Inv.returnDeferred (h : Inv s) (hsync : s.sync = none) {saved_errno : ℕ} (hp : s.place = .handler sig saved_errno)
    (hin : s.in_rtl = 0) : Inv { s with
      errno := saved_errno, place := .loop (sig + 1)
      log := if report_bugs && s.errno != 0 then .spoiled sig :: s.log else s.log } := by
  have hflagged := h.flagged
  have hctx := h.ctx
  have harmed := h.armed
  have heven := h.even
  rw [hsync, Option.isSome_none, Bool.false_or] at hflagged
  rw [hp] at hflagged hctx harmed heven
  split_ifs
  · refine .of_none hsync hflagged (fun _ => hin) (fun _ _ => hctx (by simp) (by simp)) h.alive (fun sig' hsig' => ?_)
      fun hal sig' => ?_
    · dsimp only
      rw [recent_cons _ (by simp)]
      exact (harmed sig' hsig').imp_right fun hor => hor.imp_left fun hc => ⟨hc.1,List.mem_cons_of_mem _ hc.2⟩
    · have hold := heven hal sig'
      rw [State.armed] at hold ⊢
      simpa [Note.isRan] using hold
  · exact .of_none hsync hflagged (fun _ => hin) (fun _ _ => hctx (by simp) (by simp)) h.alive harmed heven

theorem Inv.ret (h : Inv s) (hen : enabled s .ret = true) (ha : handlerReturns report_bugs s = some s') : Inv s' := by
  rw [handlerReturns] at ha
  split at ha
  next mask in_rtl hsync =>
    split_ifs at ha
    cases ha
    exact h.returnSync hsync
  next sig saved_errno hsync hp =>
    cases ha
    rw [enabled, hsync, hp] at hen
    exact h.returnDeferred hsync hp (by simpa using hen)
  next => cases ha

theorem Inv.exit (h : Inv s) (hen : enabled s .exit = true) (ha : exec report_bugs s .exit = some s') : Inv s' := by
  rw [enabled, Bool.and_eq_true] at hen
  have hstay : ∀ n : ℕ, ∀ s₀ : State, Inv s₀ → s₀.outside = true → Inv { s₀ with in_rtl := n } := by
    intro n s₀ hs₀ hout
    refine ⟨hs₀.flagged,hs₀.sync,hs₀.rtl,fun hno => ?_,hs₀.ctx,hs₀.alive,hs₀.armed,hs₀.even⟩
    cases hout.symm.trans hno
  rw [exec] at ha
  split_ifs at ha with hone hflag
  · cases ha
    refine hstay 0 _ h.sigCtx ?_
    rw [State.outside, s.sigCtx_same.1, s.sigCtx_same.2.1]
    exact hen.1
  · cases ha
    have hflagged := h.flagged
    rw [Bool.eq_false_iff.mpr hflag, eq_comm, Bool.or_eq_false_iff, Option.isSome_eq_false_iff, Option.isNone_iff_eq_none]
      at hflagged
    obtain ⟨hsync,hplace⟩ := hflagged
    have hp : s.place = .out := by
      have hout := hen.1
      rw [State.outside, hsync] at hout
      match hp : s.place with
      | .out => rfl
      | .handler sig e =>
        rw [hp] at hplace
        cases hplace
      | .test | .flag | .zero | .block | .loop _ | .call _ | .unblock | .unflag =>
        rw [hp] at hout
        cases hout
    have harmed := h.armed
    have heven := h.even
    rw [hp] at harmed heven
    exact .of_none hsync (Bool.eq_false_iff.mpr hflag) (fun _ => rfl) (by simp) h.alive harmed heven
  · cases ha
    exact hstay _ s h hen.1

theorem Inv.step (h : Inv s) {a : Step} (hen : enabled s a = true) (ha : exec report_bugs s a = some s') : Inv s' := by
  cases a with
  | arrive sig sigact info ctx =>
    rw [enabled, Bool.and_eq_true] at hen
    exact h.arrive (of_decide_eq_true hen.1) ha
  | next =>
    rw [enabled, Bool.and_eq_true, Option.isNone_iff_eq_none] at hen
    exact h.process hen.1 (processes ha)
  | enter =>
    cases ha
    refine ⟨h.flagged,h.sync,h.rtl,fun hno => ?_,h.ctx,h.alive,h.armed,h.even⟩
    cases (show s.outside = true from hen).symm.trans hno
  | exit => exact h.exit hen ha
  | ret => exact h.ret hen ha
  | send sig =>
    have hs := h.sigCtx
    rw [exec] at ha
    generalize s.SigCtx = s₀ at hs ha
    split at ha
    next sctx hctx =>
      cases ha
      refine ⟨hs.flagged,hs.sync,hs.rtl,hs.in_rtl,fun _ _ => rfl,fun hal => ?_,fun sig' hsig' => ?_,fun hal sig' => ?_⟩
      · rw [hs.alive hal] at hctx
        cases hctx
      · have hold := hs.armed sig'
        rw [State.armed_of_ctx hctx, State.count_of_ctx hctx] at hold
        exact hold hsig'
      · have hold := hs.even hal sig'
        rw [State.armed_of_ctx hctx] at hold
        exact hold
    next => cases ha
  | sigaction sig handler =>
    cases ha
    exact ⟨h.flagged,h.sync,h.rtl,h.in_rtl,h.ctx,h.alive,h.armed,h.even⟩
  | sigmask mask =>
    cases ha
    exact ⟨h.flagged,h.sync,h.rtl,h.in_rtl,h.ctx,h.alive,h.armed,h.even⟩
  | setErrno v =>
    cases ha
    exact ⟨h.flagged,h.sync,h.rtl,h.in_rtl,h.ctx,h.alive,h.armed,h.even⟩
  | finalize =>
    cases ha
    rw [enabled, Bool.and_eq_true, Bool.and_eq_true, Option.isNone_iff_eq_none] at hen
    obtain ⟨⟨hsync,hp⟩,-⟩ := hen
    have hp := of_decide_eq_true hp
    have hflagged := h.flagged
    rw [hsync, Option.isSome_none, Bool.false_or] at hflagged
    refine .of_none hsync hflagged h.in_rtl (fun hout => absurd hp hout) (fun _ => rfl) (fun sig hsig => ?_) fun hal => ?_
    · cases hsig
    · cases hal

end Steps

section Runs
variable {report_bugs : Bool} {s : State}

theorem Reachable.inv (h : Reachable report_bugs s) : Inv s := by
  induction h with
  | start mask sigactions =>
    exact .of_none rfl rfl (fun _ => rfl) (by simp [Signals.start]) (by simp [Signals.start]) (by simp [Signals.start, State.armed])
      (by simp [Signals.start, State.armed])
  | step _ hen ha ih => exact ih.step hen ha

theorem arrive_eq_none {sigact : Bool} {sig : ℕ} {info ctx : Option ℕ} : rtl_generic_sighandler s sigact sig info ctx = none ↔
    s.SigCtx.isSynchronous sig = true ∧ (1 < s.in_rtl ∨ s.in_signal_handler = true) := by
  obtain ⟨-,-,hin,hflag,-⟩ := s.sigCtx_same
  rw [rtl_generic_sighandler, ← hin, ← hflag]
  generalize s.SigCtx = s₀
  dsimp only
  split_ifs with hsync hcheck
  · simp only [reduceCtorEq, false_iff, not_and, not_or, hsync, true_implies, hcheck.2]
    exact ⟨by omega,by simp⟩
  · simp only [true_iff, hsync, true_and]
    by_cases hin : 1 < s₀.in_rtl
    · exact Or.inl hin
    · refine Or.inr (Bool.eq_false_or_eq_true _ |>.resolve_right fun hf => hcheck ⟨by omega,hf⟩)
  · split
    · simp [hsync]
    · split_ifs <;> simp [hsync]

theorem Inv.process_ne_none (h : Inv s) (hen : enabled s .next = true) : process_pending_signals s ≠ none := by
  rw [enabled, Bool.and_eq_true, Option.isNone_iff_eq_none] at hen
  obtain ⟨hsync,hplace⟩ := hen
  have hflagged := h.flagged
  have hctx := h.ctx
  have hrtl := h.in_rtl_of_place hsync
  rw [hsync, Option.isSome_none, Bool.false_or] at hflagged
  rw [process_pending_signals]
  match hp : s.place with
  | .out | .handler sig e =>
    rw [hp] at hplace
    cases hplace
  | .test =>
    rw [hp] at hrtl
    dsimp only
    rw [if_pos (hrtl (by simp) (by simp))]
    split
    · simp
    · split_ifs <;> simp
  | .flag | .block | .unblock => simp
  | .zero =>
    rw [hp] at hctx
    obtain ⟨sctx,hsctx⟩ := Option.isSome_iff_exists.mp (hctx (by simp) (by simp))
    simp [hsctx]
  | .loop sig =>
    rw [hp] at hctx
    obtain ⟨sctx,hsctx⟩ := Option.isSome_iff_exists.mp (hctx (by simp) (by simp))
    rw [hsctx]
    dsimp only
    split_ifs <;> simp
  | .call sig =>
    rw [hp] at hctx
    obtain ⟨sctx,hsctx⟩ := Option.isSome_iff_exists.mp (hctx (by simp) (by simp))
    rw [hsctx]
    dsimp only
    split_ifs <;> simp
  | .unflag =>
    rw [hp] at hflagged
    simp [hflagged, Place.flagged]

theorem Inv.ret_ne_none (h : Inv s) (hen : enabled s .ret = true) : handlerReturns report_bugs s ≠ none := by
  rw [handlerReturns]
  match hsync : s.sync with
  | some (mask,in_rtl) =>
    have hflagged := h.flagged
    rw [hsync, Option.isSome_some, Bool.true_or] at hflagged
    simp [hflagged]
  | none =>
    rw [enabled, hsync, Option.isSome_none, Bool.false_or] at hen
    split at hen
    next hp => simp [hp]
    next => cases hen

/-- A handler of the user runs. -/
def State.inHandler (s : State) : Bool := s.sync.isSome || match s.place with
  | .handler .. => true
  | _ => false

/-- The step calls a handler of the user. -/
def Calls (s s' : State) : Prop := ∃ sig info, s'.log = .ran sig info :: s.log ∨ s'.log = .ranAtOnce sig info :: s.log

theorem not_calls_of_log {s' : State} (hlog : s'.log = s.log ∨ ∃ n, s'.log = n :: s.log ∧
    ∀ sig info, n ≠ .ran sig info ∧ n ≠ .ranAtOnce sig info) : ¬ Calls s s' := by
  rintro ⟨sig,info,hcall⟩
  rcases hlog with hlog | ⟨n,hlog,hn⟩
  · rw [hlog] at hcall
    simp at hcall
  · rw [hlog] at hcall
    simp [hn sig info] at hcall

/-- An arriving signal is handled at once where no handler runs. -/
theorem calls_arrive (hinv : Inv s) {sig : ℕ} {sigact : Bool} {info ctx : Option ℕ} {s' : State}
    (ha : exec report_bugs s (.arrive sig sigact info ctx) = some s') (hcall : Calls s s') :
    s.inHandler = false ∧ s'.inHandler = true ∧ s'.in_rtl = 0 ∧ s'.in_signal_handler = true := by
  obtain ⟨hplace,hsync,-,hflag,hlog,-⟩ := s.sigCtx_same
  have hflagged := hinv.flagged
  rw [exec, rtl_generic_sighandler] at ha
  rw [State.inHandler, ← hplace, ← hsync]
  rw [← hplace, ← hsync, ← hflag] at hflagged
  rw [Calls, ← hlog] at hcall
  generalize s.SigCtx = s₀ at hflagged hcall ha
  dsimp only at ha
  split_ifs at ha with hsync hcheck
  · cases ha
    rw [hcheck.2, eq_comm, Bool.or_eq_false_iff] at hflagged
    refine ⟨?_,rfl,rfl,rfl⟩
    rw [hflagged.1, Bool.false_or]
    split
    next hp =>
      rw [hp] at hflagged
      cases hflagged.2
    next => rfl
  · split at ha
    next =>
      cases ha
      exact absurd hcall (not_calls_of_log (Or.inl rfl))
    next =>
      split_ifs at ha
      · cases ha
        exact absurd hcall (not_calls_of_log (Or.inl rfl))
      · cases ha
        exact absurd hcall (not_calls_of_log (Or.inr ⟨_,rfl,by simp⟩))

/-- A deferred signal is handled outside of the library, where no handler runs. -/
theorem calls_next (hinv : Inv s) {s' : State} (hen : enabled s .next = true) (ha : exec report_bugs s .next = some s')
    (hcall : Calls s s') : s.inHandler = false ∧ s'.inHandler = true ∧ s'.in_rtl = 0 ∧ s'.in_signal_handler = true ∧
      s.in_rtl = 0 := by
  rw [enabled, Bool.and_eq_true, Option.isNone_iff_eq_none] at hen
  obtain ⟨-,-,-,-,hlog,-⟩ := s.sigCtx_same
  cases processes ha with
  | run sig siginfo hp =>
    have hin := hinv.in_rtl_of_place hen.1 (by rw [hp]; simp) (by rw [hp]; simp)
    have hflagged := hinv.flagged
    rw [hen.1, hp] at hflagged
    exact ⟨by rw [State.inHandler, hen.1, hp]; rfl,by simp [State.inHandler],hin,hflagged,hin⟩
  | zero | drop => exact absurd hcall (not_calls_of_log (Or.inr ⟨_,rfl,by simp⟩))
  | nothing | something => exact absurd hcall (not_calls_of_log (Or.inl hlog))
  | _ => exact absurd hcall (not_calls_of_log (Or.inl rfl))

theorem not_calls_ret {s' : State} (ha : handlerReturns report_bugs s = some s') : ¬ Calls s s' := by
  rw [handlerReturns] at ha
  split at ha
  next =>
    split_ifs at ha
    cases ha
    exact not_calls_of_log (Or.inl rfl)
  next =>
    cases ha
    refine not_calls_of_log ?_
    dsimp only
    split_ifs
    · exact Or.inr ⟨_,rfl,by simp⟩
    · exact Or.inl rfl
  next => cases ha

theorem not_calls_exit {s' : State} (ha : exec report_bugs s .exit = some s') : ¬ Calls s s' := by
  rw [exec] at ha
  split_ifs at ha
  · cases ha
    exact not_calls_of_log (Or.inl s.sigCtx_same.2.2.2.2.1)
  · cases ha
    exact not_calls_of_log (Or.inl rfl)
  · cases ha
    exact not_calls_of_log (Or.inl rfl)

theorem not_calls_send {sig : ℕ} {s' : State} (ha : exec report_bugs s (.send sig) = some s') : ¬ Calls s s' := by
  obtain ⟨-,-,-,-,hlog,-⟩ := s.sigCtx_same
  rw [exec] at ha
  rw [Calls, ← hlog]
  generalize s.SigCtx = s₀ at ha
  split at ha
  next =>
    cases ha
    exact not_calls_of_log (Or.inl rfl)
  next => cases ha

/-- A handler of the user is only called when none runs, and the code of the user that it is runs outside of the
run-time library. One that was deferred is called outside of all interceptors. -/
theorem handlers_alone (h : Reachable report_bugs s) {a : Step} {s' : State} (hen : enabled s a = true)
    (ha : exec report_bugs s a = some s') (hcall : Calls s s') : s.inHandler = false ∧ s'.inHandler = true ∧
      s'.in_rtl = 0 ∧ s'.in_signal_handler = true ∧ (a = .next → s.in_rtl = 0) := by
  cases a with
  | arrive sig sigact info ctx =>
    obtain ⟨hnone,hruns,hin,hflag⟩ := calls_arrive h.inv ha hcall
    exact ⟨hnone,hruns,hin,hflag,by simp⟩
  | next =>
    obtain ⟨hnone,hruns,hin,hflag,hout⟩ := calls_next h.inv hen ha hcall
    exact ⟨hnone,hruns,hin,hflag,fun _ => hout⟩
  | ret => exact absurd hcall (not_calls_ret ha)
  | exit => exact absurd hcall (not_calls_exit ha)
  | send sig => exact absurd hcall (not_calls_send ha)
  | enter | sigaction sig handler | sigmask mask | setErrno v | finalize =>
    cases ha
    exact absurd hcall (not_calls_of_log (Or.inl rfl))

/-! ### A run -/

/-- A signal arrives twice in an interceptor, and another one after the count was reset. -/
def twoSignals : List Step :=
  [.sigaction 1 5,.sigaction 2 6,.enter,.arrive 1 true (some 7) (some 0),.arrive 1 true (some 8) (some 0),.exit,.next,.next,
    .next,.arrive 2 true (some 9) (some 0),.next,.next,.next]

/-- The steps of a run, each of which can be taken. -/
def runSteps (report_bugs : Bool) (s : State) (as : List Step) : Option State :=
  Transition.run (fun s a => if enabled s a then exec report_bugs s a else none) s as

theorem Reachable.run {s' : State} (h : Reachable report_bugs s) {as : List Step}
    (hr : runSteps report_bugs s as = some s') : Reachable report_bugs s' := by
  refine Transition.run_inv (fun s a s' hs ha => ?_) h hr
  split_ifs at ha with hen
  exact hs.step hen ha

/-- The handler of the first signal is about to be called, and the second signal waits. -/
def atCall : Option State := runSteps true (start (fun _ => false) fun _ => 0) twoSignals

theorem atCall_eq : atCall.map (fun s => (s.is_alive,enabled s .next,s.place,s.armed 2,s.log)) =
    some (true,true,.call 1,true,[.armed 2,.processing,.armed 1]) := by decide +kernel

theorem atCall_reachable (h : atCall = some s) : Reachable true s := (Reachable.start _ _).run h

theorem handlers_alone_two : ∃ s s', atCall = some s ∧ exec true s .next = some s' ∧ s.inHandler = false ∧
    s'.inHandler = true ∧ s'.in_rtl = 0 ∧ s'.in_signal_handler = true ∧ (Step.next = .next → s.in_rtl = 0) := by
  have hnext : (atCall.bind fun s => (exec true s .next).map fun s' => (s.log,s'.log)) =
      some ([.armed 2,.processing,.armed 1],[.ran 1 7,.armed 2,.processing,.armed 1]) := by decide +kernel
  obtain ⟨s,hs,hnext⟩ := Option.bind_eq_some_iff.mp hnext
  obtain ⟨s',hs',hlogs⟩ := Option.map_eq_some_iff.mp hnext
  simp only [Prod.mk.injEq] at hlogs
  obtain ⟨s₁,hs₁,hval⟩ := Option.map_eq_some_iff.mp atCall_eq
  simp only [Prod.mk.injEq] at hval
  cases hs.symm.trans hs₁
  exact ⟨s,s',hs,hs',handlers_alone (atCall_reachable hs) hval.2.1 hs' ⟨1,7,Or.inl (by rw [hlogs.1, hlogs.2])⟩⟩

end Runs
end CompilerRt.Tsan.Signals
