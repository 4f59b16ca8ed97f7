import CompilerRt.Tsan.Times

/-! # Thread ids that are used again

Clocks keep what they know of a thread id when its thread is gone. The next thread with that id starts above
all of it, so that no clock is ever ahead of the latest thread with the id.
-/
namespace CompilerRt.Tsan
open FastState VectorClock

/-- The epoch of the latest incarnation of a thread id, which is its last one when it does not run. -/
def State.latestEpoch (s : State) (u : ℕ) : ℕ := (globalEpoch s u).getD 0

/-- No clock is ahead of the latest incarnation of any thread id. -/
structure State.ClocksSound (s : State) : Prop where
  thread : ∀ t thr, s.thr t = some thr → ∀ u, thr.clock.get u ≤ s.latestEpoch u
  clock : ∀ a u, (s.synctab a).clock.get u ≤ s.latestEpoch u
  read_clock : ∀ a u, (s.synctab a).read_clock.get u ≤ s.latestEpoch u
  sync : ∀ t tctx, s.threads t = some tctx → ∀ u, tctx.sync.get u ≤ s.latestEpoch u

/-- A state, and for each thread id the first and last epochs of its incarnations that have finished. -/
structure History where
  state : State
  ended : ℕ → List (ℕ × ℕ)

namespace History
variable (cfg : Config)

def init (s : State) : History := ⟨s,fun _ => []⟩

def step (H : History) (op : ℕ × Op) : Option History := do
  let s ← op.2.step cfg H.state op.1
  match op.2, s.threads op.1 with
  | .ThreadFinish, some tctx =>
    return ⟨s,Function.update H.ended op.1 (H.ended op.1 ++ [(tctx.epoch0,tctx.epoch1)])⟩
  | _, _ => return ⟨s,H.ended⟩

def run (H : History) (ops : List (ℕ × Op)) : Option History := ops.foldlM (step cfg) H

/-- The epochs of the incarnation that is running. -/
def running (s : State) (u : ℕ) : List (ℕ × ℕ) := match s.threads u with
  | some ⟨_, _, some thr, _, _, _, _, epoch0, _, _⟩ => [(epoch0,epoch thr.fast_state)]
  | _ => []

def incarnations (H : History) (u : ℕ) : List (ℕ × ℕ) := H.ended u ++ running H.state u

end History

/-! ## A thread's entry for itself -/

section Own
variable {cfg : Config} {s s' : State} {c : Clocks ℕ Obj} {t n : ℕ} {a : Act}

theorem setClock_own_le {thr : ThreadState} (htid : thr.tid = t) (h : epoch thr.fast_state ≤ n) :
    thr.setClock.clock.clk_ t ≤ n := by
  rw [ThreadState.setClock, ThreadClock.clk_set, htid, Function.update_self]
  exact h

theorem acquire_own_le {thr : ThreadState} {k : SyncClock} (h : thr.clock.clk_ t ≤ n) (hk : k.get t ≤ n) :
    (thr.acquire k).clock.clk_ t ≤ n := by
  rw [ThreadState.acquire, ThreadClock.clk_acquire, Pi.sup_apply]
  exact sup_le h hk

theorem clock_of_increment {thr thr' : ThreadState} (hi : thr.incrementEpoch = some thr') :
    thr'.clock = thr.clock ∧ thr'.tid = thr.tid := by
  obtain ⟨x,-,rfl⟩ := incrementEpoch_eq_some hi
  exact ⟨rfl,rfl⟩

/-- After a quiet part the entry is the old one, the thread's epoch, or an entry of a sync clock. -/
theorem quiet_own_le (h : Times s c) (hq : a.quiet = true) (he : a.exec cfg s t = some s') {thr' : ThreadState}
    (hthr' : s'.thr t = some thr') (hown : ∀ thr, s.thr t = some thr → thr.clock.clk_ t ≤ n)
    (hep : epoch thr'.fast_state ≤ n) (hobj : ∀ o, c.obj o t ≤ n) : thr'.clock.clk_ t ≤ n := by
  have hclock : ∀ b, (s.synctab b).clock.get t ≤ n := fun b => by
    rw [h.clock]
    exact hobj _
  have hread : ∀ b, (s.synctab b).read_clock.get t ≤ n := fun b => by
    rw [h.read_clock]
    exact hobj _
  cases a with
  | access addr k w =>
    simp only [Act.exec, Option.pure_def, Option.bind_eq_bind, Option.bind_eq_some_iff] at he
    obtain ⟨⟨s₁,race⟩,he,h₁⟩ := he
    cases h₁
    obtain ⟨thr,hthr,⟨-,rfl,-⟩ | ⟨thr₁,cur,cur',hi,-,-,rfl,-⟩⟩ := MemoryAccess_eq_some he
    · exact hown thr' hthr'
    · rw [State.thr_setRow, State.thr_setThr_self _ hthr] at hthr'
      cases hthr'
      rw [(clock_of_increment hi).1]
      exact hown thr hthr
  | lock b =>
    obtain ⟨thr,x,v,hthr,hi,hv,rfl⟩ := lockSyncVar_eq_some he
    obtain ⟨hc,ht⟩ := clock_of_increment hi
    obtain ⟨hvc,hvr,-⟩ := lockOwner_eq_some hv
    rw [State.thr_setSync, State.thr_setThr_self _ hthr] at hthr'
    split_ifs at hthr' with h0
    · cases hthr'
      refine acquire_own_le (acquire_own_le (setClock_own_le (ht.trans (h.thr_tid t thr hthr)) hep) ?_) ?_
      · rw [hvc]
        exact hclock b
      · rw [hvr]
        exact hread b
    · cases hthr'
      rw [hc]
      exact hown thr hthr
  | unlock b =>
    obtain ⟨thr,x,hthr,hi,hcase⟩ := unlockSyncVar_eq_some he
    obtain ⟨hc,ht⟩ := clock_of_increment hi
    rcases hcase with ⟨-,-,rfl⟩ | ⟨-,v,rfl,-⟩
    · rw [State.thr_setSync, State.thr_setThr_self _ hthr] at hthr'
      cases hthr'
      exact setClock_own_le (ht.trans (h.thr_tid t thr hthr)) hep
    · rw [State.thr_setSync, State.thr_setThr_self _ hthr] at hthr'
      cases hthr'
      rw [hc]
      exact hown thr hthr
  | readLock b =>
    obtain ⟨thr,x,hthr,hi,rfl⟩ := readLockSyncVar_eq_some he
    obtain ⟨-,ht⟩ := clock_of_increment hi
    rw [State.thr_setSync, State.thr_setThr_self _ hthr] at hthr'
    cases hthr'
    exact acquire_own_le (setClock_own_le (ht.trans (h.thr_tid t thr hthr)) hep) (hclock b)
  | readUnlock b =>
    obtain ⟨thr,x,hthr,hi,rfl⟩ := readUnlockSyncVar_eq_some he
    obtain ⟨-,ht⟩ := clock_of_increment hi
    rw [State.thr_setSync, State.thr_setThr_self _ hthr] at hthr'
    cases hthr'
    exact setClock_own_le (ht.trans (h.thr_tid t thr hthr)) hep
  | readOrWriteUnlock b =>
    obtain ⟨thr₀,hthr₀,⟨-,he'⟩ | ⟨-,-,he'⟩ | ⟨-,-,v,rfl,-⟩⟩ := readOrWriteUnlockSyncVar_eq_some he
    · obtain ⟨thr,x,hthr,hi,rfl⟩ := readUnlockSyncVar_eq_some he'
      obtain ⟨-,ht⟩ := clock_of_increment hi
      rw [State.thr_setSync, State.thr_setThr_self _ hthr] at hthr'
      cases hthr'
      exact setClock_own_le (ht.trans (h.thr_tid t thr hthr)) hep
    · obtain ⟨thr,x,hthr,hi,hcase⟩ := unlockSyncVar_eq_some he'
      obtain ⟨hc,ht⟩ := clock_of_increment hi
      rcases hcase with ⟨-,-,rfl⟩ | ⟨-,v,rfl,-⟩
      · rw [State.thr_setSync, State.thr_setThr_self _ hthr] at hthr'
        cases hthr'
        exact setClock_own_le (ht.trans (h.thr_tid t thr hthr)) hep
      · rw [State.thr_setSync, State.thr_setThr_self _ hthr] at hthr'
        cases hthr'
        rw [hc]
        exact hown thr hthr
    · exact hown thr' hthr'
  | acquire b =>
    obtain ⟨thr,hthr,rfl⟩ := Acquire_eq_some he
    rw [State.thr_setThr_self _ hthr] at hthr'
    cases hthr'
    exact acquire_own_le (setClock_own_le (h.thr_tid t thr hthr) hep) (hclock b)
  | acquireGlobal =>
    obtain ⟨thr,x,hthr,-,hfast,hclk,-,rfl⟩ := AcquireGlobal_eq_some he
    rw [State.thr_setThr_self _ hthr] at hthr'
    cases hthr'
    rw [hclk]
    split_ifs
    · cases hg : globalEpoch s t with
      | none => exact hown thr hthr
      | some e =>
        rw [hfast, (h.time t thr hthr).isWord.epoch] at hep
        rw [Option.getD_some, h.globalEpoch_eq hg]
        exact hep
    · exact hown thr hthr
  | release b =>
    obtain ⟨thr,hthr,rfl⟩ := Release_eq_some he
    rw [State.thr_setSync, State.thr_setThr_self _ hthr] at hthr'
    cases hthr'
    exact setClock_own_le (h.thr_tid t thr hthr) hep
  | releaseStore b =>
    obtain ⟨thr,hthr,rfl⟩ := ReleaseStore_eq_some he
    rw [State.thr_setSync, State.thr_setThr_self _ hthr] at hthr'
    cases hthr'
    exact setClock_own_le (h.thr_tid t thr hthr) hep
  | create _ | start _ | finish | join _ | detach _ => cases hq

/-- A thread other than that of the step keeps its state; that of a thread that just started is made of its epoch
and what its creator knew. -/
theorem Times.thr_origin (h : Times s c) (he : a.exec cfg s t = some s') (hq : a.quiet ≠ true) {v : ℕ}
    {thr' : ThreadState} (hv : s'.thr v = some thr') :
    (∃ thr, s.thr v = some thr ∧ (thr'.clock = thr.clock ∨ v = t ∧ epoch thr'.fast_state = thr'.clock.clk_ v ∨
        v = t ∧ ∃ o, thr'.clock.clk_ v = max (thr.clock.clk_ v) (c.obj o v))) ∨
      (∃ l, a = .start l) ∧ v = t ∧ thr'.clock.clk_ v = max (c.thread v v + 1) (c.obj (.sync v) v) := by
  have hself : ∀ {w : ℕ} {tctx : ThreadContext}, s'.core w = some tctx → tctx.thr = none → v ≠ w := by
    rintro w tctx hcore hnone rfl
    rw [State.thr_eq_core, hcore, Option.bind_some, hnone] at hv
    cases hv
  have hkept : s'.core v = s.core v → ∃ thr, s.thr v = some thr ∧ thr'.clock = thr.clock := by
    intro hcore
    rw [State.thr_eq_core, hcore, ← State.thr_eq_core] at hv
    exact ⟨thr',hv,rfl⟩
  cases a with
  | create d =>
    simp only [Act.exec, Option.pure_def, Option.bind_eq_bind, Option.bind_eq_some_iff] at he
    obtain ⟨⟨s₂,tid⟩,he,h₂⟩ := he
    cases h₂
    obtain ⟨s₁,tctx,thr,x,-,-,-,-,hthr,hi,hcore,hother,-⟩ := pthread_create_eq_some he
    have hne := hself hcore rfl
    rw [State.thr_eq_core, hother v hne, ← State.thr_eq_core] at hv
    rcases eq_or_ne v t with rfl | hvt
    · rw [State.thr_setThr_self _ hthr] at hv
      cases hv
      refine Or.inl ⟨thr,hthr,Or.inr (Or.inl ⟨rfl,?_⟩)⟩
      rw [ThreadState.setSynchEpoch, ThreadState.setClock, ThreadClock.clk_set, (clock_of_increment hi).2,
        h.thr_tid v thr hthr, Function.update_self]
    · rw [State.thr_setThr_of_ne _ _ hvt] at hv
      exact Or.inl ⟨thr',hv,Or.inl rfl⟩
  | start l =>
    obtain ⟨tctx,x,hcore,hst,-,hnew,hother,-⟩ := ThreadStart_eq_some he
    rcases eq_or_ne v t with rfl | hvt
    · rw [State.thr_eq_core, hnew] at hv
      cases hv
      have hsync : tctx.sync.get = c.obj (.sync v) := by rw [← h.sync v, State.syncOf_eq_core, hcore]
      have hlast := (h.lives v tctx hcore).stopped (h.thr_eq_none hcore (by rw [hst]; decide))
      refine Or.inr ⟨⟨l,rfl⟩,rfl,?_⟩
      rw [ThreadClock.clk_acquire, ThreadClock.clk_set, Pi.sup_apply, Function.update_self, hsync, hlast]
    · obtain ⟨thr,hthr,hclock⟩ := hkept (hother v hvt)
      exact Or.inl ⟨thr,hthr,Or.inl hclock⟩
  | finish =>
    obtain ⟨thr,tctx,-,hcore,-,himp,-⟩ := ThreadFinish_eq_some he
    obtain ⟨hother,hcase⟩ := himp (h.context_tid t tctx hcore).1
    have hvt : v ≠ t := by
      rcases hcase with ⟨-,hnew⟩ | ⟨-,x,-,hnew⟩
      · exact hself hnew rfl
      · exact hself hnew rfl
    obtain ⟨thr,hthr,hclock⟩ := hkept (hother v hvt)
    exact Or.inl ⟨thr,hthr,Or.inl hclock⟩
  | join w =>
    obtain ⟨thr,tctx,hthr,-,hcore,⟨hst,-⟩ | ⟨hst,-,himp⟩⟩ := ThreadJoin_eq_some he
    · exact absurd hst (h.lives w tctx hcore).valid
    · have hnone : tctx.thr = none := h.thr_eq_none hcore (by rw [hst]; decide)
      obtain ⟨hnew,hother,-⟩ := himp (h.context_tid w tctx hcore).1
      have hne := hself hnew hnone
      rw [State.thr_eq_core, hother v hne, ← State.thr_eq_core] at hv
      rcases eq_or_ne v t with rfl | hvt
      · rw [State.thr_setThr_self _ hthr] at hv
        cases hv
        have hsync : tctx.sync.get = c.obj (.sync w) := by rw [← h.sync w, State.syncOf_eq_core, hcore]
        refine Or.inl ⟨thr,hthr,Or.inr (Or.inr ⟨rfl,.sync w,?_⟩)⟩
        rw [ThreadState.acquire, ThreadClock.clk_acquire, Pi.sup_apply, hsync]
      · rw [State.thr_setThr_of_ne _ _ hvt] at hv
        exact Or.inl ⟨thr',hv,Or.inl rfl⟩
  | detach w =>
    obtain ⟨thr,tctx,-,-,hcore,⟨hst,-⟩ | ⟨hst,himp⟩ | ⟨-,hnew,hother,-⟩⟩ := ThreadDetach_eq_some he
    · exact absurd hst (h.lives w tctx hcore).valid
    · have hnone : tctx.thr = none := h.thr_eq_none hcore (by rw [hst]; decide)
      obtain ⟨hnew,hother,-⟩ := himp (h.context_tid w tctx hcore).1
      have hne := hself hnew hnone
      obtain ⟨thr,hthr,hclock⟩ := hkept (hother v hne)
      exact Or.inl ⟨thr,hthr,Or.inl hclock⟩
    · rcases eq_or_ne v w with rfl | hne
      · refine Or.inl ⟨thr',?_,Or.inl rfl⟩
        rw [State.thr_eq_core, hnew] at hv
        rw [State.thr_eq_core, hcore]
        exact hv
      · obtain ⟨thr,hthr,hclock⟩ := hkept (hother v hne)
        exact Or.inl ⟨thr,hthr,Or.inl hclock⟩
  | _ => exact absurd rfl hq

/-- A running thread keeps its first epoch, which is above all epochs of earlier threads with its id. -/
theorem Times.epoch0_cases (h : Times s c) (he : a.exec cfg s t = some s') {v : ℕ} {tctx' : ThreadContext}
    (hv : s'.core v = some tctx') (hst' : tctx'.status = .Running) :
    (∃ tctx, s.core v = some tctx ∧ tctx.status = .Running ∧ tctx'.epoch0 = tctx.epoch0) ∨
      (∃ l, a = .start l) ∧ v = t ∧ tctx'.epoch0 = c.thread v v + 1 := by
  have hkept : s'.core v = s.core v → ∃ tctx, s.core v = some tctx ∧ tctx.status = .Running ∧
      tctx'.epoch0 = tctx.epoch0 := fun hcore => ⟨tctx',hcore ▸ hv,hst',rfl⟩
  have hupdate : ∀ {w : ℕ} {thr : ThreadState}, s'.core v = (s.setThr w thr).core v → ∃ tctx, s.core v = some tctx ∧
      tctx.status = .Running ∧ tctx'.epoch0 = tctx.epoch0 := by
    intro w thr hcore
    rcases eq_or_ne v w with rfl | hne
    · rw [hcore, State.core_setThr_self, Option.map_eq_some_iff] at hv
      obtain ⟨tctx,htctx,rfl⟩ := hv
      exact ⟨tctx,htctx,hst',rfl⟩
    · exact hkept (hcore.trans (State.core_setThr_of_ne _ _ hne))
  have hself : ∀ {w : ℕ} {tctx : ThreadContext}, s'.core w = some tctx → tctx.status ≠ .Running → v ≠ w := by
    rintro w tctx hcore hne rfl
    rw [hv, Option.some.injEq] at hcore
    exact hne (hcore ▸ hst')
  by_cases hq : a.quiet = true
  · obtain ⟨thr,x,-,hcore,-⟩ := exec_quiet hq he
    exact Or.inl (hupdate (congrFun hcore v))
  cases a with
  | create d =>
    simp only [Act.exec, Option.pure_def, Option.bind_eq_bind, Option.bind_eq_some_iff] at he
    obtain ⟨⟨s₂,tid⟩,he,h₂⟩ := he
    cases h₂
    obtain ⟨s₁,tctx,thr,x,-,-,-,-,-,-,hcore,hother,-⟩ := pthread_create_eq_some he
    exact Or.inl (hupdate (hother v (hself hcore (by simp))))
  | start l =>
    obtain ⟨tctx,x,hcore,hst,-,hnew,hother,-⟩ := ThreadStart_eq_some he
    rcases eq_or_ne v t with rfl | hvt
    · rw [hnew, Option.some.injEq] at hv
      refine Or.inr ⟨⟨l,rfl⟩,rfl,?_⟩
      rw [← hv, (h.lives v tctx hcore).stopped (h.thr_eq_none hcore (by rw [hst]; decide))]
    · exact Or.inl (hkept (hother v hvt))
  | finish =>
    obtain ⟨thr,tctx,-,hcore,-,himp,-⟩ := ThreadFinish_eq_some he
    obtain ⟨hother,⟨-,hnew⟩ | ⟨-,x,-,hnew⟩⟩ := himp (h.context_tid t tctx hcore).1
    · exact Or.inl (hkept (hother v (hself hnew (by simp))))
    · exact Or.inl (hkept (hother v (hself hnew (by simp))))
  | join w =>
    obtain ⟨thr,tctx,-,-,hcore,⟨hst,-⟩ | ⟨hst,-,himp⟩⟩ := ThreadJoin_eq_some he
    · exact absurd hst (h.lives w tctx hcore).valid
    · obtain ⟨hnew,hother,-⟩ := himp (h.context_tid w tctx hcore).1
      exact Or.inl (hupdate (hother v (hself hnew (by simp))))
  | detach w =>
    obtain ⟨thr,tctx,-,-,hcore,⟨hst,-⟩ | ⟨hst,himp⟩ | ⟨-,hnew,hother,-⟩⟩ := ThreadDetach_eq_some he
    · exact absurd hst (h.lives w tctx hcore).valid
    · obtain ⟨hnew,hother,-⟩ := himp (h.context_tid w tctx hcore).1
      exact Or.inl (hkept (hother v (hself hnew (by simp))))
    · rcases eq_or_ne v w with rfl | hne
      · rw [hnew, Option.some.injEq] at hv
        refine Or.inl ⟨tctx,hcore,?_,?_⟩
        · rw [← hst', ← hv]
        · rw [← hv]
      · exact Or.inl (hkept (hother v hne))
  | _ => exact absurd rfl hq

end Own

/-! ## Incarnations -/

/-- Nobody is ahead of a thread's time, itself included, and a thread's first epoch has come. -/
structure Ahead (s : State) (c : Clocks ℕ Obj) : Prop extends Times s c where
  own : ∀ t thr, s.thr t = some thr → thr.clock.clk_ t ≤ c.thread t t
  epoch0 : ∀ t tctx, s.core t = some tctx → tctx.status = .Running → tctx.epoch0 ≤ c.thread t t

namespace Ahead
variable {cfg : Config} {s s' : State} {c : Clocks ℕ Obj} {t : ℕ}

theorem exec (h : Ahead s c) {a : Act} (he : a.exec cfg s t = some s') : Ahead s' (run c (a.actions s t)) := by
  have htimes := h.toTimes.exec he
  obtain ⟨-,hmono⟩ := h.bounded_exec he
  refine ⟨htimes,fun v thr' hv => ?_,fun v tctx' hv hst => ?_⟩
  · have hep := (htimes.time v thr' hv).isWord.epoch.le
    have hobj : ∀ o, c.obj o v ≤ (run c (a.actions s t)).thread v v := fun o => ((h.bounded v).1 o).trans (hmono v)
    have hown : ∀ thr, s.thr v = some thr → thr.clock.clk_ v ≤ (run c (a.actions s t)).thread v v :=
      fun thr hthr => (h.own v thr hthr).trans (hmono v)
    by_cases hq : a.quiet = true
    · rcases eq_or_ne v t with rfl | hvt
      · exact quiet_own_le h.toTimes hq he hv hown hep hobj
      · obtain ⟨thr,x,-,hcore,-⟩ := exec_quiet hq he
        refine hown thr' ?_
        rw [State.thr_eq_core, hcore, State.core_setThr_of_ne _ _ hvt] at hv
        rwa [State.thr_eq_core]
    · rcases h.thr_origin he hq hv with ⟨thr,hthr,heq | ⟨-,heq⟩ | ⟨-,o,heq⟩⟩ | ⟨⟨l,rfl⟩,rfl,heq⟩
      · rw [heq]
        exact hown thr hthr
      · exact heq.ge.trans hep
      · rw [heq]
        exact max_le (hown thr hthr) (hobj o)
      · rw [heq]
        refine max_le ?_ (hobj _)
        obtain ⟨tctx,x,hcore,hst,-⟩ := ThreadStart_eq_some he
        have hlast := (h.lives v tctx hcore).stopped (h.thr_eq_none hcore (by rw [hst]; decide))
        simp [Act.actions, Action.apply, hcore, hlast]
  · rcases h.epoch0_cases he hv hst with ⟨tctx,hcore,hrun,heq⟩ | ⟨⟨l,rfl⟩,rfl,heq⟩
    · rw [heq]
      exact (h.epoch0 v tctx hcore hrun).trans (hmono v)
    · obtain ⟨tctx,x,hcore,hst,-⟩ := ThreadStart_eq_some he
      have hlast := (h.lives v tctx hcore).stopped (h.thr_eq_none hcore (by rw [hst]; decide))
      rw [heq]
      simp [Act.actions, Action.apply, hcore, hlast]

theorem latestEpoch_eq (h : Ahead s c) (u : ℕ) : s.latestEpoch u = c.thread u u := by
  unfold State.latestEpoch
  cases hg : globalEpoch s u with
  | some e => exact h.globalEpoch_eq hg
  | none =>
    refine (h.absent u ?_).symm
    rw [State.core, Option.map_eq_none_iff]
    cases hu : s.threads u with
    | none => rfl
    | some tctx =>
      rw [globalEpoch, hu, Option.bind_eq_bind, Option.bind_some] at hg
      split at hg <;> cases hg

theorem clocksSound (h : Ahead s c) : s.ClocksSound where
  thread t thr hthr u := by
    rw [h.latestEpoch_eq]
    rcases eq_or_ne u t with rfl | hu
    · exact h.own u thr hthr
    · exact (h.thread t thr hthr u hu).le.trans ((h.bounded u).2 t)
  clock a u := by
    rw [h.latestEpoch_eq, h.clock]
    exact (h.bounded u).1 _
  read_clock a u := by
    rw [h.latestEpoch_eq, h.read_clock]
    exact (h.bounded u).1 _
  sync t tctx ht u := by
    have hsync : s.syncOf t = tctx.sync.get := by rw [State.syncOf, ht]
    rw [h.latestEpoch_eq, ← hsync, h.sync]
    exact (h.bounded u).1 _

end Ahead

/-- The incarnations that have finished follow each other and are past. -/
structure Succeeds (H : History) (c : Clocks ℕ Obj) : Prop extends Ahead H.state c where
  ordered : ∀ u, (H.ended u).Pairwise fun x y => x.2 < y.1
  valid : ∀ u, ∀ x ∈ H.ended u, x.1 ≤ x.2
  past : ∀ u, ∀ x ∈ H.ended u, x.2 ≤ c.thread u u
  before : ∀ u tctx, H.state.core u = some tctx → tctx.status = .Running → ∀ x ∈ H.ended u, x.2 < tctx.epoch0

namespace Succeeds
variable {cfg : Config} {s' : State} {H H' : History} {c : Clocks ℕ Obj} {t : ℕ}

theorem exec (h : Succeeds H c) {a : Act} (he : a.exec cfg H.state t = some s') :
    Succeeds ⟨s',H.ended⟩ (run c (a.actions H.state t)) where
  toAhead := h.toAhead.exec he
  ordered := h.ordered
  valid := h.valid
  past u x hx := (h.past u x hx).trans ((h.bounded_exec he).2 u)
  before u tctx' hu hst x hx := by
    rcases h.epoch0_cases he hu hst with ⟨tctx,hcore,hrun,heq⟩ | ⟨-,rfl,heq⟩
    · exact heq ▸ h.before u tctx hcore hrun x hx
    · exact heq ▸ Nat.lt_succ_of_le (h.past u x hx)

theorem execs (h : Succeeds H c) {acts : List Act} (he : Act.execs cfg t H.state acts = some s') :
    ∃ c', Succeeds ⟨s',H.ended⟩ c' := by
  induction acts generalizing H c with
  | nil =>
    cases he
    exact ⟨c,h⟩
  | cons a acts ih =>
    rw [Act.execs, List.foldlM_cons, Option.bind_eq_bind, Option.bind_eq_some_iff] at he
    obtain ⟨s₁,h₁,he⟩ := he
    exact ih (H := ⟨s₁,H.ended⟩) (h.exec h₁) he

/-- The incarnation that finishes becomes the last of those that have. -/
theorem finish (h : Succeeds H c) (he : Act.finish.exec cfg H.state t = some s') {tctx' : ThreadContext}
    (ht : s'.threads t = some tctx') :
    Succeeds ⟨s',Function.update H.ended t (H.ended t ++ [(tctx'.epoch0,tctx'.epoch1)])⟩
      (run c (Act.finish.actions H.state t)) := by
  have hnext := h.exec he
  have hcore' := s'.core_eq_some ht
  obtain ⟨thr,tctx,-,hcore,hst,himp,-⟩ := ThreadFinish_eq_some he
  have hends : tctx'.status ≠ .Running ∧ tctx'.thr = none ∧ tctx'.epoch0 = tctx.epoch0 := by
    obtain ⟨-,⟨-,hnew⟩ | ⟨-,x,-,hnew⟩⟩ := himp (h.context_tid t tctx hcore).1
    all_goals
      rw [hcore', Option.some.injEq] at hnew
      injection hnew with e1 e2 e3 e4 e5 e6 e7 e8
      exact ⟨by rw [e4]; simp,e3,e8⟩
  obtain ⟨hstop,hnone,hep0⟩ := hends
  have hep1 : tctx'.epoch1 = (run c (Act.finish.actions H.state t)).thread t t :=
    ((hnext.lives t _ hcore').stopped hnone).symm
  have hle : tctx'.epoch0 ≤ tctx'.epoch1 := by
    rw [hep0, hep1]
    exact (h.epoch0 t tctx hcore hst).trans ((h.bounded_exec he).2 t)
  have hmem : ∀ {u x}, x ∈ Function.update H.ended t (H.ended t ++ [(tctx'.epoch0,tctx'.epoch1)]) u →
      x ∈ H.ended u ∨ u = t ∧ x = (tctx'.epoch0,tctx'.epoch1) := by
    intro u x hx
    rcases eq_or_ne u t with rfl | hne
    · rw [Function.update_self] at hx
      simpa using hx
    · rw [Function.update_of_ne hne] at hx
      exact Or.inl hx
  refine ⟨hnext.toAhead,fun u => ?_,fun u x hx => ?_,fun u x hx => ?_,fun u y hu hrun x hx => ?_⟩
  · rcases eq_or_ne u t with rfl | hne
    · dsimp only
      rw [Function.update_self, List.pairwise_append]
      refine ⟨h.ordered u,List.pairwise_singleton _ _,fun x hx y hy => ?_⟩
      rw [List.mem_singleton.mp hy, hep0]
      exact h.before u tctx hcore hst x hx
    · dsimp only
      rw [Function.update_of_ne hne]
      exact h.ordered u
  · rcases hmem hx with hx | ⟨rfl,rfl⟩
    · exact h.valid u x hx
    · exact hle
  · rcases hmem hx with hx | ⟨rfl,rfl⟩
    · exact hnext.past u x hx
    · exact hep1.le
  · rcases hmem hx with hx | ⟨rfl,-⟩
    · exact hnext.before u y hu hrun x hx
    · rw [show s'.core u = some y from hu, Option.some.injEq] at hcore'
      rw [hcore'] at hrun
      exact absurd hrun hstop

theorem step (h : Succeeds H c) {op : ℕ × Op} (he : H.step cfg op = some H') : ∃ c', Succeeds H' c' := by
  simp only [History.step, Option.bind_eq_bind, Option.bind_eq_some_iff] at he
  obtain ⟨s,hs,he⟩ := he
  rw [step_eq_execs] at hs
  split at he
  · next tctx hop ht =>
    cases he
    rw [hop, Op.acts, execs_singleton] at hs
    exact ⟨_,h.finish hs ht⟩
  · cases he
    exact h.execs hs

theorem run {ops : List (ℕ × Op)} (h : Succeeds H c) (hrun : H.run cfg ops = some H') : ∃ c', Succeeds H' c' := by
  induction ops generalizing H c with
  | nil =>
    cases hrun
    exact ⟨c,h⟩
  | cons op ops ih =>
    rw [History.run, List.foldlM_cons, Option.bind_eq_bind, Option.bind_eq_some_iff] at hrun
    obtain ⟨H₁,h₁,hrun⟩ := hrun
    obtain ⟨c',hc'⟩ := h.step h₁
    exact ih hc' hrun

theorem mem_running (h : Succeeds H c) {u : ℕ} {x : ℕ × ℕ} (hx : x ∈ History.running H.state u) :
    x.1 ≤ x.2 ∧ ∀ y ∈ H.ended u, y.2 < x.1 := by
  unfold History.running at hx
  split at hx
  · next tid uid thr status detached reuse sync epoch0 epoch1 dead_next ht =>
    rw [List.mem_singleton.mp hx]
    have hcore := H.state.core_eq_some ht
    have hrun := h.running u _ hcore (Option.some_ne_none thr)
    have hthr : H.state.thr u = some thr := by rw [State.thr_eq_core, hcore, Option.bind_some]
    refine ⟨?_,fun y hy => h.before u _ hcore hrun y hy⟩
    dsimp only
    rw [(h.time u thr hthr).isWord.epoch]
    exact h.epoch0 u _ hcore hrun
  · cases hx

/-- The epochs of successive incarnations of a thread id are disjoint and increase. -/
theorem incarnations (h : Succeeds H c) (u : ℕ) :
    (∀ x ∈ H.incarnations u, x.1 ≤ x.2) ∧ (H.incarnations u).Pairwise fun x y => x.2 < y.1 := by
  refine ⟨fun x hx => ?_,?_⟩
  · rcases List.mem_append.mp hx with hx | hx
    · exact h.valid u x hx
    · exact (h.mem_running hx).1
  · rw [History.incarnations, List.pairwise_append]
    refine ⟨h.ordered u,?_,fun x hx y hy => (h.mem_running hy).2 x hx⟩
    unfold History.running
    split
    · exact List.pairwise_singleton _ _
    · exact List.Pairwise.nil

end Succeeds

theorem ahead_created : Ahead .created noClocks where
  toTimes := times_created
  own t thr hthr := by
    rw [thr_created] at hthr
    cases hthr
  epoch0 t tctx ht hst := by
    rw [core_created] at ht
    split_ifs at ht
    cases ht
    cases hst

theorem succeeds_init {cfg : Config} {l : StackAndTls} {s : State} (h : Initialize cfg l = some s) :
    ∃ c, Succeeds (.init s) c :=
  ⟨_,ahead_created.exec (Initialize_eq_some h),fun _ => List.Pairwise.nil,by simp [History.init],by simp [History.init],
    by simp [History.init]⟩

/-- In every run no clock gets ahead of the latest thread with an id, and threads with the same id have epochs that
are apart and increase. -/
theorem clocks_sound (cfg : Config) {l : StackAndTls} {s : State} (hinit : Initialize cfg l = some s)
    {ops : List (ℕ × Op)} {H : History} (hrun : (History.init s).run cfg ops = some H) :
    H.state.ClocksSound ∧
      ∀ u, (∀ x ∈ H.incarnations u, x.1 ≤ x.2) ∧ (H.incarnations u).Pairwise fun x y => x.2 < y.1 := by
  obtain ⟨c,hc⟩ := succeeds_init hinit
  obtain ⟨c',hc'⟩ := hc.run hrun
  exact ⟨hc'.clocksSound,hc'.incarnations⟩

/-- Thread 0 creates thread 1, which writes and finishes, and joins it. -/
def createJoin : List (ℕ × Op) :=
  [(0,.ThreadCreate false),(1,.ThreadStart ⟨0,0,0,0,0,0⟩),(1,.MemoryAccess 64 3 true),(1,.ThreadFinish),
    (0,.ThreadJoin 1)]

theorem createJoin_isSome : ((Initialize fourSlots ⟨0,0,0,0,0,0⟩).bind fun s =>
    (History.init s).run fourSlots createJoin).isSome = true := by decide +kernel

theorem clocks_sound_createJoin : ∃ s H, Initialize fourSlots ⟨0,0,0,0,0,0⟩ = some s ∧
    (History.init s).run fourSlots createJoin = some H ∧ H.state.ClocksSound ∧
      ∀ u, (∀ x ∈ H.incarnations u, x.1 ≤ x.2) ∧ (H.incarnations u).Pairwise fun x y => x.2 < y.1 := by
  obtain ⟨H,h⟩ := Option.isSome_iff_exists.mp createJoin_isSome
  obtain ⟨s,hs,hrun⟩ := Option.bind_eq_some_iff.mp h
  exact ⟨s,H,hs,hrun,clocks_sound fourSlots hs hrun⟩

end CompilerRt.Tsan
