import CompilerRt.Lib.VectorClock
import CompilerRt.Tsan.Machine

/-! # The detector refines a system of vector clocks

The objects are the two clocks of each sync variable and the clock of each thread context. A thread's own
time is the epoch of its `fast_state`; the entry of its `ThreadClock` for itself is brought up to date only
when the clock is about to be used.
-/
namespace CompilerRt.Tsan
open FastState VectorClock
open VectorClock.Action (own)

inductive Obj where
  | clock (addr : ℕ)
  | read_clock (addr : ℕ)
  | sync (tid : ℕ)
  deriving DecidableEq

/-- The clocks of the running threads and of all objects are those of `c`. -/
structure Sim (s : State) (c : Clocks ℕ Obj) : Prop where
  thread : ∀ t thr, s.thr t = some thr → ∀ u, u ≠ t → thr.clock.clk_ u = c.thread t u
  time : ∀ t thr, s.thr t = some thr → IsFast thr.fast_state t (c.thread t t)
  thr_tid : ∀ t thr, s.thr t = some thr → thr.tid = t
  context_tid : ∀ t tctx, s.core t = some tctx → tctx.tid = t ∧ t < kMaxTid
  running : ∀ t tctx, s.core t = some tctx → tctx.thr ≠ none → tctx.status = .Running
  clock : ∀ a, (s.synctab a).clock.get = c.obj (.clock a)
  read_clock : ∀ a, (s.synctab a).read_clock.get = c.obj (.read_clock a)
  sync : ∀ t, s.syncOf t = c.obj (.sync t)

/-! ## What the parts of a step do to the clocks -/

section Actions
variable (s : State) (t : ℕ)

def Act.actions : Act → List (Action ℕ Obj)
  | access .. => [.tick t]
  | lock a =>
    if (s.synctab a).recursion = 0 then [.tick t, .acquire t (.clock a), .acquire t (.read_clock a)] else [.tick t]
  | unlock a =>
    if (s.synctab a).recursion = 1 ∧ (s.synctab a).owner_tid = some t then [.tick t, .store t (.clock a)]
    else [.tick t]
  | readLock a => [.tick t, .acquire t (.clock a)]
  | readUnlock a => [.tick t, .release t (.read_clock a)]
  | readOrWriteUnlock a =>
    if (s.synctab a).owner_tid = none then [.tick t, .release t (.read_clock a)]
    else if (s.synctab a).recursion = 1 ∧ (s.synctab a).owner_tid = some t then [.tick t, .store t (.clock a)]
    else []
  | acquire a => [.acquire t (.clock a)]
  | acquireGlobal => [.learn t fun i => if i < kMaxTid then globalEpoch s i else none]
  | release a => [.release t (.clock a)]
  | releaseStore a => [.store t (.clock a)]
  | create _ => [.reset (.sync (newTid s)), .tick t, .release t (.sync (newTid s))]
  | start _ => [.start t (((s.core t).map (·.epoch1)).getD 0 + 1) (.sync t)]
  | finish =>
    if ((s.core t).map (·.detached)).getD false then [.reset (.sync t)] else [.tick t, .release t (.sync t)]
  | join tid =>
    if (s.core tid).map (·.status) = some .Finished then [.acquire t (.sync tid), .reset (.sync tid)] else []
  | detach tid => if (s.core tid).map (·.status) = some .Finished then [.reset (.sync tid)] else []

end Actions

/-! ## Updates of one component -/

namespace Sim
variable {s : State} {c : Clocks ℕ Obj} {t : ℕ} {thr : ThreadState}

/-- Under the simulation the published clock is the whole clock of the thread. -/
theorem setClock_eq (h : Sim s c) (ht : s.thr t = some thr) : thr.setClock.clock.clk_ = c.thread t := by
  funext u
  rw [ThreadState.setClock, ThreadClock.clk_set, h.thr_tid t thr ht]
  rcases eq_or_ne u t with rfl | hu
  · rw [Function.update_self, (h.time u thr ht).isWord.epoch]
  · rw [Function.update_of_ne hu, h.thread t thr ht u hu]

theorem setThr (h : Sim s c) (ht : s.thr t = some thr) {p : ThreadState} {e : ℕ} {v : ℕ → ℕ} (htid : p.tid = t)
    (htime : IsFast p.fast_state t e) (hclk : ∀ u, u ≠ t → p.clock.clk_ u = v u) :
    Sim (s.setThr t p) (c.setThread t (own t e v)) where
  thread u x hx w hw := by
    rcases eq_or_ne u t with rfl | hu
    · rw [s.thr_setThr_self ht] at hx
      cases hx
      simpa [hw] using hclk w hw
    · rw [s.thr_setThr_of_ne p hu] at hx
      simpa [hu] using h.thread u x hx w hw
  time u x hx := by
    rcases eq_or_ne u t with rfl | hu
    · rw [s.thr_setThr_self ht] at hx
      cases hx
      simpa using htime
    · rw [s.thr_setThr_of_ne p hu] at hx
      simpa [hu] using h.time u x hx
  thr_tid u x hx := by
    rcases eq_or_ne u t with rfl | hu
    · rw [s.thr_setThr_self ht] at hx
      cases hx
      exact htid
    · rw [s.thr_setThr_of_ne p hu] at hx
      exact h.thr_tid u x hx
  context_tid u x hx := by
    rcases eq_or_ne u t with rfl | hu
    · rw [s.core_setThr_self, Option.map_eq_some_iff] at hx
      obtain ⟨y,hy,rfl⟩ := hx
      exact h.context_tid u y hy
    · rw [s.core_setThr_of_ne p hu] at hx
      exact h.context_tid u x hx
  running u x hx hne := by
    rcases eq_or_ne u t with rfl | hu
    · rw [s.core_setThr_self, Option.map_eq_some_iff] at hx
      obtain ⟨y,hy,rfl⟩ := hx
      rw [State.thr_eq_core, hy, Option.bind_some] at ht
      exact h.running u y hy (by rw [ht]; exact Option.some_ne_none _)
    · rw [s.core_setThr_of_ne p hu] at hx
      exact h.running u x hx hne
  clock a := h.clock a
  read_clock a := h.read_clock a
  sync u := by rw [s.syncOf_setThr]; exact h.sync u

/-- The clock of the thread is left alone, but its time may pass. -/
theorem tick (h : Sim s c) (ht : s.thr t = some thr) {thr' : ThreadState} (hi : thr.incrementEpoch = some thr') :
    Sim (s.setThr t thr') ((Action.tick t).apply c) := by
  simp only [ThreadState.incrementEpoch, Option.pure_def, Option.bind_eq_bind, Option.bind_eq_some_iff,
    Option.some.injEq] at hi
  obtain ⟨x,hx,rfl⟩ := hi
  exact h.setThr ht (h.thr_tid t thr ht) ((h.time t thr ht).incrementEpoch hx) (h.thread t thr ht)

theorem setThr_acquire (h : Sim s c) (ht : s.thr t = some thr) {o : Obj} {k : SyncClock} (hk : k.get = c.obj o) :
    Sim (s.setThr t (thr.acquire k)) ((Action.acquire t o).apply c) := by
  refine h.setThr ht (h.thr_tid t thr ht) (h.time t thr ht) fun u hu => ?_
  rw [ThreadState.acquire, ThreadClock.clk_acquire, hk, Pi.sup_apply, Pi.sup_apply, h.thread t thr ht u hu]

/-- Nothing that the clocks see is changed by a thread bringing its own entry up to date. -/
theorem setThr_same (h : Sim s c) (ht : s.thr t = some thr) {thr' : ThreadState} (htid : thr'.tid = thr.tid)
    (hfast : thr'.fast_state = thr.fast_state) (hclk : ∀ u, u ≠ t → thr'.clock.clk_ u = thr.clock.clk_ u) :
    Sim (s.setThr t thr') c := by
  have hsim := h.setThr ht (p := thr') (e := c.thread t t) (v := c.thread t) (htid.trans (h.thr_tid t thr ht))
    (by rw [hfast]; exact h.time t thr ht) (fun u hu => (hclk u hu).trans (h.thread t thr ht u hu))
  have hc : c.setThread t (own t (c.thread t t) (c.thread t)) = c := by
    simp [Clocks.setThread, own]
  rwa [hc] at hsim

theorem setSync_clock (h : Sim s c) {a : ℕ} {v : SyncVar} {f : ℕ → ℕ} (hclock : v.clock.get = f)
    (hread : v.read_clock = (s.synctab a).read_clock) : Sim (s.setSync a v) (c.setObj (.clock a) f) where
  thread := h.thread
  time := h.time
  thr_tid := h.thr_tid
  context_tid := h.context_tid
  running := h.running
  clock b := by
    rcases eq_or_ne b a with rfl | hb
    · simpa using hclock
    · simpa [hb] using h.clock b
  read_clock b := by
    rcases eq_or_ne b a with rfl | hb
    · simpa [hread] using h.read_clock b
    · simpa [hb] using h.read_clock b
  sync u := by simpa using h.sync u

theorem setSync_read_clock (h : Sim s c) {a : ℕ} {v : SyncVar} {f : ℕ → ℕ} (hread : v.read_clock.get = f)
    (hclock : v.clock = (s.synctab a).clock) : Sim (s.setSync a v) (c.setObj (.read_clock a) f) where
  thread := h.thread
  time := h.time
  thr_tid := h.thr_tid
  context_tid := h.context_tid
  running := h.running
  clock b := by
    rcases eq_or_ne b a with rfl | hb
    · simpa [hclock] using h.clock b
    · simpa [hb] using h.clock b
  read_clock b := by
    rcases eq_or_ne b a with rfl | hb
    · simpa using hread
    · simpa [hb] using h.read_clock b
  sync u := by simpa using h.sync u

theorem setSync_same (h : Sim s c) {a : ℕ} {v : SyncVar} (hclock : v.clock = (s.synctab a).clock)
    (hread : v.read_clock = (s.synctab a).read_clock) : Sim (s.setSync a v) c := by
  have hsim := h.setSync_clock (f := c.obj (.clock a)) (hclock ▸ h.clock a) hread
  have hc : c.setObj (.clock a) (c.obj (.clock a)) = c := by simp [Clocks.setObj]
  rwa [hc] at hsim

/-- A context that does not run is replaced. -/
theorem replaceContext (h : Sim s c) {s' : State} {tctx : ThreadContext} (hself : s'.core t = some tctx)
    (hother : ∀ u, u ≠ t → s'.core u = s.core u) (htab : s'.synctab = s.synctab) (htid : tctx.tid = t ∧ t < kMaxTid)
    (hthr : tctx.thr = none) :
    Sim s' (c.setObj (.sync t) tctx.sync.get) where
  thread u x hx := by
    rcases eq_or_ne u t with rfl | hu
    · rw [State.thr_eq_core, hself, Option.bind_some, hthr] at hx
      cases hx
    · rw [State.thr_eq_core, hother u hu, ← State.thr_eq_core] at hx
      exact h.thread u x hx
  time u x hx := by
    rcases eq_or_ne u t with rfl | hu
    · rw [State.thr_eq_core, hself, Option.bind_some, hthr] at hx
      cases hx
    · rw [State.thr_eq_core, hother u hu, ← State.thr_eq_core] at hx
      exact h.time u x hx
  thr_tid u x hx := by
    rcases eq_or_ne u t with rfl | hu
    · rw [State.thr_eq_core, hself, Option.bind_some, hthr] at hx
      cases hx
    · rw [State.thr_eq_core, hother u hu, ← State.thr_eq_core] at hx
      exact h.thr_tid u x hx
  context_tid u x hx := by
    rcases eq_or_ne u t with rfl | hu
    · rw [hself] at hx
      cases hx
      exact htid
    · rw [hother u hu] at hx
      exact h.context_tid u x hx
  running u x hx hne := by
    rcases eq_or_ne u t with rfl | hu
    · rw [hself] at hx
      cases hx
      exact absurd hthr hne
    · rw [hother u hu] at hx
      exact h.running u x hx hne
  clock a := by simpa [htab] using h.clock a
  read_clock a := by simpa [htab] using h.read_clock a
  sync u := by
    rcases eq_or_ne u t with rfl | hu
    · simp [State.syncOf_eq_core, hself]
    · rw [State.syncOf_eq_core, hother u hu, ← State.syncOf_eq_core]
      simpa [hu] using h.sync u

theorem of_eq (h : Sim s c) {c' : Clocks ℕ Obj} (hc : c' = c) : Sim s c' := hc ▸ h

/-- What the clocks see of a context. -/
def seen (tctx : ThreadContext) : ℕ × Option ThreadState × ThreadStatus × SyncClock :=
  (tctx.tid, tctx.thr, tctx.status, tctx.sync)

theorem congr (h : Sim s c) {s' : State} (hcore : ∀ u, (s'.core u).map seen = (s.core u).map seen)
    (htab : s'.synctab = s.synctab) : Sim s' c := by
  have hthr : ∀ u, s'.thr u = s.thr u := fun u => by
    have hbind : ∀ o : Option ThreadContext, o.bind (·.thr) = (o.map seen).bind (·.2.1) := fun o => by cases o <;> rfl
    rw [State.thr_eq_core, State.thr_eq_core, hbind, hbind, hcore]
  have hctx : ∀ u x, s'.core u = some x → ∃ y, s.core u = some y ∧ seen y = seen x := fun u x hx => by
    have hu := hcore u
    rw [hx, Option.map_some, eq_comm, Option.map_eq_some_iff] at hu
    exact hu
  refine ⟨?_,?_,?_,?_,?_,?_,?_,?_⟩
  · intro u x hx
    exact h.thread u x (by rwa [hthr] at hx)
  · intro u x hx
    exact h.time u x (by rwa [hthr] at hx)
  · intro u x hx
    exact h.thr_tid u x (by rwa [hthr] at hx)
  · intro u x hx
    obtain ⟨y,hy,hseen⟩ := hctx u x hx
    have h1 : y.tid = x.tid := congrArg (·.1) hseen
    exact h1 ▸ h.context_tid u y hy
  · intro u x hx hne
    obtain ⟨y,hy,hseen⟩ := hctx u x hx
    have h1 : y.thr = x.thr := congrArg (·.2.1) hseen
    have h2 : y.status = x.status := congrArg (·.2.2.1) hseen
    exact h2 ▸ h.running u y hy (h1 ▸ hne)
  · intro a
    rw [htab]
    exact h.clock a
  · intro a
    rw [htab]
    exact h.read_clock a
  · intro u
    rw [← h.sync u, State.syncOf_eq_core, State.syncOf_eq_core]
    have hu := hcore u
    cases hx : s'.core u with
    | none =>
      rw [hx, Option.map_none, eq_comm, Option.map_eq_none_iff] at hu
      rw [hu]
    | some x =>
      obtain ⟨y,hy,hseen⟩ := hctx u x hx
      rw [hy]
      exact congrArg (SyncClock.get ·.2.2.2) hseen.symm

end Sim

/-! ## The parts of a step, inverted -/

theorem incrementEpoch_eq_some {thr thr' : ThreadState} (h : thr.incrementEpoch = some thr') :
    ∃ x, IncrementEpoch thr.fast_state = some x ∧ thr' = { thr with fast_state := x } := by
  simp only [ThreadState.incrementEpoch, Option.pure_def, Option.bind_eq_bind, Option.bind_eq_some_iff,
    Option.some.injEq] at h
  obtain ⟨x,hx,rfl⟩ := h
  exact ⟨x,hx,rfl⟩

section Inversion
variable {cfg : Config} {s s' : State} {t a : ℕ}

theorem lockOwner_eq_some {thr : ThreadState} {v v' : SyncVar} (h : lockOwner thr v = some v') :
    v'.clock = v.clock ∧ v'.read_clock = v.read_clock ∧ v'.recursion = v.recursion ∧
      (v.owner_tid = none ∧ v.recursion = 0 ∧ v'.owner_tid = some thr.tid ∨
        v.owner_tid ≠ none ∧ v'.owner_tid = v.owner_tid ∧ (v.owner_tid = some thr.tid → v.recursion ≠ 0)) := by
  unfold lockOwner at h
  cases ho : v.owner_tid with
  | none =>
    simp only [ho] at h
    split_ifs at h with hr
    cases h
    exact ⟨rfl,rfl,rfl,Or.inl ⟨rfl,hr,rfl⟩⟩
  | some owner =>
    simp only [ho] at h
    split_ifs at h with hr
    cases h
    exact ⟨rfl,rfl,rfl,Or.inr ⟨Option.some_ne_none _,ho,fun hc h0 => hr ⟨Option.some.inj hc,h0⟩⟩⟩

theorem lockSyncVar_eq_some (h : lockSyncVar s t a = some s') :
    ∃ thr thr' v, s.thr t = some thr ∧ thr.incrementEpoch = some thr' ∧ lockOwner thr' (s.synctab a) = some v ∧
      s' = (s.setThr t (if v.recursion = 0 then (thr'.setClock.acquire v.clock).acquire v.read_clock else thr')).setSync a
        { v with recursion := v.recursion + 1 } := by
  simp only [lockSyncVar, Option.pure_def, Option.bind_eq_bind, Option.bind_eq_some_iff] at h
  obtain ⟨thr,hthr,thr',hi,v,hv,h⟩ := h
  cases h
  exact ⟨thr,thr',v,hthr,hi,hv,rfl⟩

theorem unlockSyncVar_eq_some (h : unlockSyncVar s t a = some s') :
    ∃ thr thr', s.thr t = some thr ∧ thr.incrementEpoch = some thr' ∧
      ((s.synctab a).recursion = 1 ∧ (s.synctab a).owner_tid = some thr'.tid ∧
          s' = (s.setThr t thr'.setClock.setSynchEpoch).setSync a { s.synctab a with
            recursion := 0, owner_tid := none
            clock := thr'.setClock.setSynchEpoch.clock.ReleaseStore (s.synctab a).clock } ∨
        ¬ ((s.synctab a).recursion = 1 ∧ (s.synctab a).owner_tid = some thr'.tid) ∧
          ∃ v, s' = (s.setThr t thr').setSync a v ∧ v.clock = (s.synctab a).clock ∧
            v.read_clock = (s.synctab a).read_clock ∧ v.owner_tid = (s.synctab a).owner_tid ∧
            ((s.synctab a).owner_tid = some thr'.tid → v.recursion = (s.synctab a).recursion - 1)) := by
  simp only [unlockSyncVar, Option.pure_def, Option.bind_eq_bind, Option.bind_eq_some_iff] at h
  obtain ⟨thr,hthr,thr',hi,h⟩ := h
  refine ⟨thr,thr',hthr,hi,?_⟩
  split_ifs at h with h0 ho h1
  · cases h
    refine Or.inr ⟨fun hc => by omega,_,rfl,rfl,rfl,rfl,fun _ => ?_⟩
    dsimp only
    omega
  · cases h
    exact Or.inr ⟨fun hc => ho hc.2,_,rfl,rfl,rfl,rfl,fun hc => absurd hc ho⟩
  · cases h
    rw [not_not] at ho
    refine Or.inl ⟨by omega,ho,?_⟩
    simp only [h1]
  · cases h
    exact Or.inr ⟨fun hc => by omega,_,rfl,rfl,rfl,rfl,fun _ => rfl⟩

theorem readLockSyncVar_eq_some (h : readLockSyncVar s t a = some s') :
    ∃ thr thr', s.thr t = some thr ∧ thr.incrementEpoch = some thr' ∧
      s' = (s.setThr t (thr'.setClock.acquire (s.synctab a).clock)).setSync a
        { s.synctab a with last_lock := (thr'.setClock.acquire (s.synctab a).clock).fast_state } := by
  simp only [readLockSyncVar, Option.pure_def, Option.bind_eq_bind, Option.bind_eq_some_iff] at h
  obtain ⟨thr,hthr,thr',hi,h⟩ := h
  cases h
  exact ⟨thr,thr',hthr,hi,rfl⟩

theorem readUnlockSyncVar_eq_some (h : readUnlockSyncVar s t a = some s') :
    ∃ thr thr', s.thr t = some thr ∧ thr.incrementEpoch = some thr' ∧
      s' = (s.setThr t thr'.setClock.setSynchEpoch).setSync a { s.synctab a with
        read_clock := thr'.setClock.setSynchEpoch.clock.release (s.synctab a).read_clock } := by
  simp only [readUnlockSyncVar, Option.pure_def, Option.bind_eq_bind, Option.bind_eq_some_iff] at h
  obtain ⟨thr,hthr,thr',hi,h⟩ := h
  cases h
  exact ⟨thr,thr',hthr,hi,rfl⟩

/-- It is the one or the other unlock, an inner unlock without a new epoch, or a warning. -/
theorem readOrWriteUnlockSyncVar_eq_some (h : readOrWriteUnlockSyncVar s t a = some s') :
    ∃ thr, s.thr t = some thr ∧
      ((s.synctab a).owner_tid = none ∧ readUnlockSyncVar s t a = some s' ∨
        (s.synctab a).owner_tid = some thr.tid ∧ (s.synctab a).recursion = 1 ∧ unlockSyncVar s t a = some s' ∨
        (s.synctab a).owner_tid ≠ none ∧ ¬ ((s.synctab a).recursion = 1 ∧ (s.synctab a).owner_tid = some thr.tid) ∧
          ∃ v, s' = s.setSync a v ∧ v.clock = (s.synctab a).clock ∧ v.read_clock = (s.synctab a).read_clock ∧
            v.owner_tid = (s.synctab a).owner_tid ∧
            ((s.synctab a).owner_tid = some thr.tid → v.recursion = (s.synctab a).recursion - 1)) := by
  simp only [readOrWriteUnlockSyncVar, Option.pure_def, Option.bind_eq_bind, Option.bind_eq_some_iff] at h
  obtain ⟨thr,hthr,h⟩ := h
  refine ⟨thr,hthr,?_⟩
  split_ifs at h with ho ht h0 h1
  · refine Or.inl ⟨ho,?_⟩
    simpa only [readUnlockSyncVar, hthr, Option.pure_def, Option.bind_eq_bind, Option.bind_some] using h
  · refine Or.inr (Or.inl ⟨ht,by omega,?_⟩)
    rw [Option.bind_eq_some_iff] at h
    obtain ⟨thr',hi,h⟩ := h
    have htid : thr'.tid = thr.tid := by
      obtain ⟨x,-,rfl⟩ := incrementEpoch_eq_some hi
      rfl
    rw [unlockSyncVar, hthr, Option.bind_eq_bind, Option.bind_some, hi, Option.bind_some]
    dsimp only
    rw [if_neg h0, if_neg (not_not.mpr (ht.trans (congrArg some htid.symm))), if_pos h1]
    exact h
  · cases h
    exact Or.inr (Or.inr ⟨ho,fun hc => by omega,_,rfl,rfl,rfl,rfl,fun _ => rfl⟩)
  · cases h
    exact Or.inr (Or.inr ⟨ho,fun hc => ht hc.2,_,rfl,rfl,rfl,rfl,fun hc => absurd hc ht⟩)

theorem Acquire_eq_some (h : Acquire s t a = some s') :
    ∃ thr, s.thr t = some thr ∧ s' = s.setThr t (thr.setClock.acquire (s.synctab a).clock) := by
  simp only [Acquire, Option.pure_def, Option.bind_eq_bind, Option.bind_eq_some_iff] at h
  obtain ⟨thr,hthr,h⟩ := h
  cases h
  exact ⟨thr,hthr,rfl⟩

theorem Release_eq_some (h : Release s t a = some s') :
    ∃ thr, s.thr t = some thr ∧ s' = (s.setThr t thr.setClock).setSync a
      { s.synctab a with clock := thr.setClock.clock.release (s.synctab a).clock } := by
  simp only [Release, Option.pure_def, Option.bind_eq_bind, Option.bind_eq_some_iff] at h
  obtain ⟨thr,hthr,h⟩ := h
  cases h
  exact ⟨thr,hthr,rfl⟩

theorem ReleaseStore_eq_some (h : ReleaseStore s t a = some s') :
    ∃ thr, s.thr t = some thr ∧ s' = (s.setThr t thr.setClock).setSync a
      { s.synctab a with clock := thr.setClock.clock.ReleaseStore (s.synctab a).clock } := by
  simp only [ReleaseStore, Option.pure_def, Option.bind_eq_bind, Option.bind_eq_some_iff] at h
  obtain ⟨thr,hthr,h⟩ := h
  cases h
  exact ⟨thr,hthr,rfl⟩

theorem MemoryAccess_eq_some {sizeLog : ℕ} {w : Bool} {race : Option u64}
    (h : MemoryAccess cfg s t a sizeLog w = some (s', race)) :
    ∃ thr, s.thr t = some thr ∧ (GetIgnoreBit thr.fast_state = true ∧ s' = s ∧ race = none ∨
      ∃ thr' cur cur', thr.incrementEpoch = some thr' ∧
        Shadow.SetAddr0AndSizeLog thr'.fast_state (a % 8) sizeLog = some cur' ∧ Shadow.SetWrite cur' w = some cur ∧
        s' = (s.setThr t thr').setRow (a / kShadowCell)
          (MemoryAccessImpl cfg thr' sizeLog w cur (s.shadow (a / kShadowCell))).1 ∧
        race = (MemoryAccessImpl cfg thr' sizeLog w cur (s.shadow (a / kShadowCell))).2) := by
  simp only [MemoryAccess, Option.pure_def, Option.bind_eq_bind, Option.bind_eq_some_iff] at h
  obtain ⟨thr,hthr,h⟩ := h
  refine ⟨thr,hthr,?_⟩
  split_ifs at h with hb
  · cases h
    exact Or.inl ⟨hb,rfl,rfl⟩
  · simp only [Option.bind_eq_some_iff] at h
    obtain ⟨x,hx,y,hy,z,hz,h⟩ := h
    cases h
    refine Or.inr ⟨{ thr with fast_state := x },z,y,?_,hy,hz,rfl,rfl⟩
    rw [ThreadState.incrementEpoch, hx]
    rfl

/-! ### Threads -/

theorem ThreadDead_eq_some {tctx : ThreadContext} (h : ThreadDead s tctx = some s') :
    s'.core tctx.tid = some { tctx with status := .Dead, sync := .empty, dead_next := none } ∧
      (∀ u, u ≠ tctx.tid → s'.core u = s.core u) ∧ s'.synctab = s.synctab ∧ s'.shadow = s.shadow ∧
      s'.unique_thread_seq = s.unique_thread_seq ∧ s'.thread_seq = s.thread_seq := by
  unfold ThreadDead at h
  split_ifs at h with hs
  cases h
  dsimp only
  split_ifs with h0
  · refine ⟨s.core_setContext_self _ _,fun u hu => s.core_setContext_of_ne _ hu,rfl,rfl,rfl,rfl⟩
  · cases ht : (s.setContext tctx.tid { tctx with status := .Dead, sync := tctx.sync.Reset, dead_next := none }).dead_list_tail with
    | none => exact ⟨s.core_setContext_self _ _,fun u hu => s.core_setContext_of_ne _ hu,rfl,rfl,rfl,rfl⟩
    | some tail =>
      have hcore : ∀ u, State.core { s.setContext tctx.tid
            { tctx with status := .Dead, sync := tctx.sync.Reset, dead_next := none } with
          threads := Function.update (s.setContext tctx.tid
              { tctx with status := .Dead, sync := tctx.sync.Reset, dead_next := none }).threads tail
            (((s.setContext tctx.tid { tctx with status := .Dead, sync := tctx.sync.Reset, dead_next := none }).threads
              tail).map ({ · with dead_next := some tctx.tid })) } u =
          (s.setContext tctx.tid { tctx with status := .Dead, sync := tctx.sync.Reset, dead_next := none }).core u := by
        intro u
        rcases eq_or_ne u tail with rfl | hu
        · simp only [State.core, Function.update_self, Option.map_map]
          rfl
        · simp [State.core, hu]
      refine ⟨?_,fun u hu => ?_,rfl,rfl,rfl,rfl⟩
      · exact (hcore _).trans (s.core_setContext_self _ _)
      · exact (hcore _).trans (s.core_setContext_of_ne _ hu)

/-- The context that a new thread takes is a fresh one or that of a dead thread. -/
theorem takeContext_eq_some {s₁ : State} {tctx : ThreadContext} (h : takeContext s = some (s₁, tctx)) :
    s₁.threads = s.threads ∧ s₁.synctab = s.synctab ∧ s₁.shadow = s.shadow ∧
      s₁.unique_thread_seq = s.unique_thread_seq ∧ tctx.sync.get = 0 ∧
      (tctx = .new s.thread_seq ∧ s₁.thread_seq = s.thread_seq + 1 ∨
        s₁.thread_seq = s.thread_seq ∧ ∃ u old, s.core u = some old ∧ old.status = .Dead ∧ tctx.tid = old.tid ∧
          tctx.epoch1 = old.epoch1) := by
  unfold takeContext at h
  split_ifs at h with h1 h2
  · simp only [Option.pure_def, Option.bind_eq_bind, Option.bind_eq_some_iff] at h
    obtain ⟨u,hu,old,hold,h⟩ := h
    split_ifs at h with h3 h4
    cases h
    rw [not_not] at h4
    exact ⟨rfl,rfl,rfl,rfl,old.sync.get_Reset,Or.inr ⟨rfl,u,_,s.core_eq_some hold,h4,rfl,rfl⟩⟩
  · cases h
    exact ⟨rfl,rfl,rfl,rfl,SyncClock.get_empty,Or.inl ⟨rfl,rfl⟩⟩

theorem pthread_create_eq_some {detached : Bool} {tid : ℕ} (h : pthread_create s t detached = some (s', tid)) :
    ∃ s₁ tctx thr thr', takeContext s = some (s₁, tctx) ∧ tctx.tid = tid ∧ tid ≠ 0 ∧ tid < kMaxTid ∧
      s.thr t = some thr ∧ thr.incrementEpoch = some thr' ∧
      s'.core tid = some { tctx with
        status := .Created, thr := none, unique_id := s.unique_thread_seq, detached := detached
        sync := thr'.setClock.setSynchEpoch.clock.release tctx.sync, dead_next := none } ∧
      (∀ u, u ≠ tid → s'.core u = (s.setThr t thr'.setClock.setSynchEpoch).core u) ∧ s'.synctab = s.synctab ∧
      s'.shadow = s.shadow ∧ s'.unique_thread_seq = s.unique_thread_seq + 1 ∧ s'.thread_seq = s₁.thread_seq := by
  simp only [pthread_create, ThreadCreate, Option.pure_def, Option.bind_eq_bind, Option.bind_eq_some_iff] at h
  obtain ⟨⟨s₂,tid'⟩,⟨⟨s₁,tctx⟩,htake,h⟩,hne⟩ := h
  split_ifs at hne with hne0
  cases hne
  dsimp only at h
  split_ifs at h with h1 h2
  · rw [not_or, Nat.not_le] at h1
    simp only [Option.bind_eq_some_iff] at h
    obtain ⟨thr,hthr,thr',hi,h⟩ := h
    cases h
    obtain ⟨hth,htab,hsh,huid,hsync,-⟩ := takeContext_eq_some htake
    have hthr' : s.thr t = some thr := by
      rw [State.thr, ← hth]
      exact hthr
    refine ⟨s₁,tctx,thr,thr',htake,rfl,hne0,h1.1,hthr',hi,?_,fun u hu => ?_,htab,hsh,congrArg (· + 1) huid,rfl⟩
    · rw [State.core_setContext_self, huid]
    · rw [State.core_setContext_of_ne _ _ hu]
      simp only [State.core, State.setThr, countCreated, hth]
  · cases h
    exact absurd hne0 h2

theorem resetStackAndTls_same (cfg : Config) (s : State) (l : StackAndTls) :
    (resetStackAndTls cfg s l).threads = s.threads ∧ (resetStackAndTls cfg s l).synctab = s.synctab ∧
      (resetStackAndTls cfg s l).unique_thread_seq = s.unique_thread_seq ∧
      (resetStackAndTls cfg s l).thread_seq = s.thread_seq := by
  unfold resetStackAndTls
  split_ifs <;> exact ⟨rfl,rfl,rfl,rfl⟩

theorem ThreadStart_eq_some {l : StackAndTls} (h : ThreadStart cfg s t l = some s') :
    ∃ tctx x, s.core t = some tctx ∧ tctx.status = .Created ∧ FastState.mk t (tctx.epoch1 + 1) = some x ∧
      s'.core t = some { tctx with
        status := .Running, epoch0 := tctx.epoch1 + 1, epoch1 := kMaxEpoch
        thr := some { fast_state := x, fast_synch_epoch := tctx.epoch1 + 1
                      clock := (ThreadClock.empty.set t (tctx.epoch1 + 1)).acquire tctx.sync
                      tid := t, unique_id := tctx.unique_id, is_alive := true, layout := l } } ∧
      (∀ u, u ≠ t → s'.core u = s.core u) ∧ s'.synctab = s.synctab ∧
      s'.shadow = (if t ≠ 0 then resetStackAndTls cfg s l else s).shadow ∧
      s'.unique_thread_seq = s.unique_thread_seq ∧ s'.thread_seq = s.thread_seq := by
  simp only [ThreadStart, Option.pure_def, Option.bind_eq_bind] at h
  split_ifs at h with h0 h1
  all_goals
    simp only [Option.bind_eq_some_iff] at h
    obtain ⟨tctx,htctx,h⟩ := h
    split_ifs at h with h2
    simp only [Option.bind_eq_some_iff] at h
    obtain ⟨x,hx,h⟩ := h
    cases h
    rw [not_not] at h2
  · obtain ⟨hth,htab,huid,hseq⟩ := resetStackAndTls_same cfg s l
    rw [hth] at htctx
    refine ⟨_,x,s.core_eq_some htctx,h2,hx,State.core_setContext_self _ _ _,fun u hu => ?_,htab,?_,huid,hseq⟩
    · rw [State.core_setContext_of_ne _ _ hu, State.core, State.core, hth]
    · rw [if_pos h1]
      rfl
  · refine ⟨_,x,s.core_eq_some htctx,h2,hx,State.core_setContext_self _ _ _,fun u hu => ?_,rfl,?_,rfl,rfl⟩
    · rw [State.core_setContext_of_ne _ _ hu]
    · rw [if_neg h1]
      rfl

theorem ThreadFinish_eq_some (h : ThreadFinish cfg s t = some s') :
    ∃ thr tctx, s.thr t = some thr ∧ s.core t = some tctx ∧ tctx.status = .Running ∧
      (tctx.tid = t → (∀ u, u ≠ t → s'.core u = s.core u) ∧
        (tctx.detached = true ∧ s'.core t = some { tctx with
            status := .Dead, sync := .empty, epoch1 := epoch thr.fast_state, thr := none } ∨
          tctx.detached = false ∧ ∃ thr', thr.incrementEpoch = some thr' ∧ s'.core t = some { tctx with
            sync := thr'.setClock.setSynchEpoch.clock.release tctx.sync, status := .Finished
            epoch1 := epoch thr'.setClock.setSynchEpoch.fast_state, thr := none })) ∧
      s'.synctab = s.synctab ∧ s'.shadow = (resetStackAndTls cfg s thr.layout).shadow ∧
      s'.unique_thread_seq = s.unique_thread_seq ∧ s'.thread_seq = s.thread_seq := by
  simp only [ThreadFinish, Option.pure_def, Option.bind_eq_bind, Option.bind_eq_some_iff] at h
  obtain ⟨thr,hthr,tctx,htctx,h⟩ := h
  obtain ⟨hth,htab,huid,hseq⟩ := resetStackAndTls_same cfg s thr.layout
  rw [hth] at htctx
  have hcore : ∀ u, State.core { resetStackAndTls cfg s thr.layout with
      alive_threads := (resetStackAndTls cfg s thr.layout).alive_threads - 1 } u = s.core u := fun u => by
    simp only [State.core, hth]
  split_ifs at h with h1 h2
  all_goals
    simp only [not_or, not_not] at h1
    simp only [Option.bind_eq_some_iff] at h
  · obtain ⟨s₁,hdead,tctx₁,htctx₁,h⟩ := h
    obtain ⟨hself,hother,htab₁,hsh₁,huid₁,hseq₁⟩ := ThreadDead_eq_some hdead
    cases h
    refine ⟨thr,_,hthr,s.core_eq_some htctx,h1.1,fun htid => ?_,htab₁.trans htab,hsh₁,huid₁.trans huid,hseq₁.trans hseq⟩
    change tctx.tid = t at htid
    replace hself := (congrArg s₁.core htid).symm.trans hself
    rw [htid] at hother
    refine ⟨fun u hu => ?_,Or.inl ⟨h2,?_⟩⟩
    · rw [State.core_setContext_of_ne _ _ hu, hother u hu, hcore]
    · rw [s₁.core_eq_some htctx₁, Option.some.injEq] at hself
      rw [State.core_setContext_self, Option.some.injEq]
      injection hself with e1 e2 e3 e4 e5 e6 e7 e8 e9 e10
      simp only [e1, e2, e4, e5, e6, e7, e8]
  · obtain ⟨thr',hi,h⟩ := h
    cases h
    refine ⟨thr,_,hthr,s.core_eq_some htctx,h1.1,fun _ => ⟨fun u hu => ?_,Or.inr ⟨by simpa using h2,thr',hi,?_⟩⟩,
      htab,rfl,huid,hseq⟩
    · rw [State.core_setContext_of_ne _ _ hu, hcore]
    · rw [State.core_setContext_self]

theorem ThreadJoin_eq_some {tid : ℕ} (h : ThreadJoin s t tid = some s') :
    ∃ thr tctx, s.thr t = some thr ∧ tid ≠ 0 ∧ s.core tid = some tctx ∧
      (tctx.status = .Invalid ∧ s' = s ∨
        tctx.status = .Finished ∧ tctx.detached = false ∧ (tctx.tid = tid →
          s'.core tid = some { tctx with status := .Dead, sync := .empty } ∧
          (∀ u, u ≠ tid → s'.core u = (s.setThr t (thr.acquire tctx.sync)).core u) ∧
          s'.synctab = s.synctab ∧ s'.shadow = s.shadow ∧ s'.unique_thread_seq = s.unique_thread_seq ∧
          s'.thread_seq = s.thread_seq)) := by
  simp only [ThreadJoin, Option.pure_def, Option.bind_eq_bind, Option.bind_eq_some_iff] at h
  obtain ⟨thr,hthr,h⟩ := h
  split_ifs at h with h0
  simp only [Option.bind_eq_some_iff] at h
  obtain ⟨tctx,htctx,h⟩ := h
  rw [not_or] at h0
  refine ⟨thr,_,hthr,h0.1,s.core_eq_some htctx,?_⟩
  split_ifs at h with h1 h2
  · cases h
    exact Or.inl ⟨h1,rfl⟩
  · simp only [not_or, not_not, Bool.not_eq_true] at h2
    refine Or.inr ⟨h2.2,h2.1,fun htid => ?_⟩
    obtain ⟨hself,hother,htab,hsh,huid,hseq⟩ := ThreadDead_eq_some h
    change tctx.tid = tid at htid
    rw [htid] at hother
    exact ⟨(congrArg s'.core htid).symm.trans hself,hother,htab,hsh,huid,hseq⟩

theorem ThreadDetach_eq_some {tid : ℕ} (h : ThreadDetach s t tid = some s') :
    ∃ thr tctx, s.thr t = some thr ∧ tid ≠ 0 ∧ s.core tid = some tctx ∧
      (tctx.status = .Invalid ∧ s' = s ∨
        tctx.status = .Finished ∧ (tctx.tid = tid →
          s'.core tid = some { tctx with status := .Dead, sync := .empty } ∧ (∀ u, u ≠ tid → s'.core u = s.core u) ∧
          s'.synctab = s.synctab ∧ s'.shadow = s.shadow ∧ s'.unique_thread_seq = s.unique_thread_seq ∧
          s'.thread_seq = s.thread_seq) ∨
        tctx.status ≠ .Finished ∧ s'.core tid = some { tctx with detached := true } ∧
          (∀ u, u ≠ tid → s'.core u = s.core u) ∧ s'.synctab = s.synctab ∧ s'.shadow = s.shadow ∧
          s'.unique_thread_seq = s.unique_thread_seq ∧ s'.thread_seq = s.thread_seq) := by
  simp only [ThreadDetach, Option.pure_def, Option.bind_eq_bind, Option.bind_eq_some_iff] at h
  obtain ⟨thr,hthr,h⟩ := h
  split_ifs at h with h0
  simp only [Option.bind_eq_some_iff] at h
  obtain ⟨tctx,htctx,h⟩ := h
  rw [not_or] at h0
  refine ⟨thr,_,hthr,h0.1,s.core_eq_some htctx,?_⟩
  split_ifs at h with h1 h2
  · cases h
    exact Or.inl ⟨h1,rfl⟩
  · refine Or.inr (Or.inl ⟨h2,fun htid => ?_⟩)
    obtain ⟨hself,hother,htab,hsh,huid,hseq⟩ := ThreadDead_eq_some h
    change tctx.tid = tid at htid
    rw [htid] at hother
    exact ⟨(congrArg s'.core htid).symm.trans hself,hother,htab,hsh,huid,hseq⟩
  · cases h
    exact Or.inr (Or.inr ⟨h2,State.core_setContext_self _ _ _,fun u hu => s.core_setContext_of_ne _ hu,rfl,rfl,rfl,rfl⟩)

theorem clk_setEpochs (s : State) (n : ℕ) (clock : ThreadClock) (u : ℕ) :
    (setEpochs s n clock).clk_ u = (if u < n then globalEpoch s u else none).getD (clock.clk_ u) := by
  unfold setEpochs
  induction n with
  | zero => rfl
  | succ n ih =>
    rw [List.range_succ, List.foldl_append, List.foldl_cons, List.foldl_nil]
    rcases eq_or_ne u n with rfl | hu
    · cases hf : globalEpoch s u with
      | none => simpa [hf] using ih
      | some e => simp
    · have hlt : u < n + 1 ↔ u < n := by omega
      cases hf : globalEpoch s n with
      | none => simpa only [hlt] using ih
      | some e => simpa only [hlt, ThreadClock.clk_set, Function.update_of_ne hu] using ih

theorem AcquireGlobal_eq_some (h : AcquireGlobal s t = some s') :
    ∃ thr thr', s.thr t = some thr ∧ thr'.tid = thr.tid ∧ thr'.fast_state = thr.fast_state ∧
      (∀ u, thr'.clock.clk_ u = (if u < kMaxTid then globalEpoch s u else none).getD (thr.clock.clk_ u)) ∧
      thr'.unique_id = thr.unique_id ∧ s' = s.setThr t thr' := by
  simp only [AcquireGlobal, Option.pure_def, Option.bind_eq_bind, Option.bind_eq_some_iff] at h
  obtain ⟨thr,hthr,h⟩ := h
  generalize kMaxTid = n at h ⊢
  cases h
  exact ⟨thr,{ thr with clock := setEpochs s n thr.clock },hthr,rfl,rfl,clk_setEpochs s n thr.clock,rfl,rfl⟩

end Inversion

/-! ## The refinement -/

namespace Sim
variable {cfg : Config} {s s' : State} {c : Clocks ℕ Obj} {t : ℕ}

theorem setClock (h : Sim s c) {thr : ThreadState} (ht : s.thr t = some thr) : Sim (s.setThr t thr.setClock) c :=
  h.setThr_same ht rfl rfl fun u hu => by
    rw [ThreadState.setClock, ThreadClock.clk_set, h.thr_tid t thr ht, Function.update_of_ne hu]

/-- Setting the state of a thread twice. -/
theorem setThr_setThr (s : State) (t : ℕ) (x y : ThreadState) : (s.setThr t x).setThr t y = s.setThr t y := by
  unfold State.setThr
  congr 1
  dsimp only
  rw [Function.update_self, Function.update_idem, Option.map_map]
  rfl

/-- An acquire after the thread's own entry is brought up to date. -/
theorem setClock_acquire (h : Sim s c) {thr : ThreadState} (ht : s.thr t = some thr) {o : Obj} {k : SyncClock}
    (hk : k.get = c.obj o) : Sim (s.setThr t (thr.setClock.acquire k)) ((Action.acquire t o).apply c) := by
  have hsim := (h.setClock ht).setThr_acquire (s.thr_setThr_self ht) hk
  rwa [setThr_setThr] at hsim

theorem publish (h : Sim s c) {thr : ThreadState} (ht : s.thr t = some thr) (thr' : ThreadState)
    (htid : thr'.tid = thr.tid) (hfast : thr'.fast_state = thr.fast_state) (hclk : thr'.clock = thr.setClock.clock) :
    Sim (s.setThr t thr') c ∧ thr'.clock.clk_ = c.thread t := by
  refine ⟨h.setThr_same ht htid hfast fun u hu => ?_,by rw [hclk, h.setClock_eq ht]⟩
  rw [hclk, ThreadState.setClock, ThreadClock.clk_set, h.thr_tid t thr ht, Function.update_of_ne hu]

/-- The shadow and the dead list do not matter, and neither do reads and writes of the shadow. -/
theorem exec_access (h : Sim s c) {a sizeLog : ℕ} {w : Bool} {race : Option u64}
    (he : MemoryAccess cfg s t a sizeLog w = some (s', race)) : Sim s' ((Action.tick t).apply c) := by
  obtain ⟨thr,hthr,⟨hb,-,-⟩ | ⟨thr',cur,cur',hi,-,-,rfl,-⟩⟩ := MemoryAccess_eq_some he
  · rw [(h.time t thr hthr).not_ignore] at hb
    cases hb
  · exact (h.tick hthr hi).congr (fun _ => rfl) rfl

theorem exec_lock (h : Sim s c) {a : ℕ} (he : lockSyncVar s t a = some s') :
    Sim s' (run c (Act.actions s t (.lock a))) := by
  obtain ⟨thr,thr',v,hthr,hi,hv,rfl⟩ := lockSyncVar_eq_some he
  obtain ⟨hclock,hread,hrec,-⟩ := lockOwner_eq_some hv
  have htick := h.tick hthr hi
  rw [Act.actions, ← hrec]
  refine setSync_same ?_ (by simpa using hclock) (by simpa using hread)
  split_ifs
  · have h1 := htick.setClock_acquire (s.thr_setThr_self hthr) (htick.clock a)
    have h2 := h1.setThr_acquire (State.thr_setThr_self _ (s.thr_setThr_self hthr)) (h1.read_clock a)
    rw [setThr_setThr, setThr_setThr] at h2
    rw [hclock, hread]
    exact h2
  · exact htick

theorem exec_unlock (h : Sim s c) {a : ℕ} (he : unlockSyncVar s t a = some s') :
    Sim s' (run c (Act.actions s t (.unlock a))) := by
  obtain ⟨thr,thr',hthr,hi,hcase⟩ := unlockSyncVar_eq_some he
  have htick := h.tick hthr hi
  have hself := s.thr_setThr_self (x := thr') hthr
  have htid : thr'.tid = t := htick.thr_tid t thr' hself
  rw [htid] at hcase
  rw [Act.actions]
  rcases hcase with ⟨hrec,ho,rfl⟩ | ⟨hno,v,rfl,hclock,hread,-⟩
  · rw [if_pos ⟨hrec,ho⟩]
    obtain ⟨hpub,hclk⟩ := htick.publish hself thr'.setClock.setSynchEpoch rfl rfl rfl
    rw [setThr_setThr] at hpub
    exact hpub.setSync_clock (by rw [ThreadClock.get_ReleaseStore, hclk]) rfl
  · rw [if_neg hno]
    exact htick.setSync_same hclock hread

theorem exec_readUnlock (h : Sim s c) {a : ℕ} (he : readUnlockSyncVar s t a = some s') :
    Sim s' (run c [.tick t, .release t (.read_clock a)]) := by
  obtain ⟨thr,thr',hthr,hi,rfl⟩ := readUnlockSyncVar_eq_some he
  have htick := h.tick hthr hi
  obtain ⟨hpub,hclk⟩ := htick.publish (s.thr_setThr_self hthr) thr'.setClock.setSynchEpoch rfl rfl rfl
  rw [setThr_setThr] at hpub
  refine hpub.setSync_read_clock ?_ rfl
  rw [ThreadClock.get_release, hclk, ← htick.read_clock a]
  rfl

theorem exec_readOrWriteUnlock (h : Sim s c) {a : ℕ} (he : readOrWriteUnlockSyncVar s t a = some s') :
    Sim s' (run c (Act.actions s t (.readOrWriteUnlock a))) := by
  obtain ⟨thr,hthr,⟨ho,he'⟩ | ⟨ho,hrec,he'⟩ | ⟨ho,hno,v,rfl,hclock,hread,-⟩⟩ := readOrWriteUnlockSyncVar_eq_some he
  · rw [Act.actions, if_pos ho]
    exact h.exec_readUnlock he'
  · have hun := h.exec_unlock he'
    rw [h.thr_tid t thr hthr] at ho
    rw [Act.actions, if_pos ⟨hrec,ho⟩] at hun
    rwa [Act.actions, if_neg (by rw [ho]; exact Option.some_ne_none t), if_pos ⟨hrec,ho⟩]
  · rw [h.thr_tid t thr hthr] at hno
    rw [Act.actions, if_neg ho, if_neg hno]
    exact h.setSync_same hclock hread

theorem exec_readLock (h : Sim s c) {a : ℕ} (he : readLockSyncVar s t a = some s') :
    Sim s' (run c (Act.actions s t (.readLock a))) := by
  obtain ⟨thr,thr',hthr,hi,rfl⟩ := readLockSyncVar_eq_some he
  have htick := h.tick hthr hi
  have h1 := htick.setClock_acquire (s.thr_setThr_self hthr) (htick.clock a)
  rw [setThr_setThr] at h1
  exact h1.setSync_same rfl rfl

theorem exec_acquire (h : Sim s c) {a : ℕ} (he : Acquire s t a = some s') :
    Sim s' (run c (Act.actions s t (.acquire a))) := by
  obtain ⟨thr,hthr,rfl⟩ := Acquire_eq_some he
  exact h.setClock_acquire hthr (h.clock a)

theorem exec_acquireGlobal (h : Sim s c) (he : AcquireGlobal s t = some s') :
    Sim s' (run c (Act.actions s t .acquireGlobal)) := by
  obtain ⟨thr,thr',hthr,htid,hfast,hclk,-,rfl⟩ := AcquireGlobal_eq_some he
  refine h.setThr hthr (htid.trans (h.thr_tid t thr hthr)) (by rw [hfast]; exact h.time t thr hthr) fun u hu => ?_
  rw [hclk, h.thread t thr hthr u hu]

theorem exec_release (h : Sim s c) {a : ℕ} (he : Release s t a = some s') :
    Sim s' (run c (Act.actions s t (.release a))) := by
  obtain ⟨thr,hthr,rfl⟩ := Release_eq_some he
  refine (h.setClock hthr).setSync_clock ?_ rfl
  rw [ThreadClock.get_release, h.setClock_eq hthr, ← h.clock a]

theorem exec_releaseStore (h : Sim s c) {a : ℕ} (he : ReleaseStore s t a = some s') :
    Sim s' (run c (Act.actions s t (.releaseStore a))) := by
  obtain ⟨thr,hthr,rfl⟩ := ReleaseStore_eq_some he
  exact (h.setClock hthr).setSync_clock (by rw [ThreadClock.get_ReleaseStore, h.setClock_eq hthr]) rfl

theorem exec_create (h : Sim s c) {detached : Bool} {tid : ℕ} (he : pthread_create s t detached = some (s', tid)) :
    Sim s' (run c (Act.actions s t (.create detached))) := by
  obtain ⟨s₁,tctx,thr,thr',htake,htid,hne,hlt,hthr,hi,hself,hother,htab,-⟩ := pthread_create_eq_some he
  have hnew : newTid s = tid := by rw [newTid, htake]; exact htid
  obtain ⟨-,-,-,-,hzero,-⟩ := takeContext_eq_some htake
  have htick := h.tick hthr hi
  obtain ⟨hpub,hclk⟩ := htick.publish (s.thr_setThr_self hthr) thr'.setClock.setSynchEpoch rfl rfl rfl
  rw [setThr_setThr] at hpub
  have hsim := hpub.replaceContext hself hother htab ⟨htid,hlt⟩ rfl
  have hget : (thr'.setClock.setSynchEpoch.clock.release tctx.sync).get = ((Action.tick t).apply c).thread t := by
    rw [ThreadClock.get_release, hclk, hzero]
    exact bot_sup_eq _
  rw [hget] at hsim
  rw [Act.actions, hnew]
  refine hsim.of_eq ?_
  simp [VectorClock.run, Action.apply, Clocks.setObj, Clocks.setThread]

theorem exec_start (h : Sim s c) {l : StackAndTls} (he : ThreadStart cfg s t l = some s') :
    Sim s' (run c (Act.actions s t (.start l))) := by
  obtain ⟨tctx,x,hcore,hst,hx,hself,hother,htab,-⟩ := ThreadStart_eq_some he
  obtain ⟨htid,hlt⟩ := h.context_tid t tctx hcore
  have hsync : tctx.sync.get = c.obj (.sync t) := by
    rw [← h.sync t, State.syncOf_eq_core, hcore]
  have hthr : ∀ u, u ≠ t → s'.thr u = s.thr u := fun u hu => by
    rw [State.thr_eq_core, State.thr_eq_core, hother u hu]
  have hnew : s'.thr t = some { fast_state := x, fast_synch_epoch := tctx.epoch1 + 1
                                clock := (ThreadClock.empty.set t (tctx.epoch1 + 1)).acquire tctx.sync
                                tid := t, unique_id := tctx.unique_id, is_alive := true, layout := l } := by
    rw [State.thr_eq_core, hself]
    rfl
  rw [Act.actions, hcore]
  simp only [Option.map_some, Option.getD_some, run_cons, run_nil, Action.apply]
  constructor
  · intro u y hy v hv
    rcases eq_or_ne u t with rfl | hu
    · rw [hnew] at hy
      cases hy
      simp [hv, hsync]
    · rw [hthr u hu] at hy
      simpa [hu] using h.thread u y hy v hv
  · intro u y hy
    rcases eq_or_ne u t with rfl | hu
    · rw [hnew] at hy
      cases hy
      simpa using isFast_mk hlt hx
    · rw [hthr u hu] at hy
      simpa [hu] using h.time u y hy
  · intro u y hy
    rcases eq_or_ne u t with rfl | hu
    · rw [hnew] at hy
      cases hy
      rfl
    · rw [hthr u hu] at hy
      exact h.thr_tid u y hy
  · intro u y hy
    rcases eq_or_ne u t with rfl | hu
    · rw [hself] at hy
      cases hy
      exact ⟨htid,hlt⟩
    · rw [hother u hu] at hy
      exact h.context_tid u y hy
  · intro u y hy hne
    rcases eq_or_ne u t with rfl | hu
    · rw [hself] at hy
      cases hy
      rfl
    · rw [hother u hu] at hy
      exact h.running u y hy hne
  · intro a
    rw [htab]
    exact h.clock a
  · intro a
    rw [htab]
    exact h.read_clock a
  · intro u
    rcases eq_or_ne u t with rfl | hu
    · rw [State.syncOf_eq_core, hself]
      exact hsync
    · rw [State.syncOf_eq_core, hother u hu, ← State.syncOf_eq_core]
      exact h.sync u

theorem exec_finish (h : Sim s c) (he : ThreadFinish cfg s t = some s') :
    Sim s' (run c (Act.actions s t .finish)) := by
  obtain ⟨thr,tctx,hthr,hcore,-,himp,htab,-⟩ := ThreadFinish_eq_some he
  have htid := h.context_tid t tctx hcore
  obtain ⟨hother,⟨hdet,hself⟩ | ⟨hdet,thr',hi,hself⟩⟩ := himp htid.1
  · rw [Act.actions, hcore]
    simp only [Option.map_some, hdet, Option.getD_some, if_true]
    have hsim := h.replaceContext hself hother htab htid rfl
    rwa [SyncClock.get_empty] at hsim
  · rw [Act.actions, hcore]
    simp only [Option.map_some, hdet, Option.getD_some, Bool.false_eq_true, if_false]
    have htick := h.tick hthr hi
    obtain ⟨hpub,hclk⟩ := htick.publish (s.thr_setThr_self hthr) thr'.setClock.setSynchEpoch rfl rfl rfl
    rw [setThr_setThr] at hpub
    have hsim := hpub.replaceContext hself
      (fun u hu => by rw [hother u hu, State.core_setThr_of_ne _ _ hu]) htab htid rfl
    have hsync : tctx.sync.get = ((Action.tick t).apply c).obj (.sync t) := by
      rw [← htick.sync t, State.syncOf_setThr, State.syncOf_eq_core, hcore]
    rwa [ThreadClock.get_release, hclk, hsync] at hsim

theorem exec_join (h : Sim s c) {tid : ℕ} (he : ThreadJoin s t tid = some s') :
    Sim s' (run c (Act.actions s t (.join tid))) := by
  obtain ⟨thr,tctx,hthr,-,hcore,⟨hst,rfl⟩ | ⟨hst,-,himp⟩⟩ := ThreadJoin_eq_some he
  · rw [Act.actions, hcore]
    simpa [hst] using h
  · have htid := h.context_tid tid tctx hcore
    obtain ⟨hself,hother,htab,-⟩ := himp htid.1
    rw [Act.actions, hcore]
    simp only [Option.map_some, hst, if_true]
    have hsync : tctx.sync.get = c.obj (.sync tid) := by
      rw [← h.sync tid, State.syncOf_eq_core, hcore]
    have hnone : tctx.thr = none := by
      by_contra hne
      have := h.running tid tctx hcore hne
      rw [hst] at this
      cases this
    have hacq := h.setThr_acquire hthr hsync
    have hsim := hacq.replaceContext hself hother htab htid hnone
    rwa [SyncClock.get_empty] at hsim

theorem exec_detach (h : Sim s c) {tid : ℕ} (he : ThreadDetach s t tid = some s') :
    Sim s' (run c (Act.actions s t (.detach tid))) := by
  obtain ⟨thr,tctx,hthr,-,hcore,⟨hst,rfl⟩ | ⟨hst,himp⟩ | ⟨hst,hself,hother,htab,-⟩⟩ := ThreadDetach_eq_some he
  · rw [Act.actions, hcore]
    simpa [hst] using h
  · have htid := h.context_tid tid tctx hcore
    obtain ⟨hself,hother,htab,-⟩ := himp htid.1
    rw [Act.actions, hcore]
    simp only [Option.map_some, hst, if_true]
    have hnone : tctx.thr = none := by
      by_contra hne
      have := h.running tid tctx hcore hne
      rw [hst] at this
      cases this
    have hsim := h.replaceContext hself hother htab htid hnone
    rwa [SyncClock.get_empty] at hsim
  · rw [Act.actions, hcore]
    simp only [Option.map_some, Option.some.injEq, hst, if_false]
    refine h.congr (fun u => ?_) htab
    rcases eq_or_ne u tid with rfl | hu
    · rw [hself, hcore]
      rfl
    · rw [hother u hu]

/-- Every part of a step does to the clocks what its actions say. -/
theorem exec (h : Sim s c) {a : Act} (he : a.exec cfg s t = some s') : Sim s' (run c (a.actions s t)) := by
  cases a with
  | access addr sizeLog w =>
    simp only [Act.exec, Option.pure_def, Option.bind_eq_bind, Option.bind_eq_some_iff] at he
    obtain ⟨⟨s₁,race⟩,he,h₁⟩ := he
    cases h₁
    exact h.exec_access he
  | lock addr => exact h.exec_lock he
  | unlock addr => exact h.exec_unlock he
  | readLock addr => exact h.exec_readLock he
  | readUnlock addr => exact h.exec_readUnlock he
  | readOrWriteUnlock addr => exact h.exec_readOrWriteUnlock he
  | acquire addr => exact h.exec_acquire he
  | acquireGlobal => exact h.exec_acquireGlobal he
  | release addr => exact h.exec_release he
  | releaseStore addr => exact h.exec_releaseStore he
  | create detached =>
    simp only [Act.exec, Option.pure_def, Option.bind_eq_bind, Option.bind_eq_some_iff] at he
    obtain ⟨⟨s₁,tid⟩,he,h₁⟩ := he
    cases h₁
    exact h.exec_create he
  | start l => exact h.exec_start he
  | finish => exact h.exec_finish he
  | join tid => exact h.exec_join he
  | detach tid => exact h.exec_detach he

end Sim
end CompilerRt.Tsan
