import CompilerRt.Tsan.Clocks

/-! # The lives of threads and their times

A thread id goes through the phases created, running, finished and dead, each time under a new unique id,
and its time never goes back.
-/
namespace CompilerRt.Tsan
open FastState VectorClock

/-- The status and the unique id of a thread context. -/
def State.phase (s : State) (t : ℕ) : Option (ThreadStatus × ℕ) := (s.core t).map fun x => (x.status,x.unique_id)

theorem State.phase_eq_some {s : State} {t u : ℕ} {st : ThreadStatus} (h : s.phase t = some (st,u)) :
    ∃ tctx, s.core t = some tctx ∧ tctx.status = st ∧ tctx.unique_id = u := by
  rw [State.phase, Option.map_eq_some_iff] at h
  obtain ⟨tctx,hcore,heq⟩ := h
  exact ⟨tctx,hcore,congrArg Prod.fst heq,congrArg Prod.snd heq⟩

theorem State.phase_of_core {s : State} {t : ℕ} {tctx : ThreadContext} (h : s.core t = some tctx) :
    s.phase t = some (tctx.status,tctx.unique_id) := by rw [State.phase, h, Option.map_some]

/-- The part works on the state of its thread, on sync variables and on the shadow only. -/
def Act.quiet : Act → Bool
  | create _ | start _ | finish | join _ | detach _ => false
  | _ => true

theorem core_setThr_thr {s : State} {t : ℕ} {thr : ThreadState} (h : s.thr t = some thr) :
    (s.setThr t thr).core = s.core := by
  funext u
  rcases eq_or_ne u t with rfl | hu
  · rw [State.core_setThr_self]
    rw [State.thr_eq_core] at h
    cases hc : s.core u with
    | none => rfl
    | some x =>
      rw [hc, Option.bind_some] at h
      rw [Option.map_some, ← h]
  · rw [State.core_setThr_of_ne _ _ hu]

section Quiet
variable {cfg : Config} {s s' : State} {t : ℕ}

/-- All that is left of the old state, for a part that is quiet. -/
def QuietStep (s s' : State) (t : ℕ) : Prop :=
  ∃ thr thr', s.thr t = some thr ∧ s'.core = (s.setThr t thr').core ∧ s'.thread_seq = s.thread_seq ∧
    s'.unique_thread_seq = s.unique_thread_seq

theorem unlock_quiet {a : ℕ} (h : unlockSyncVar s t a = some s') : QuietStep s s' t := by
  obtain ⟨thr,thr',hthr,-,⟨-,-,rfl⟩ | ⟨-,v,rfl,-⟩⟩ := unlockSyncVar_eq_some h
  · exact ⟨thr,_,hthr,rfl,rfl,rfl⟩
  · exact ⟨thr,_,hthr,rfl,rfl,rfl⟩

theorem readUnlock_quiet {a : ℕ} (h : readUnlockSyncVar s t a = some s') : QuietStep s s' t := by
  obtain ⟨thr,thr',hthr,-,rfl⟩ := readUnlockSyncVar_eq_some h
  exact ⟨thr,_,hthr,rfl,rfl,rfl⟩

theorem exec_quiet {a : Act} (hq : a.quiet = true) (he : a.exec cfg s t = some s') : QuietStep s s' t := by
  cases a with
  | access addr sizeLog w =>
    simp only [Act.exec, Option.pure_def, Option.bind_eq_bind, Option.bind_eq_some_iff] at he
    obtain ⟨⟨s₁,race⟩,he,h₁⟩ := he
    cases h₁
    obtain ⟨thr,hthr,⟨-,rfl,-⟩ | ⟨thr',cur,cur',-,-,-,rfl,-⟩⟩ := MemoryAccess_eq_some he
    · exact ⟨thr,thr,hthr,(core_setThr_thr hthr).symm,rfl,rfl⟩
    · exact ⟨thr,thr',hthr,rfl,rfl,rfl⟩
  | lock addr =>
    obtain ⟨thr,thr',v,hthr,-,-,rfl⟩ := lockSyncVar_eq_some he
    exact ⟨thr,_,hthr,rfl,rfl,rfl⟩
  | unlock addr => exact unlock_quiet he
  | readLock addr =>
    obtain ⟨thr,thr',hthr,-,rfl⟩ := readLockSyncVar_eq_some he
    exact ⟨thr,_,hthr,rfl,rfl,rfl⟩
  | readUnlock addr => exact readUnlock_quiet he
  | readOrWriteUnlock addr =>
    obtain ⟨thr,hthr,⟨-,he⟩ | ⟨-,-,he⟩ | ⟨-,-,v,rfl,-⟩⟩ := readOrWriteUnlockSyncVar_eq_some he
    · exact readUnlock_quiet he
    · exact unlock_quiet he
    · exact ⟨thr,thr,hthr,(core_setThr_thr hthr).symm,rfl,rfl⟩
  | acquire addr =>
    obtain ⟨thr,hthr,rfl⟩ := Acquire_eq_some he
    exact ⟨thr,_,hthr,rfl,rfl,rfl⟩
  | acquireGlobal =>
    obtain ⟨thr,thr',hthr,-,-,-,-,rfl⟩ := AcquireGlobal_eq_some he
    exact ⟨thr,thr',hthr,rfl,rfl,rfl⟩
  | release addr =>
    obtain ⟨thr,hthr,rfl⟩ := Release_eq_some he
    exact ⟨thr,_,hthr,rfl,rfl,rfl⟩
  | releaseStore addr =>
    obtain ⟨thr,hthr,rfl⟩ := ReleaseStore_eq_some he
    exact ⟨thr,_,hthr,rfl,rfl,rfl⟩
  | create _ | start _ | finish | join _ | detach _ => cases hq

theorem QuietStep.phase (h : QuietStep s s' t) : s'.phase = s.phase := by
  obtain ⟨thr,thr',hthr,hcore,-⟩ := h
  funext u
  rw [State.phase, State.phase, hcore]
  rcases eq_or_ne u t with rfl | hu
  · rw [State.core_setThr_self, Option.map_map]
    rfl
  · rw [State.core_setThr_of_ne _ _ hu]

end Quiet

/-! ## Times -/

/-- A context of a thread whose time is `time`. One that does not run resumes after the last epoch of its id. -/
structure Lives (unique_thread_seq time : ℕ) (tctx : ThreadContext) : Prop where
  stopped : tctx.thr = none → time = tctx.epoch1
  has_thr : tctx.status = .Running → tctx.thr ≠ none
  valid : tctx.status ≠ .Invalid
  unique : tctx.unique_id < unique_thread_seq

/-- The clocks are those of `c`, and nobody is ahead of a thread's own time. -/
structure Times (s : State) (c : Clocks ℕ Obj) : Prop extends Sim s c where
  bounded : Bounded c
  fresh : ∀ t, s.thread_seq ≤ t → s.core t = none
  absent : ∀ t, s.core t = none → c.thread t t = 0
  lives : ∀ t tctx, s.core t = some tctx → Lives s.unique_thread_seq (c.thread t t) tctx

/-- The actions that a part can consist of. -/
inductive Act.Does (s : State) (t : ℕ) (a : Act) : Action ℕ Obj → Prop
  | tick : Does s t a (.tick t)
  | acquire (o : Obj) : Does s t a (.acquire t o)
  | release (o : Obj) : Does s t a (.release t o)
  | releaseStore (b : ℕ) (h : a = .releaseStore b) : Does s t a (.store t (.clock b))
  | unlock (b : ℕ) (h : a = .unlock b ∨ a = .readOrWriteUnlock b)
      (hown : (s.synctab b).recursion = 1 ∧ (s.synctab b).owner_tid = some t) : Does s t a (.store t (.clock b))
  | create (detached : Bool) (h : a = .create detached) : Does s t a (.reset (.sync (newTid s)))
  | finish (h : a = .finish) (hdet : ((s.core t).map (·.detached)).getD false = true) : Does s t a (.reset (.sync t))
  | dead (v : ℕ) (h : a = .join v ∨ a = .detach v) (hst : (s.core v).map (·.status) = some .Finished) :
      Does s t a (.reset (.sync v))
  | start (l : StackAndTls) (h : a = .start l) :
      Does s t a (.start t (((s.core t).map (·.epoch1)).getD 0 + 1) (.sync t))
  | learn (h : a = .acquireGlobal) : Does s t a (.learn t fun i => if i < kMaxTid then globalEpoch s i else none)

theorem Act.does_of_mem {s : State} {t : ℕ} {a : Act} {x : Action ℕ Obj} (hx : x ∈ a.actions s t) : a.Does s t x := by
  cases a with
  | access | lock b | readLock b | readUnlock b | acquire b | release b =>
    simp only [actions] at hx
    try split_ifs at hx
    all_goals
      simp only [List.mem_cons, List.not_mem_nil, or_false] at hx
      rcases hx with rfl | rfl | rfl <;> constructor
  | unlock b =>
    simp only [actions] at hx
    split_ifs at hx with h
    · simp only [List.mem_cons, List.not_mem_nil, or_false] at hx
      rcases hx with rfl | rfl
      · exact .tick
      · exact .unlock b (Or.inl rfl) h
    · rw [List.mem_singleton.mp hx]
      exact .tick
  | readOrWriteUnlock b =>
    simp only [actions] at hx
    split_ifs at hx with h0 h
    · simp only [List.mem_cons, List.not_mem_nil, or_false] at hx
      rcases hx with rfl | rfl
      · exact .tick
      · exact .release _
    · simp only [List.mem_cons, List.not_mem_nil, or_false] at hx
      rcases hx with rfl | rfl
      · exact .tick
      · exact .unlock b (Or.inr rfl) h
    · cases hx
  | acquireGlobal =>
    rw [List.mem_singleton.mp hx]
    exact .learn rfl
  | releaseStore b =>
    rw [List.mem_singleton.mp hx]
    exact .releaseStore b rfl
  | create detached =>
    simp only [actions, List.mem_cons, List.not_mem_nil, or_false] at hx
    rcases hx with rfl | rfl | rfl
    · exact .create detached rfl
    · exact .tick
    · exact .release _
  | start l =>
    rw [List.mem_singleton.mp hx]
    exact .start l rfl
  | finish =>
    simp only [actions] at hx
    split_ifs at hx with h
    · rw [List.mem_singleton.mp hx]
      exact .finish rfl h
    · simp only [List.mem_cons, List.not_mem_nil, or_false] at hx
      rcases hx with rfl | rfl
      · exact .tick
      · exact .release _
  | join v =>
    simp only [actions] at hx
    split_ifs at hx with h
    · simp only [List.mem_cons, List.not_mem_nil, or_false] at hx
      rcases hx with rfl | rfl
      · exact .acquire _
      · exact .dead v (Or.inl rfl) h
    · cases hx
  | detach v =>
    simp only [actions] at hx
    split_ifs at hx with h
    · rw [List.mem_singleton.mp hx]
      exact .dead v (Or.inr rfl) h
    · cases hx

/-- A part writes the clock of its own thread only. -/
theorem Act.thread_run_eq {s : State} {t u : ℕ} {a : Act} (c : Clocks ℕ Obj) (hu : u ≠ t) :
    (run c (a.actions s t)).thread u = c.thread u := by
  refine thread_run_of_ne (fun x hx hw => ?_) c
  cases does_of_mem hx with
  | tick | acquire | start | learn => exact hu (Option.some.inj hw).symm
  | _ => cases hw

namespace Times
variable {cfg : Config} {s s' : State} {c : Clocks ℕ Obj} {t : ℕ}

theorem globalEpoch_eq (h : Times s c) {i e : ℕ} (he : globalEpoch s i = some e) : e = c.thread i i := by
  simp only [globalEpoch, Option.pure_def, Option.bind_eq_bind, Option.bind_eq_some_iff] at he
  obtain ⟨tctx,htctx,he⟩ := he
  have hcore := s.core_eq_some htctx
  have hthr : s.thr i = tctx.thr := by rw [State.thr, htctx, Option.bind_eq_bind, Option.bind_some]
  split at he
  · next thr hst hx =>
    cases he
    rw [(h.time i thr (hthr.trans hx)).isWord.epoch]
  · next hno =>
    cases he
    refine ((h.lives i _ hcore).stopped ?_).symm
    by_contra hne
    obtain ⟨x,hx⟩ := Option.ne_none_iff_exists'.mp hne
    exact hno x (h.running i { tctx with dead_next := none } hcore hne) hx

theorem thr_eq_none (h : Times s c) {u : ℕ} {tctx : ThreadContext} (hcore : s.core u = some tctx)
    (hst : tctx.status ≠ .Running) : tctx.thr = none := by
  by_contra hne
  exact hst (h.running u tctx hcore hne)

/-- Nobody gets ahead of a thread, and no time goes back. -/
theorem bounded_exec (h : Times s c) {a : Act} (he : a.exec cfg s t = some s') :
    Bounded (run c (a.actions s t)) ∧ ∀ u, c.thread u u ≤ (run c (a.actions s t)).thread u u := by
  by_cases hl : ∀ x ∈ a.actions s t, ∀ c', x.Legal c'
  · exact ⟨h.bounded.run hl,time_le_run hl c⟩
  simp only [not_forall] at hl
  obtain ⟨x,hx,c',hc'⟩ := hl
  rcases Act.does_of_mem hx with _ | _ | _ | _ | _ | _ | _ | _ | ⟨l,rfl⟩ | rfl
  case start =>
    obtain ⟨tctx,x,hcore,hst,-⟩ := ThreadStart_eq_some he
    have hthr := h.thr_eq_none hcore (by rw [hst]; decide)
    have hlegal : (Action.start t (((s.core t).map (·.epoch1)).getD 0 + 1) (Obj.sync t)).Legal c := by
      change c.thread t t ≤ _
      rw [(h.lives t tctx hcore).stopped hthr, hcore]
      exact Nat.le_succ _
    exact ⟨h.bounded.apply hlegal,time_le_apply hlegal⟩
  case learn =>
    have hlegal : (Action.learn t fun i => if i < kMaxTid then globalEpoch s i else none : Action ℕ Obj).Legal c := by
      intro u e hue
      dsimp only at hue
      split_ifs at hue
      exact (h.globalEpoch_eq hue).le
    exact ⟨h.bounded.apply hlegal,time_le_apply hlegal⟩
  all_goals exact absurd trivial hc'

/-- One context changes, and all other times stay. -/
theorem replace (h : Times s c) {c' : Clocks ℕ Obj} (hsim : Sim s' c') (hb : Bounded c') {v : ℕ} {tctx : ThreadContext}
    (hself : s'.core v = some tctx) (hother : ∀ u, u ≠ v → s'.core u = s.core u)
    (htime : ∀ u, u ≠ v → c'.thread u u = c.thread u u) (hseq : s.thread_seq ≤ s'.thread_seq)
    (hv : v < s'.thread_seq) (huid : s.unique_thread_seq ≤ s'.unique_thread_seq)
    (hlives : Lives s'.unique_thread_seq (c'.thread v v) tctx) : Times s' c' where
  toSim := hsim
  bounded := hb
  fresh u hu := by
    have hne : u ≠ v := by omega
    rw [hother u hne]
    exact h.fresh u (hseq.trans hu)
  absent u hu := by
    rcases eq_or_ne u v with rfl | hne
    · rw [hself] at hu
      cases hu
    · rw [hother u hne] at hu
      rw [htime u hne]
      exact h.absent u hu
  lives u x hx := by
    rcases eq_or_ne u v with rfl | hne
    · rw [hself] at hx
      cases hx
      exact hlives
    · rw [hother u hne] at hx
      obtain ⟨h1,h2,h3,h4⟩ := h.lives u x hx
      exact ⟨fun hn => (htime u hne).trans (h1 hn),h2,h3,h4.trans_le huid⟩

theorem lt_thread_seq (h : Times s c) {v : ℕ} {tctx : ThreadContext} (hcore : s.core v = some tctx) :
    v < s.thread_seq := by
  by_contra hge
  rw [h.fresh v (Nat.not_lt.mp hge)] at hcore
  cases hcore

/-- The thread that a step is of has a running context. -/
theorem core_of_thr (h : Times s c) {thr : ThreadState} (hthr : s.thr t = some thr) :
    ∃ tctx, s.core t = some tctx ∧ tctx.thr = some thr ∧ tctx.status = .Running := by
  rw [State.thr_eq_core, Option.bind_eq_some_iff] at hthr
  obtain ⟨tctx,hcore,hthr⟩ := hthr
  exact ⟨tctx,hcore,hthr,h.running t tctx hcore (by rw [hthr]; exact Option.some_ne_none thr)⟩

theorem setThr (h : Times s c) {c' : Clocks ℕ Obj} (hsim : Sim s' c') (hb : Bounded c')
    (htime : ∀ u, u ≠ t → c'.thread u u = c.thread u u) (hq : QuietStep s s' t) : Times s' c' := by
  obtain ⟨thr,thr',hthr,hcore,hseq,huid⟩ := hq
  obtain ⟨tctx,hctx,-,hst⟩ := h.core_of_thr hthr
  have hself : s'.core t = some { tctx with thr := some thr' } := by
    rw [hcore, State.core_setThr_self, hctx, Option.map_some]
  refine h.replace hsim hb hself (fun u hu => by rw [hcore, State.core_setThr_of_ne _ _ hu]) htime hseq.ge
    (by rw [hseq]; exact h.lt_thread_seq hctx) huid.ge ?_
  obtain ⟨-,-,h3,h4⟩ := h.lives t tctx hctx
  exact ⟨fun hn => absurd hn (Option.some_ne_none thr'),fun _ => Option.some_ne_none thr',h3,huid ▸ h4⟩

/-- The context of a new thread was that of no thread or of a dead one, with the same last epoch. -/
theorem of_takeContext (h : Times s c) {s₁ : State} {tctx : ThreadContext} (htake : takeContext s = some (s₁, tctx)) :
    c.thread tctx.tid tctx.tid = tctx.epoch1 ∧ tctx.tid < s₁.thread_seq ∧ s.thread_seq ≤ s₁.thread_seq ∧
      ∀ x, s.core tctx.tid = some x → x.status = .Dead := by
  obtain ⟨-,-,-,-,-,⟨rfl,hseq⟩ | ⟨hseq,u,old,hold,hdead,htid,hep⟩⟩ := takeContext_eq_some htake
  · have hnone : s.core (ThreadContext.new s.thread_seq).tid = none := h.fresh s.thread_seq le_rfl
    refine ⟨h.absent _ hnone,?_,by omega,fun x hx => ?_⟩
    · change s.thread_seq < _
      omega
    · rw [hnone] at hx
      cases hx
  · have hu : tctx.tid = u := htid.trans (h.context_tid u old hold).1
    rw [hu, hep]
    have hthr := h.thr_eq_none hold (by rw [hdead]; decide)
    refine ⟨(h.lives u old hold).stopped hthr,hseq ▸ h.lt_thread_seq hold,hseq.ge,fun x hx => ?_⟩
    rw [hold] at hx
    cases hx
    exact hdead

/-- The thread has published its clock in a new epoch. -/
theorem published (h : Times s c) {thr thr' : ThreadState} (hthr : s.thr t = some thr)
    (hi : thr.incrementEpoch = some thr') :
    Times (s.setThr t thr'.setClock.setSynchEpoch) ((Action.tick t).apply c) := by
  obtain ⟨hpub,-⟩ := (h.toSim.tick hthr hi).publish (s.thr_setThr_self hthr) thr'.setClock.setSynchEpoch
    rfl rfl rfl
  rw [Sim.setThr_setThr] at hpub
  refine h.setThr hpub (h.bounded.apply trivial) (fun u hu => ?_) ⟨thr,_,hthr,rfl,rfl,rfl⟩
  simp [Action.apply, hu]

theorem exec_create (h : Times s c) {detached : Bool} (he : (Act.create detached).exec cfg s t = some s') :
    Times s' (run c (Act.actions s t (.create detached))) := by
  have hsim := h.toSim.exec he
  have hb := (h.bounded_exec he).1
  simp only [Act.exec, Option.pure_def, Option.bind_eq_bind, Option.bind_eq_some_iff] at he
  obtain ⟨⟨s₂,tid⟩,he,h₂⟩ := he
  cases h₂
  obtain ⟨s₁,tctx,thr,thr',htake,rfl,-,-,hthr,hi,hself,hother,-,-,huid,hseq⟩ := pthread_create_eq_some he
  obtain ⟨hep,hlt,hle,hdead⟩ := h.of_takeContext htake
  obtain ⟨x,hx,-,hst⟩ := h.core_of_thr hthr
  have hne : tctx.tid ≠ t := by
    rintro htid
    have hd := hdead x (by rw [htid]; exact hx)
    rw [hst] at hd
    cases hd
  have hthread : ∀ u, (run c (Act.actions s t (.create detached))).thread u = ((Action.tick t).apply c).thread u :=
    fun _ => rfl
  refine (h.published hthr hi).replace hsim hb hself hother (fun u _ => by rw [hthread]) (by rw [hseq]; exact hle)
    (by rw [hseq]; exact hlt) (by rw [huid]; exact Nat.le_succ _) ⟨fun _ => ?_,fun hr => ?_,by simp,?_⟩
  · simpa [hthread, Action.apply, hne] using hep
  · cases hr
  · dsimp only
    omega

theorem exec_start (h : Times s c) {l : StackAndTls} (he : (Act.start l).exec cfg s t = some s') :
    Times s' (run c (Act.actions s t (.start l))) := by
  have hsim := h.toSim.exec he
  have hb := (h.bounded_exec he).1
  obtain ⟨tctx,x,hcore,hst,-,hself,hother,-,-,huid,hseq⟩ := ThreadStart_eq_some he
  refine h.replace hsim hb hself hother (fun u hu => by rw [Act.thread_run_eq c hu]) hseq.ge
    (by rw [hseq]; exact h.lt_thread_seq hcore) huid.ge ⟨fun hn => ?_,fun _ => Option.some_ne_none _,by simp,?_⟩
  · cases hn
  · rw [huid]
    exact (h.lives t tctx hcore).unique

theorem exec_finish (h : Times s c) (he : Act.finish.exec cfg s t = some s') :
    Times s' (run c (Act.actions s t .finish)) := by
  have hsim := h.toSim.exec he
  have hb := (h.bounded_exec he).1
  obtain ⟨thr,tctx,hthr,hcore,-,himp,-,-,huid,hseq⟩ := ThreadFinish_eq_some he
  have htime := h.time t thr hthr
  have hlt := h.lt_thread_seq hcore
  have hlives := (h.lives t tctx hcore).unique
  rw [← huid] at hlives
  obtain ⟨hother,hcase⟩ := himp (h.context_tid t tctx hcore).1
  have hrest : ∀ u, u ≠ t → (run c (Act.actions s t .finish)).thread u u = c.thread u u := fun u hu => by
    rw [Act.thread_run_eq c hu]
  rcases hcase with ⟨hdet,hself⟩ | ⟨hdet,thr',hi,hself⟩
  · refine h.replace hsim hb hself hother hrest hseq.ge (by rw [hseq]; exact hlt) huid.ge
      ⟨fun _ => ?_,fun hr => ?_,by simp,hlives⟩
    · rw [Act.actions, hcore]
      simp [hdet, Action.apply, htime.isWord.epoch]
    · cases hr
  · refine h.replace hsim hb hself hother hrest hseq.ge (by rw [hseq]; exact hlt) huid.ge
      ⟨fun _ => ?_,fun hr => ?_,by simp,hlives⟩
    · obtain ⟨x,hx,rfl⟩ := incrementEpoch_eq_some hi
      rw [Act.actions, hcore]
      simp [hdet, Action.apply, ThreadState.setSynchEpoch, ThreadState.setClock,
        (htime.incrementEpoch hx).isWord.epoch]
    · cases hr

/-- The context of a finished thread is put to the dead list. -/
theorem replace_dead (h : Times s c) {c' : Clocks ℕ Obj} (hsim : Sim s' c') (hb : Bounded c') {v : ℕ}
    {tctx : ThreadContext} (hcore : s.core v = some tctx)
    (hself : s'.core v = some { tctx with status := .Dead, sync := .empty })
    (hother : ∀ u, u ≠ v → s'.core u = s.core u) (htime : ∀ u, c'.thread u u = c.thread u u)
    (hseq : s'.thread_seq = s.thread_seq) (huid : s'.unique_thread_seq = s.unique_thread_seq) : Times s' c' := by
  refine h.replace hsim hb hself hother (fun u _ => htime u) hseq.ge (by rw [hseq]; exact h.lt_thread_seq hcore)
    huid.ge ⟨fun hn => ?_,fun hr => ?_,by simp,?_⟩
  · rw [htime]
    exact (h.lives v tctx hcore).stopped hn
  · cases hr
  · rw [huid]
    exact (h.lives v tctx hcore).unique

theorem exec_join (h : Times s c) {v : ℕ} (he : (Act.join v).exec cfg s t = some s') :
    Times s' (run c (Act.actions s t (.join v))) := by
  have hsim := h.toSim.exec he
  have hb := (h.bounded_exec he).1
  obtain ⟨thr,tctx,hthr,-,hcore,⟨hst,rfl⟩ | ⟨hst,-,himp⟩⟩ := ThreadJoin_eq_some he
  · exact absurd hst (h.lives v tctx hcore).valid
  · obtain ⟨hself,hother,-,-,huid,hseq⟩ := himp (h.context_tid v tctx hcore).1
    have hsync : tctx.sync.get = c.obj (.sync v) := by
      rw [← h.sync v, State.syncOf_eq_core, hcore]
    have hacq : Times (s.setThr t (thr.acquire tctx.sync)) ((Action.acquire t (Obj.sync v)).apply c) := by
      refine h.setThr (h.toSim.setThr_acquire hthr hsync) (h.bounded.apply trivial) (fun u hu => ?_)
        ⟨thr,_,hthr,rfl,rfl,rfl⟩
      simp [Action.apply, hu]
    obtain ⟨x,hx,-,hrun⟩ := h.core_of_thr hthr
    have hne : v ≠ t := by
      rintro rfl
      rw [hx, Option.some.injEq] at hcore
      rw [← hcore, hrun] at hst
      cases hst
    have hcore' : (s.setThr t (thr.acquire tctx.sync)).core v = some tctx := by
      rw [State.core_setThr_of_ne _ _ hne, hcore]
    refine hacq.replace_dead hsim hb hcore' hself hother (fun u => ?_) hseq huid
    rw [Act.actions, hcore]
    simp [hst, Action.apply]

theorem exec_detach (h : Times s c) {v : ℕ} (he : (Act.detach v).exec cfg s t = some s') :
    Times s' (run c (Act.actions s t (.detach v))) := by
  have hsim := h.toSim.exec he
  have hb := (h.bounded_exec he).1
  obtain ⟨thr,tctx,hthr,-,hcore,⟨hst,rfl⟩ | ⟨hst,himp⟩ | ⟨hst,hself,hother,-,-,huid,hseq⟩⟩ := ThreadDetach_eq_some he
  · exact absurd hst (h.lives v tctx hcore).valid
  · obtain ⟨hself,hother,-,-,huid,hseq⟩ := himp (h.context_tid v tctx hcore).1
    refine h.replace_dead hsim hb hcore hself hother (fun u => ?_) hseq huid
    rw [Act.actions, hcore]
    simp [hst, Action.apply]
  · have htime : ∀ u, (run c (Act.actions s t (.detach v))).thread u u = c.thread u u := fun u => by
      rw [Act.actions, hcore]
      simp [hst]
    obtain ⟨h1,h2,h3,h4⟩ := h.lives v tctx hcore
    exact h.replace hsim hb hself hother (fun u _ => htime u) hseq.ge (by rw [hseq]; exact h.lt_thread_seq hcore)
      huid.ge ⟨fun hn => (htime v).trans (h1 hn),h2,h3,huid ▸ h4⟩

theorem exec (h : Times s c) {a : Act} (he : a.exec cfg s t = some s') : Times s' (run c (a.actions s t)) := by
  by_cases hq : a.quiet = true
  · exact h.setThr (h.toSim.exec he) (h.bounded_exec he).1 (fun u hu => by rw [Act.thread_run_eq c hu])
      (exec_quiet hq he)
  · cases a with
    | create detached => exact h.exec_create he
    | start l => exact h.exec_start he
    | finish => exact h.exec_finish he
    | join v => exact h.exec_join he
    | detach v => exact h.exec_detach he
    | _ => exact absurd rfl hq

end Times

/-! ## Phases -/

/-- What a part does to the phases of the threads. -/
def Act.Phases (s s' : State) (t : ℕ) : Act → Prop
  | create _ => (∀ st u, s.phase (newTid s) = some (st,u) → st = .Dead) ∧
      s'.phase = Function.update s.phase (newTid s) (some (.Created,s.unique_thread_seq)) ∧
      s'.unique_thread_seq = s.unique_thread_seq + 1
  | start _ => ∃ u, s.phase t = some (.Created,u) ∧ s'.phase = Function.update s.phase t (some (.Running,u))
  | finish => ∃ st u, s.phase t = some (.Running,u) ∧ s'.phase = Function.update s.phase t (some (st,u)) ∧
      (st = .Dead ∨ st = .Finished ∧ actions s t .finish = [.tick t,.release t (.sync t)])
  | join v => ∃ u, s.phase v = some (.Finished,u) ∧ s'.phase = Function.update s.phase v (some (.Dead,u))
  | detach v => s'.phase = s.phase ∧ actions s t (.detach v) = [] ∨
      ∃ u, s.phase v = some (.Finished,u) ∧ s'.phase = Function.update s.phase v (some (.Dead,u))
  | _ => s'.phase = s.phase

theorem phase_update {s s' : State} {v : ℕ} {tctx : ThreadContext} (hself : s'.core v = some tctx)
    (hother : ∀ u, u ≠ v → s'.core u = s.core u) :
    s'.phase = Function.update s.phase v (some (tctx.status,tctx.unique_id)) := by
  funext u
  rcases eq_or_ne u v with rfl | hu
  · rw [Function.update_self, State.phase_of_core hself]
  · rw [Function.update_of_ne hu, State.phase, State.phase, hother u hu]

theorem phase_setThr {s : State} {t : ℕ} {thr : ThreadState} (x : ThreadState) (h : s.thr t = some thr) :
    (s.setThr t x).phase = s.phase :=
  QuietStep.phase ⟨thr,x,h,rfl,rfl,rfl⟩

namespace Times
variable {cfg : Config} {s s' : State} {c : Clocks ℕ Obj} {t : ℕ}

theorem phases (h : Times s c) {a : Act} (he : a.exec cfg s t = some s') : a.Phases s s' t := by
  cases a with
  | create detached =>
    simp only [Act.exec, Option.pure_def, Option.bind_eq_bind, Option.bind_eq_some_iff] at he
    obtain ⟨⟨s₂,tid⟩,he,h₂⟩ := he
    cases h₂
    obtain ⟨s₁,tctx,thr,thr',htake,rfl,-,-,hthr,-,hself,hother,-,-,huid,-⟩ := pthread_create_eq_some he
    have hnew : newTid s = tctx.tid := by rw [newTid, htake]
    refine ⟨fun st u hp => ?_,?_,huid⟩
    · obtain ⟨x,hx,rfl,-⟩ := State.phase_eq_some hp
      exact (h.of_takeContext htake).2.2.2 x (hnew ▸ hx)
    · rw [hnew, phase_update hself hother, phase_setThr _ hthr]
  | start l =>
    obtain ⟨tctx,x,hcore,hst,-,hself,hother,-⟩ := ThreadStart_eq_some he
    exact ⟨tctx.unique_id,by rw [State.phase_of_core hcore, hst],phase_update hself hother⟩
  | finish =>
    obtain ⟨thr,tctx,hthr,hcore,hst,himp,-⟩ := ThreadFinish_eq_some he
    obtain ⟨hother,⟨-,hself⟩ | ⟨hdet,thr',-,hself⟩⟩ := himp (h.context_tid t tctx hcore).1
    · exact ⟨.Dead,tctx.unique_id,by rw [State.phase_of_core hcore, hst],phase_update hself hother,Or.inl rfl⟩
    · refine ⟨.Finished,tctx.unique_id,by rw [State.phase_of_core hcore, hst],phase_update hself hother,Or.inr ⟨rfl,?_⟩⟩
      rw [Act.actions, hcore]
      simp [hdet]
  | join v =>
    obtain ⟨thr,tctx,hthr,-,hcore,⟨hst,rfl⟩ | ⟨hst,-,himp⟩⟩ := ThreadJoin_eq_some he
    · exact absurd hst (h.lives v tctx hcore).valid
    · obtain ⟨hself,hother,-⟩ := himp (h.context_tid v tctx hcore).1
      exact ⟨tctx.unique_id,by rw [State.phase_of_core hcore, hst],
        by rw [phase_update hself hother, phase_setThr _ hthr]⟩
  | detach v =>
    obtain ⟨thr,tctx,hthr,-,hcore,⟨hst,rfl⟩ | ⟨hst,himp⟩ | ⟨hst,hself,hother,-⟩⟩ := ThreadDetach_eq_some he
    · exact absurd hst (h.lives v tctx hcore).valid
    · obtain ⟨hself,hother,-⟩ := himp (h.context_tid v tctx hcore).1
      exact Or.inr ⟨tctx.unique_id,by rw [State.phase_of_core hcore, hst],phase_update hself hother⟩
    · refine Or.inl ⟨?_,?_⟩
      · rw [phase_update hself hother, ← State.phase_of_core hcore, Function.update_eq_self]
      · rw [Act.actions, hcore]
        simp [hst]
  | _ => exact (exec_quiet rfl he).phase

/-- A thread that takes a step, unless it is its first, is running. -/
theorem phase_running (h : Times s c) {a : Act} (he : a.exec cfg s t = some s') (hs : ∀ l, a ≠ .start l) :
    ∃ u, s.phase t = some (.Running,u) := by
  have hthr : ∃ thr, s.thr t = some thr := by
    by_cases hq : a.quiet = true
    · obtain ⟨thr,-,hthr,-⟩ := exec_quiet hq he
      exact ⟨thr,hthr⟩
    · cases a with
      | create detached =>
        simp only [Act.exec, Option.pure_def, Option.bind_eq_bind, Option.bind_eq_some_iff] at he
        obtain ⟨⟨s₂,tid⟩,he,-⟩ := he
        obtain ⟨s₁,tctx,thr,thr',-,-,-,-,hthr,-⟩ := pthread_create_eq_some he
        exact ⟨thr,hthr⟩
      | start l => exact absurd rfl (hs l)
      | finish =>
        obtain ⟨thr,tctx,hthr,-⟩ := ThreadFinish_eq_some he
        exact ⟨thr,hthr⟩
      | join v =>
        obtain ⟨thr,tctx,hthr,-⟩ := ThreadJoin_eq_some he
        exact ⟨thr,hthr⟩
      | detach v =>
        obtain ⟨thr,tctx,hthr,-⟩ := ThreadDetach_eq_some he
        exact ⟨thr,hthr⟩
      | _ => exact absurd rfl hq
  obtain ⟨thr,hthr⟩ := hthr
  obtain ⟨tctx,hcore,-,hst⟩ := h.core_of_thr hthr
  exact ⟨tctx.unique_id,by rw [State.phase_of_core hcore, hst]⟩

end Times

/-! ## The first thread -/

/-- The state in which thread 0 is created and not yet started. -/
def State.created : State :=
  (countCreated { State.empty with thread_seq := 1 }).setContext 0
    { ThreadContext.new 0 with status := .Created, detached := true }

theorem Initialize_eq_some {cfg : Config} {l : StackAndTls} {s : State} (h : Initialize cfg l = some s) :
    (Act.start l).exec cfg .created 0 = some s := by
  have hc : ThreadCreate .empty 0 true = some (.created, 0) := by
    rw [ThreadCreate, takeContext, if_neg, Option.bind_eq_bind, Option.bind_some]
    · rfl
    · simp [State.empty, kThreadQuarantineSize, kMaxTid]
  rw [Initialize, hc, Option.bind_eq_bind, Option.bind_some] at h
  exact h

def noClocks : Clocks ℕ Obj := ⟨fun _ => 0,fun _ => 0⟩

theorem core_created (u : ℕ) : State.created.core u =
    if u = 0 then some { ThreadContext.new 0 with status := .Created, detached := true } else none := by
  rcases eq_or_ne u 0 with rfl | hu
  · exact State.core_setContext_self _ _ _
  · rw [if_neg hu, State.created, State.core_setContext_of_ne _ _ hu]
    rfl

theorem thr_created (u : ℕ) : State.created.thr u = none := by
  rw [State.thr_eq_core, core_created]
  split_ifs <;> rfl

theorem times_created : Times .created noClocks where
  thread u x hx := by
    rw [thr_created] at hx
    cases hx
  time u x hx := by
    rw [thr_created] at hx
    cases hx
  thr_tid u x hx := by
    rw [thr_created] at hx
    cases hx
  context_tid u x hx := by
    rw [core_created] at hx
    split_ifs at hx with hu
    cases hx
    exact ⟨hu.symm,hu ▸ Nat.two_pow_pos kTidBits⟩
  running u x hx hne := by
    rw [core_created] at hx
    split_ifs at hx
    cases hx
    exact absurd rfl hne
  clock _ := SyncClock.get_empty
  read_clock _ := SyncClock.get_empty
  sync u := by
    rw [State.syncOf_eq_core, core_created]
    split_ifs
    · exact SyncClock.get_empty
    · rfl
  bounded _ := ⟨fun _ => le_rfl,fun _ => le_rfl⟩
  fresh u hu := by
    rw [core_created, if_neg]
    change 1 ≤ u at hu
    omega
  absent _ _ := rfl
  lives u x hx := by
    rw [core_created] at hx
    split_ifs at hx
    cases hx
    refine ⟨fun _ => rfl,fun hr => ?_,by simp,Nat.zero_lt_one⟩
    cases hr

end CompilerRt.Tsan
