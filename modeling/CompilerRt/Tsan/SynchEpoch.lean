import CompilerRt.Tsan.Scan
import CompilerRt.Tsan.Times

/-! # The synchronization epoch

An access is not recorded when the cell holds a word of the same thread from its current synchronization
epoch. For this to be sound nobody else may know of the time of that word. All operations that publish a
clock begin a new synchronization epoch, but for `Release` and `ReleaseStore`.
-/
namespace CompilerRt.Tsan
open FastState Shadow VectorClock

/-- A word of the running thread `t` in the shadow that still stands for accesses that are not recorded. -/
def State.InSynchEpoch (s : State) (t : ℕ) (x : u64) : Prop :=
  ∃ thr, s.thr t = some thr ∧ (∃ cell i, s.shadow cell i = x) ∧ IsZero x = false ∧ tid x = t ∧
    OldIsInSameSynchEpoch x thr = true

/-- No sync clock and no clock of another thread knows of the time of such a word. -/
structure State.Unpublished (s : State) : Prop where
  clock : ∀ t x, s.InSynchEpoch t x → ∀ a, (s.synctab a).clock.get t < epoch x
  read_clock : ∀ t x, s.InSynchEpoch t x → ∀ a, (s.synctab a).read_clock.get t < epoch x
  sync : ∀ t x, s.InSynchEpoch t x → ∀ u tctx, s.threads u = some tctx → tctx.sync.get t < epoch x
  thread : ∀ t x, s.InSynchEpoch t x → ∀ u thr, u ≠ t → s.thr u = some thr → thr.clock.get t < epoch x

/-- A release that publishes such a word without a new synchronization epoch. -/
def Op.PublishesWord (s : State) (t : ℕ) : Op → Prop
  | Release _ | ReleaseStore _ => ∃ x, s.InSynchEpoch t x
  | _ => False

/-- The property holds in every state of the run. -/
def AllStates (cfg : Config) (P : State → Prop) : State → List (ℕ × Op) → Prop
  | s, [] => P s
  | s, (t,op) :: ops => P s ∧ ∀ s', op.step cfg s t = some s' → AllStates cfg P s' ops

/-- The property holds of every step of the run. -/
def AllSteps (cfg : Config) (P : State → ℕ → Op → Prop) : State → List (ℕ × Op) → Prop
  | _, [] => True
  | s, (t,op) :: ops => ∀ s', op.step cfg s t = some s' → P s t op ∧ AllSteps cfg P s' ops

/-! ## What a step does to the synchronization epochs -/

section Step
variable {cfg : Config} {s s' : State} {c : Clocks ℕ Obj} {t : ℕ} {a : Act}

/-- The thread's synchronization epoch stays, and either nothing is published or it is a release; or a new one
begins with an epoch that was not yet there. -/
def NewSynchEpoch (c : Clocks ℕ Obj) (s : State) (t : ℕ) (a : Act) (thr' : ThreadState) : Prop :=
  c.thread t t < thr'.fast_synch_epoch ∨
    ∃ thr, s.thr t = some thr ∧ thr'.fast_synch_epoch = thr.fast_synch_epoch ∧
      ((∀ x ∈ a.actions s t, x.publishes = none) ∨ ∃ b, a = .release b ∨ a = .releaseStore b)

theorem Times.lt_synchEpoch (h : Times s c) {thr thr' : ThreadState} (hthr : s.thr t = some thr)
    (hi : thr.incrementEpoch = some thr') : c.thread t t < thr'.setClock.setSynchEpoch.fast_synch_epoch := by
  obtain ⟨x,hx,rfl⟩ := incrementEpoch_eq_some hi
  have hep := ((h.time t thr hthr).incrementEpoch hx).isWord.epoch
  change _ < epoch x
  omega

theorem fast_synch_epoch_of_increment {thr thr' : ThreadState} (hi : thr.incrementEpoch = some thr') :
    thr'.fast_synch_epoch = thr.fast_synch_epoch := by
  obtain ⟨x,-,rfl⟩ := incrementEpoch_eq_some hi
  rfl

theorem incrementEpoch_tid {thr thr' : ThreadState} (hi : thr.incrementEpoch = some thr') : thr'.tid = thr.tid := by
  obtain ⟨x,-,rfl⟩ := incrementEpoch_eq_some hi
  rfl

theorem quiet_newSynchEpoch (h : Times s c) (hq : a.quiet = true) (he : a.exec cfg s t = some s')
    {thr' : ThreadState} (hv : s'.thr t = some thr') : NewSynchEpoch c s t a thr' := by
  have hnone : ∀ {as : List (Action ℕ Obj)}, (∀ x ∈ as, x = .tick t ∨ ∃ o, x = .acquire t o) →
      ∀ x ∈ as, x.publishes = none := by
    intro as has x hx
    rcases has x hx with rfl | ⟨o,rfl⟩ <;> rfl
  cases a with
  | access addr n w =>
    simp only [Act.exec, Option.pure_def, Option.bind_eq_bind, Option.bind_eq_some_iff] at he
    obtain ⟨⟨s₁,race⟩,he,h₁⟩ := he
    cases h₁
    obtain ⟨thr,thr'',cur,hthr,hthr',-,hep,-⟩ := access_shadow h.toSim he
    rw [hthr'] at hv
    cases hv
    exact Or.inr ⟨thr,hthr,hep,Or.inl (hnone (by simp [Act.actions]))⟩
  | lock b =>
    obtain ⟨thr,x,v,hthr,hi,-,rfl⟩ := lockSyncVar_eq_some he
    rw [State.thr_setSync, State.thr_setThr_self _ hthr] at hv
    refine Or.inr ⟨thr,hthr,?_,Or.inl (hnone ?_)⟩
    · rw [← fast_synch_epoch_of_increment hi, ← Option.some.inj hv]
      split_ifs <;> rfl
    · rw [Act.actions]
      split_ifs <;> simp
  | unlock b =>
    obtain ⟨thr,x,hthr,hi,⟨-,-,rfl⟩ | ⟨hno,v,rfl,-⟩⟩ := unlockSyncVar_eq_some he
    · rw [State.thr_setSync, State.thr_setThr_self _ hthr] at hv
      cases hv
      exact Or.inl (h.lt_synchEpoch hthr hi)
    · rw [State.thr_setSync, State.thr_setThr_self _ hthr] at hv
      cases hv
      rw [incrementEpoch_tid hi, h.thr_tid t thr hthr] at hno
      refine Or.inr ⟨thr,hthr,fast_synch_epoch_of_increment hi,Or.inl (hnone ?_)⟩
      rw [Act.actions, if_neg hno]
      simp
  | readLock b =>
    obtain ⟨thr,x,hthr,hi,rfl⟩ := readLockSyncVar_eq_some he
    rw [State.thr_setSync, State.thr_setThr_self _ hthr] at hv
    cases hv
    have hep := fast_synch_epoch_of_increment hi
    exact Or.inr ⟨thr,hthr,hep,Or.inl (hnone (by simp [Act.actions]))⟩
  | readUnlock b =>
    obtain ⟨thr,x,hthr,hi,rfl⟩ := readUnlockSyncVar_eq_some he
    rw [State.thr_setSync, State.thr_setThr_self _ hthr] at hv
    cases hv
    exact Or.inl (h.lt_synchEpoch hthr hi)
  | readOrWriteUnlock b =>
    obtain ⟨thr,hthr,⟨-,he'⟩ | ⟨ho,hrec,he'⟩ | ⟨ho,hno,v,rfl,-⟩⟩ := readOrWriteUnlockSyncVar_eq_some he
    · obtain ⟨thr,x,hthr,hi,rfl⟩ := readUnlockSyncVar_eq_some he'
      rw [State.thr_setSync, State.thr_setThr_self _ hthr] at hv
      exact Option.some.inj hv ▸ Or.inl (h.lt_synchEpoch hthr hi)
    · obtain ⟨thr₁,x,hthr₁,hi,⟨-,-,rfl⟩ | ⟨hno,-⟩⟩ := unlockSyncVar_eq_some he'
      · rw [State.thr_setSync, State.thr_setThr_self _ hthr] at hv
        cases hv
        exact Or.inl (h.lt_synchEpoch hthr₁ hi)
      · rw [incrementEpoch_tid hi, h.thr_tid t thr₁ hthr₁] at hno
        rw [h.thr_tid t thr hthr] at ho
        exact absurd ⟨hrec,ho⟩ hno
    · rw [State.thr_setSync, hthr, Option.some.injEq] at hv
      rw [h.thr_tid t thr hthr] at hno
      refine Or.inr ⟨thr,hthr,by rw [hv],Or.inl ?_⟩
      rw [Act.actions, if_neg ho, if_neg hno]
      simp
  | acquire b =>
    obtain ⟨thr,hthr,rfl⟩ := Acquire_eq_some he
    rw [State.thr_setThr_self _ hthr] at hv
    cases hv
    exact Or.inr ⟨thr,hthr,rfl,Or.inl (hnone (by simp [Act.actions]))⟩
  | acquireGlobal =>
    simp only [Act.exec, AcquireGlobal, Option.pure_def, Option.bind_eq_bind, Option.bind_eq_some_iff] at he
    obtain ⟨thr,hthr,he⟩ := he
    refine Or.inr ⟨thr,hthr,?_,Or.inl (by simp [Act.actions, Action.publishes])⟩
    generalize kMaxTid = n at he
    cases he
    rw [State.thr_setThr_self _ hthr] at hv
    cases hv
    rfl
  | release b =>
    obtain ⟨thr,hthr,rfl⟩ := Release_eq_some he
    rw [State.thr_setSync, State.thr_setThr_self _ hthr] at hv
    cases hv
    exact Or.inr ⟨thr,hthr,rfl,Or.inr ⟨b,Or.inl rfl⟩⟩
  | releaseStore b =>
    obtain ⟨thr,hthr,rfl⟩ := ReleaseStore_eq_some he
    rw [State.thr_setSync, State.thr_setThr_self _ hthr] at hv
    cases hv
    exact Or.inr ⟨thr,hthr,rfl,Or.inr ⟨b,Or.inr rfl⟩⟩
  | create _ | start _ | finish | join _ | detach _ => cases hq

theorem thr_of_core_eq {u : ℕ} (h : s'.core u = s.core u) : s'.thr u = s.thr u := by
  rw [State.thr_eq_core, State.thr_eq_core, h]

/-- The thread state of a running thread after a part of a step. -/
theorem Times.thr_cases (h : Times s c) (he : a.exec cfg s t = some s') {v : ℕ} {thr' : ThreadState}
    (hv : s'.thr v = some thr') : v ≠ t ∧ s.thr v = some thr' ∨ v = t ∧ NewSynchEpoch c s t a thr' := by
  by_cases hq : a.quiet = true
  · rcases eq_or_ne v t with rfl | hne
    · exact Or.inr ⟨rfl,quiet_newSynchEpoch h hq he hv⟩
    · obtain ⟨thr,x,-,hcore,-⟩ := exec_quiet hq he
      have heq : s'.core v = s.core v := by rw [hcore, State.core_setThr_of_ne _ _ hne]
      exact Or.inl ⟨hne,thr_of_core_eq heq ▸ hv⟩
  have hself : ∀ {w : ℕ} {tctx : ThreadContext}, s'.core w = some tctx → tctx.thr = none → v ≠ w := by
    rintro w tctx hcore hnone rfl
    rw [State.thr_eq_core, hcore, Option.bind_some, hnone] at hv
    cases hv
  cases a with
  | create d =>
    simp only [Act.exec, Option.pure_def, Option.bind_eq_bind, Option.bind_eq_some_iff] at he
    obtain ⟨⟨s₂,tid⟩,he,h₂⟩ := he
    cases h₂
    obtain ⟨s₁,tctx,thr,x,-,-,-,-,hthr,hi,hcore,hother,-⟩ := pthread_create_eq_some he
    have hne := hself hcore rfl
    rw [thr_of_core_eq (hother v hne)] at hv
    rcases eq_or_ne v t with rfl | hvt
    · rw [State.thr_setThr_self _ hthr] at hv
      cases hv
      exact Or.inr ⟨rfl,Or.inl (h.lt_synchEpoch hthr hi)⟩
    · rw [State.thr_setThr_of_ne _ _ hvt] at hv
      exact Or.inl ⟨hvt,hv⟩
  | start l =>
    obtain ⟨tctx,x,hcore,hst,-,hnew,hother,-⟩ := ThreadStart_eq_some he
    rcases eq_or_ne v t with rfl | hvt
    · rw [State.thr_eq_core, hnew] at hv
      cases hv
      refine Or.inr ⟨rfl,Or.inl ?_⟩
      rw [(h.lives v tctx hcore).stopped (h.thr_eq_none hcore (by rw [hst]; decide))]
      exact Nat.lt_succ_self _
    · exact Or.inl ⟨hvt,thr_of_core_eq (hother v hvt) ▸ hv⟩
  | finish =>
    obtain ⟨thr,tctx,-,hcore,-,himp,-⟩ := ThreadFinish_eq_some he
    obtain ⟨hother,⟨-,hnew⟩ | ⟨-,x,-,hnew⟩⟩ := himp (h.context_tid t tctx hcore).1
    · have hvt := hself hnew rfl
      exact Or.inl ⟨hvt,thr_of_core_eq (hother v hvt) ▸ hv⟩
    · have hvt := hself hnew rfl
      exact Or.inl ⟨hvt,thr_of_core_eq (hother v hvt) ▸ hv⟩
  | join w =>
    obtain ⟨thr,tctx,hthr,-,hcore,⟨hst,-⟩ | ⟨hst,-,himp⟩⟩ := ThreadJoin_eq_some he
    · exact absurd hst (h.lives w tctx hcore).valid
    · obtain ⟨hnew,hother,-⟩ := himp (h.context_tid w tctx hcore).1
      have hnone' : tctx.thr = none := h.thr_eq_none hcore (by rw [hst]; decide)
      have hne := hself hnew hnone'
      rw [thr_of_core_eq (hother v hne)] at hv
      rcases eq_or_ne v t with rfl | hvt
      · rw [State.thr_setThr_self _ hthr] at hv
        cases hv
        refine Or.inr ⟨rfl,Or.inr ⟨thr,hthr,rfl,Or.inl ?_⟩⟩
        rw [Act.actions]
        split_ifs <;> simp [Action.publishes]
      · rw [State.thr_setThr_of_ne _ _ hvt] at hv
        exact Or.inl ⟨hvt,hv⟩
  | detach w =>
    have hnone : ∀ x ∈ (Act.detach w).actions s t, x.publishes = none := by
      rw [Act.actions]
      split_ifs <;> simp [Action.publishes]
    have hkept : s.thr v = some thr' → v ≠ t ∧ s.thr v = some thr' ∨ v = t ∧ NewSynchEpoch c s t (.detach w) thr' := by
      intro hkept
      rcases eq_or_ne v t with rfl | hvt
      · exact Or.inr ⟨rfl,Or.inr ⟨thr',hkept,rfl,Or.inl hnone⟩⟩
      · exact Or.inl ⟨hvt,hkept⟩
    obtain ⟨thr,tctx,-,-,hcore,⟨hst,-⟩ | ⟨hst,himp⟩ | ⟨-,hnew,hother,-⟩⟩ := ThreadDetach_eq_some he
    · exact absurd hst (h.lives w tctx hcore).valid
    · obtain ⟨hnew,hother,-⟩ := himp (h.context_tid w tctx hcore).1
      have hnone' : tctx.thr = none := h.thr_eq_none hcore (by rw [hst]; decide)
      have hne := hself hnew hnone'
      exact hkept (thr_of_core_eq (hother v hne) ▸ hv)
    · refine hkept ?_
      rcases eq_or_ne v w with rfl | hne
      · rw [State.thr_eq_core, hnew] at hv
        rw [State.thr_eq_core, hcore]
        exact hv
      · exact thr_of_core_eq (hother v hne) ▸ hv
  | _ => exact absurd rfl hq

end Step

/-! ## Words and what is known of their times -/

/-- The times of the words in the shadow have come. -/
structure Words (s : State) (c : Clocks ℕ Obj) : Prop extends Times s c where
  word : ∀ cell i, s.shadow cell i ≠ 0 →
    0 < epoch (s.shadow cell i) ∧ epoch (s.shadow cell i) ≤ c.thread (tid (s.shadow cell i)) (tid (s.shadow cell i))

/-- Nobody knows of the times of the words that still stand for other accesses. -/
structure Fresh (s : State) (c : Clocks ℕ Obj) : Prop extends Words s c where
  below : ∀ t x, s.InSynchEpoch t x → Below c t (epoch x)

section Step
variable {cfg : Config} {s s' : State} {c : Clocks ℕ Obj} {t : ℕ} {a : Act}

/-- A word after a part of a step was there before, or is that of the access. -/
theorem Words.word_cases (h : Words s c) (he : a.exec cfg s t = some s') {cell i : ℕ} (hne : s'.shadow cell i ≠ 0) :
    s'.shadow cell i = s.shadow cell i ∨ (∃ addr n w, a = .access addr n w) ∧ tid (s'.shadow cell i) = t ∧
      epoch (s'.shadow cell i) = c.thread t t + 1 := by
  by_cases ha : ∃ addr n w, a = .access addr n w
  · obtain ⟨addr,n,w,rfl⟩ := ha
    simp only [Act.exec, Option.pure_def, Option.bind_eq_bind, Option.bind_eq_some_iff] at he
    obtain ⟨⟨s₁,race⟩,he,h₁⟩ := he
    cases h₁
    obtain ⟨thr,thr',cur,-,-,-,-,hword,hsh,-⟩ := access_shadow h.toSim he
    rcases hsh cell i with heq | hzero | ⟨-,heq⟩
    · exact Or.inl heq
    · exact absurd hzero hne
    · dsimp only
      rw [heq]
      exact Or.inr ⟨⟨addr,n,w,rfl⟩,hword.tid,hword.epoch⟩
  · rcases exec_shadow h.toSim (fun addr n w heq => ha ⟨addr,n,w,heq⟩) he cell i with heq | hzero
    · exact Or.inl heq
    · exact absurd hzero hne

theorem Words.exec (h : Words s c) (he : a.exec cfg s t = some s') : Words s' (run c (a.actions s t)) where
  toTimes := h.toTimes.exec he
  word cell i hne := by
    rcases h.word_cases he hne with heq | ⟨⟨addr,n,w,rfl⟩,htid,hep⟩
    · rw [heq] at hne ⊢
      obtain ⟨hpos,hle⟩ := h.word cell i hne
      exact ⟨hpos,hle.trans ((h.bounded_exec he).2 _)⟩
    · rw [htid, hep]
      refine ⟨Nat.succ_pos _,?_⟩
      simp [Act.actions, Action.apply]

/-- No part of a step breaks it, unless it releases the clock of a thread that has such a word. -/
theorem Fresh.exec (h : Fresh s c) (he : a.exec cfg s t = some s') (hg : a ≠ .acquireGlobal)
    (hr : ∀ b, a = .release b ∨ a = .releaseStore b → ∀ x, ¬ s.InSynchEpoch t x) :
    Fresh s' (run c (a.actions s t)) where
  toWords := h.toWords.exec he
  below v x hx := by
    obtain ⟨thr',hv,⟨cell,i,hslot⟩,hzero,htid,hep⟩ := hx
    have hne : s'.shadow cell i ≠ 0 := by
      rw [hslot]
      rintro rfl
      cases hzero
    have hnolearn : ∀ y ∈ a.actions s t, ∀ u f, y ≠ .learn u f := by
      intro y hy u f heq
      cases Act.does_of_mem hy with
      | learn ha => exact hg ha
      | _ => cases heq
    rcases h.word_cases he hne with heq | ⟨⟨addr,n,w,rfl⟩,htid',hep'⟩
    · -- the word was there before
      rw [hslot] at heq
      have hword := h.word cell i (by rw [← heq]; rintro rfl; cases hzero)
      rw [← heq, htid] at hword
      rcases h.thr_cases he hv with ⟨hvt,hthr⟩ | ⟨rfl,hnew⟩
      · refine Below.run (h.below v x ⟨thr',hthr,⟨cell,i,heq.symm⟩,hzero,htid,hep⟩) (fun y hy o hpub => ?_) hnolearn hword.1
        cases Act.does_of_mem hy <;> cases hpub <;> exact absurd rfl hvt
      · rcases hnew with hlt | ⟨thr,hthr,heqep,hcase⟩
        · rw [OldIsInSameSynchEpoch, decide_eq_true_iff] at hep
          omega
        · have hin : s.InSynchEpoch v x := by
            refine ⟨thr,hthr,⟨cell,i,heq.symm⟩,hzero,htid,?_⟩
            rwa [OldIsInSameSynchEpoch, ← heqep]
          rcases hcase with hnone | ⟨b,hb⟩
          · refine Below.run (h.below v x hin) (fun y hy o hpub => ?_) hnolearn hword.1
            rw [hnone y hy] at hpub
            cases hpub
          · exact absurd hin (hr b hb x)
    · -- the word of the access itself
      rw [hslot] at htid' hep'
      have hvt : v = t := htid.symm.trans htid'
      subst hvt
      rw [hep']
      obtain ⟨hobj,hthread⟩ := h.bounded v
      refine ⟨fun o => Nat.lt_succ_of_le (hobj o),fun u hu => ?_⟩
      rw [Act.thread_run_eq c hu]
      exact Nat.lt_succ_of_le (hthread u)

theorem Fresh.unpublished (h : Fresh s c) : s.Unpublished where
  clock t x hx a := by
    rw [h.clock]
    exact (h.below t x hx).1 _
  read_clock t x hx a := by
    rw [h.read_clock]
    exact (h.below t x hx).1 _
  sync t x hx u tctx hu := by
    have hsync : s.syncOf u = tctx.sync.get := by rw [State.syncOf, hu]
    rw [← hsync, h.sync]
    exact (h.below t x hx).1 _
  thread t x hx u thr hne hu := by
    change thr.clock.clk_ t < _
    rw [h.thread u thr hu t hne.symm]
    exact (h.below t x hx).2 u hne

/-! ### Whole operations -/

theorem Words.execs (h : Words s c) {acts : List Act} (he : Act.execs cfg t s acts = some s') : ∃ c', Words s' c' := by
  induction acts generalizing s c with
  | nil =>
    cases he
    exact ⟨c,h⟩
  | cons a acts ih =>
    rw [Act.execs, List.foldlM_cons, Option.bind_eq_bind, Option.bind_eq_some_iff] at he
    obtain ⟨s₁,h₁,he⟩ := he
    exact ih (h.exec h₁) he

theorem Fresh.execs (h : Fresh s c) {acts : List Act} (hg : ∀ a ∈ acts, a ≠ .acquireGlobal)
    (hr : ∀ a ∈ acts, ∀ b, ¬ (a = .release b ∨ a = .releaseStore b)) (he : Act.execs cfg t s acts = some s') :
    ∃ c', Fresh s' c' := by
  induction acts generalizing s c with
  | nil =>
    cases he
    exact ⟨c,h⟩
  | cons a acts ih =>
    rw [Act.execs, List.foldlM_cons, Option.bind_eq_bind, Option.bind_eq_some_iff] at he
    obtain ⟨s₁,h₁,he⟩ := he
    have hfresh := h.exec h₁ (hg a List.mem_cons_self) fun b hb => absurd hb (hr a List.mem_cons_self b)
    exact ih hfresh (fun b hb => hg b (List.mem_cons_of_mem a hb)) (fun b hb => hr b (List.mem_cons_of_mem a hb)) he

theorem Words.step (h : Words s c) {op : Op} (he : op.step cfg s t = some s') : ∃ c', Words s' c' := by
  rw [step_eq_execs] at he
  exact h.execs he

theorem Fresh.step (h : Fresh s c) {op : Op} (hg : op ≠ .AcquireGlobal) (hp : ¬ op.PublishesWord s t)
    (he : op.step cfg s t = some s') : ∃ c', Fresh s' c' := by
  rw [step_eq_execs] at he
  cases op with
  | Release b =>
    rw [Op.acts, execs_singleton] at he
    exact ⟨_,h.exec he (by simp) fun _ _ x hx => hp ⟨x,hx⟩⟩
  | ReleaseStore b =>
    rw [Op.acts, execs_singleton] at he
    exact ⟨_,h.exec he (by simp) fun _ _ x hx => hp ⟨x,hx⟩⟩
  | AcquireGlobal => exact absurd rfl hg
  | MutexLock b | MutexUnlock b | MutexReadLock b | MutexReadUnlock b | MutexReadOrWriteUnlock b =>
    refine h.execs (fun a ha => ?_) (fun a ha => ?_) he
    all_goals
      rw [Op.acts] at ha
      rcases mem_onMutex ha with rfl | rfl <;> simp
  | _ => exact h.execs (by simp [Op.acts]) (by simp [Op.acts]) he

/-- After such a release the clock of the sync variable knows of the time of the word. -/
theorem Words.published (h : Words s c) {op : Op} (he : op.step cfg s t = some s') (hp : op.PublishesWord s t) :
    ¬ s'.Unpublished := by
  have hknown : ∀ {b : ℕ} {k : SyncClock} {x : u64}, s.InSynchEpoch t x → ∀ {thr : ThreadState}, s.thr t = some thr →
      s' = (s.setThr t thr.setClock).setSync b { s.synctab b with clock := k } → c.thread t t ≤ k.get t →
      ¬ s'.Unpublished := by
    intro b k x hx thr hthr hs' hle hun
    obtain ⟨thr₀,hthr₀,⟨cell,i,hslot⟩,hzero,htid,hep⟩ := hx
    rw [hthr, Option.some.injEq] at hthr₀
    subst hthr₀ hs'
    have hword := (h.word cell i (by rw [hslot]; rintro rfl; cases hzero)).2
    rw [hslot, htid] at hword
    have hin : ((s.setThr t thr.setClock).setSync b { s.synctab b with clock := k }).InSynchEpoch t x :=
      ⟨_,State.thr_setThr_self s hthr,⟨cell,i,hslot⟩,hzero,htid,hep⟩
    have hlt := hun.clock t x hin b
    rw [State.synctab_setSync_self] at hlt
    exact absurd (hword.trans hle) hlt.not_ge
  cases op with
  | Release b =>
    obtain ⟨x,hx⟩ := hp
    obtain ⟨thr,hthr,hs'⟩ := Release_eq_some he
    refine hknown hx hthr hs' ?_
    rw [ThreadClock.get_release, h.setClock_eq hthr]
    exact le_max_right _ _
  | ReleaseStore b =>
    obtain ⟨x,hx⟩ := hp
    obtain ⟨thr,hthr,hs'⟩ := ReleaseStore_eq_some he
    refine hknown hx hthr hs' ?_
    rw [ThreadClock.get_ReleaseStore, h.setClock_eq hthr]
  | _ => cases hp

/-! ### Runs -/

theorem Fresh.allStates {ops : List (ℕ × Op)} (hg : ∀ op ∈ ops, op.2 ≠ .AcquireGlobal) (h : Fresh s c)
    (hp : AllSteps cfg (fun s t op => ¬ op.PublishesWord s t) s ops) : AllStates cfg State.Unpublished s ops := by
  induction ops generalizing s c with
  | nil => exact h.unpublished
  | cons op ops ih =>
    refine ⟨h.unpublished,fun s' he => ?_⟩
    obtain ⟨hop,hp⟩ := hp s' he
    obtain ⟨c',hc'⟩ := h.step (hg op List.mem_cons_self) hop he
    exact ih (fun b hb => hg b (List.mem_cons_of_mem op hb)) hc' hp

theorem AllStates.head {P : State → Prop} {ops : List (ℕ × Op)} (h : AllStates cfg P s ops) : P s := by
  cases ops with
  | nil => exact h
  | cons op ops => exact h.1

theorem Words.allSteps {ops : List (ℕ × Op)} (h : Words s c) (hu : AllStates cfg State.Unpublished s ops) :
    AllSteps cfg (fun s t op => ¬ op.PublishesWord s t) s ops := by
  induction ops generalizing s c with
  | nil => trivial
  | cons op ops ih =>
    intro s' he
    have hrest := hu.2 s' he
    obtain ⟨c',hc'⟩ := h.step he
    exact ⟨fun hp => h.published he hp hrest.head,ih hc' hrest⟩

theorem fresh_init {l : StackAndTls} (h : Initialize cfg l = some s) : ∃ c, Fresh s c := by
  have hzero : ∀ cell i, s.shadow cell i = 0 := by
    obtain ⟨tctx,x,-,-,-,-,-,-,hsh,-⟩ := ThreadStart_eq_some (Initialize_eq_some h)
    intro cell i
    rw [hsh, if_neg (not_not.mpr rfl)]
    rfl
  refine ⟨_,⟨times_created.exec (Initialize_eq_some h),fun cell i hne => absurd (hzero cell i) hne⟩,fun t x hx => ?_⟩
  obtain ⟨thr,-,⟨cell,i,hslot⟩,hnz,-⟩ := hx
  rw [← hslot, hzero] at hnz
  cases hnz

/-- Along a run the times of words of the current synchronization epoch stay unknown to others if and only if no
thread releases while it has such a word. -/
theorem unpublished_iff (cfg : Config) {l : StackAndTls} {s : State} (h : Initialize cfg l = some s)
    {ops : List (ℕ × Op)} (hg : ∀ op ∈ ops, op.2 ≠ .AcquireGlobal) :
    AllStates cfg State.Unpublished s ops ↔ AllSteps cfg (fun s t op => ¬ op.PublishesWord s t) s ops := by
  obtain ⟨c,hc⟩ := fresh_init h
  exact ⟨fun hu => hc.toWords.allSteps hu,fun hp => hc.allStates hg hp⟩

/-- Thread 0 writes to a place and releases at another: the states of this run, and the thread at its end, if the
word of the write is still in use and known. -/
def writeRelease (cfg : Config) (l : StackAndTls) : Option (State × State × State × ThreadState) := do
  let s ← Initialize cfg l
  let s₁ ← (Op.MemoryAccess 64 3 true).step cfg s 0
  let s₂ ← (Op.Release 128).step cfg s₁ 0
  let thr ← s₂.thr 0
  let x := s₂.shadow 8 0
  if IsZero x = false ∧ tid x = 0 ∧ OldIsInSameSynchEpoch x thr = true ∧ epoch x ≤ (s₂.synctab 128).clock.get 0 then
    return (s,s₁,s₂,thr)
  else none

theorem writeRelease_isSome : (writeRelease fourSlots ⟨0,0,0,0,0,0⟩).isSome = true := by decide +kernel

theorem not_unpublished : ∃ s, Initialize fourSlots ⟨0,0,0,0,0,0⟩ = some s ∧
    ¬ AllStates fourSlots State.Unpublished s [(0,.MemoryAccess 64 3 true),(0,.Release 128)] := by
  obtain ⟨r,h⟩ := Option.isSome_iff_exists.mp writeRelease_isSome
  simp only [writeRelease, Option.bind_eq_bind, Option.bind_eq_some_iff] at h
  obtain ⟨s,hs,s₁,h₁,s₂,h₂,thr,hthr,h⟩ := h
  split_ifs at h with hx
  refine ⟨s,hs,fun hall => ?_⟩
  obtain ⟨hzero,htid,hep,hle⟩ := hx
  have hu := (hall.2 s₁ h₁).2 s₂ h₂
  exact absurd hle (hu.clock 0 _ ⟨thr,hthr,⟨8,0,rfl⟩,hzero,htid,hep⟩ 128).not_ge

theorem unpublished_iff_writeRelease : ∃ s, Initialize fourSlots ⟨0,0,0,0,0,0⟩ = some s ∧
    (AllStates fourSlots State.Unpublished s [(0,.MemoryAccess 64 3 true),(0,.Release 128)] ↔
      AllSteps fourSlots (fun s t op => ¬ op.PublishesWord s t) s [(0,.MemoryAccess 64 3 true),(0,.Release 128)]) := by
  obtain ⟨r,h⟩ := Option.isSome_iff_exists.mp writeRelease_isSome
  simp only [writeRelease, Option.bind_eq_bind, Option.bind_eq_some_iff] at h
  obtain ⟨s,hs,-⟩ := h
  exact ⟨s,hs,unpublished_iff fourSlots hs (by simp)⟩

end Step
end CompilerRt.Tsan
