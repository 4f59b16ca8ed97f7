import CompilerRt.Tsan.HappensBefore
import CompilerRt.Tsan.Times

/-! # The clocks know what happened before

Each event is stamped with the clock that its thread has after it. What happens before an event has a stamp
that is entry by entry at most that of the event.
-/
namespace CompilerRt.Tsan
open FastState VectorClock

/-! ## What a part of a step leaves alone -/

section Parts
variable {cfg : Config} {s s' : State} {c : Clocks ℕ Obj} {t : ℕ} {a : Act}

theorem State.unique_id_of_phase {st : ThreadStatus} {v w : ℕ} (h : s.phase v = some (st,w)) : s.unique_id v = w := by
  obtain ⟨tctx,hcore,-,rfl⟩ := State.phase_eq_some h
  rw [State.core, Option.map_eq_some_iff] at hcore
  obtain ⟨x,hx,rfl⟩ := hcore
  rw [State.unique_id, hx]
  rfl

theorem Act.thread_le (hs : ∀ l, a ≠ .start l) (hg : a ≠ .acquireGlobal) (v : ℕ) :
    c.thread v ≤ (run c (a.actions s t)).thread v := by
  refine thread_le_run (fun x hx hr => ?_) c
  cases does_of_mem hx with
  | start l h => exact hs l h
  | learn h => exact hg h
  | _ => cases hr

theorem Act.read_clock_le (b : ℕ) : c.obj (.read_clock b) ≤ (run c (a.actions s t)).obj (.read_clock b) := by
  refine obj_le_run (fun x hx hr => ?_) c
  cases does_of_mem hx <;> cases hr

/-- Only a release store and the last unlock of the owner replace the clock of a sync variable. -/
theorem Act.clock_le {b : ℕ} (hs : a ≠ .releaseStore b)
    (hu : a = .unlock b ∨ a = .readOrWriteUnlock b →
      ¬ ((s.synctab b).recursion = 1 ∧ (s.synctab b).owner_tid = some t)) :
    c.obj (.clock b) ≤ (run c (a.actions s t)).obj (.clock b) := by
  refine obj_le_run (fun x hx hr => ?_) c
  cases does_of_mem hx with
  | releaseStore b' h =>
    cases hr
    exact hs h
  | unlock b' h hown =>
    cases hr
    exact hu h hown
  | _ => cases hr

/-- The part is not about the context of `v`. -/
structure Act.Leaves (a : Act) (s : State) (t v : ℕ) : Prop where
  create : ∀ d, a = .create d → v ≠ newTid s
  start : ∀ l, a = .start l → v ≠ t
  finish : a = .finish → v ≠ t
  dead : a = .join v ∨ a = .detach v → (s.core v).map (·.status) ≠ some .Finished

theorem Act.Leaves.sync_le {v : ℕ} (h : a.Leaves s t v) :
    c.obj (.sync v) ≤ (run c (a.actions s t)).obj (.sync v) := by
  refine obj_le_run (fun x hx hr => ?_) c
  cases does_of_mem hx with
  | create d ha =>
    cases hr
    exact h.create d ha rfl
  | finish ha =>
    cases hr
    exact h.finish ha rfl
  | dead v' ha hst =>
    cases hr
    exact h.dead ha hst
  | _ => cases hr

theorem status_of_phase {v w : ℕ} {st : ThreadStatus} (h : s.phase v = some (st,w)) :
    (s.core v).map (·.status) = some st := by
  obtain ⟨tctx,hcore,rfl,-⟩ := State.phase_eq_some h
  rw [hcore, Option.map_some]

/-- Where the phase of a thread comes from. -/
theorem Times.phase_cases (h : Times s c) (he : a.exec cfg s t = some s') {v w : ℕ} {st : ThreadStatus}
    (hp : s'.phase v = some (st,w)) :
    s.phase v = some (st,w) ∧ a.Leaves s t v ∨
      (∃ d, a = .create d) ∧ v = newTid s ∧ st = .Created ∧ w = s.unique_thread_seq ∨
      (∃ l, a = .start l) ∧ v = t ∧ st = .Running ∧ s.phase v = some (.Created,w) ∨
      a = .finish ∧ v = t ∧ st = .Finished ∧ s.phase v = some (.Running,w) ∧
        a.actions s t = [.tick t,.release t (.sync t)] ∨
      st = .Dead := by
  have hphases := h.phases he
  cases a with
  | create d =>
    rw [hphases.2.1] at hp
    rcases eq_or_ne v (newTid s) with rfl | hv
    · rw [Function.update_self] at hp
      cases hp
      exact Or.inr (Or.inl ⟨⟨d,rfl⟩,rfl,rfl,rfl⟩)
    · rw [Function.update_of_ne hv] at hp
      exact Or.inl ⟨hp,fun _ _ => hv,by simp,by simp,by simp⟩
  | start l =>
    obtain ⟨u,hcreated,hupd⟩ := hphases
    rw [hupd] at hp
    rcases eq_or_ne v t with rfl | hv
    · rw [Function.update_self] at hp
      cases hp
      exact Or.inr (Or.inr (Or.inl ⟨⟨l,rfl⟩,rfl,rfl,hcreated⟩))
    · rw [Function.update_of_ne hv] at hp
      exact Or.inl ⟨hp,by simp,fun _ _ => hv,by simp,by simp⟩
  | finish =>
    obtain ⟨st',u,hrun,hupd,hst⟩ := hphases
    rw [hupd] at hp
    rcases eq_or_ne v t with rfl | hv
    · rw [Function.update_self] at hp
      cases hp
      rcases hst with rfl | ⟨rfl,hact⟩
      · exact Or.inr (Or.inr (Or.inr (Or.inr rfl)))
      · exact Or.inr (Or.inr (Or.inr (Or.inl ⟨rfl,rfl,rfl,hrun,hact⟩)))
    · rw [Function.update_of_ne hv] at hp
      exact Or.inl ⟨hp,by simp,by simp,fun _ => hv,by simp⟩
  | join v' =>
    obtain ⟨u,-,hupd⟩ := hphases
    rw [hupd] at hp
    rcases eq_or_ne v v' with rfl | hv
    · rw [Function.update_self] at hp
      cases hp
      exact Or.inr (Or.inr (Or.inr (Or.inr rfl)))
    · rw [Function.update_of_ne hv] at hp
      exact Or.inl ⟨hp,by simp,by simp,by simp,by simp [hv.symm]⟩
  | detach v' =>
    obtain ⟨hsame,hact⟩ | ⟨u,-,hupd⟩ := hphases
    · rw [hsame] at hp
      refine Or.inl ⟨hp,by simp,by simp,by simp,fun hd hst => ?_⟩
      rcases hd with hd | hd
      · cases hd
      · cases hd
        rw [Act.actions, if_pos hst] at hact
        cases hact
    · rw [hupd] at hp
      rcases eq_or_ne v v' with rfl | hv
      · rw [Function.update_self] at hp
        cases hp
        exact Or.inr (Or.inr (Or.inr (Or.inr rfl)))
      · rw [Function.update_of_ne hv] at hp
        exact Or.inl ⟨hp,by simp,by simp,by simp,by simp [hv.symm]⟩
  | _ =>
    rw [show s'.phase = s.phase from hphases] at hp
    exact Or.inl ⟨hp,by simp,by simp,by simp,by simp⟩

/-- A running thread was running before and has forgotten nothing, or it has just started. -/
theorem Times.running_cases (h : Times s c) (he : a.exec cfg s t = some s') (hg : a ≠ .acquireGlobal) {v w : ℕ}
    (hp : s'.phase v = some (.Running,w)) :
    s.phase v = some (.Running,w) ∧ c.thread v ≤ (run c (a.actions s t)).thread v ∨
      (∃ l, a = .start l) ∧ v = t ∧ s.phase v = some (.Created,w) := by
  rcases h.phase_cases he hp with ⟨hp,hl⟩ | ⟨-,-,hst,-⟩ | ⟨hs,hv,-,hp⟩ | ⟨-,-,hst,-⟩ | hst
  · refine Or.inl ⟨hp,?_⟩
    by_cases hs : ∃ l, a = .start l
    · obtain ⟨l,hl'⟩ := hs
      rw [Act.thread_run_eq c (hl.start l hl')]
    · exact Act.thread_le (fun l hl => hs ⟨l,hl⟩) hg v
  · cases hst
  · exact Or.inr ⟨hs,hv,hp⟩
  · cases hst
  · cases hst

theorem Times.created_cases (h : Times s c) (he : a.exec cfg s t = some s') {v w : ℕ}
    (hp : s'.phase v = some (.Created,w)) :
    s.phase v = some (.Created,w) ∧ c.obj (.sync v) ≤ (run c (a.actions s t)).obj (.sync v) ∨
      (∃ d, a = .create d) ∧ v = newTid s ∧ w = s.unique_thread_seq := by
  rcases h.phase_cases he hp with ⟨hp,hl⟩ | ⟨hc,hv,-,hw⟩ | ⟨-,-,hst,-⟩ | ⟨-,-,hst,-⟩ | hst
  · exact Or.inl ⟨hp,hl.sync_le⟩
  · exact Or.inr ⟨hc,hv,hw⟩
  all_goals cases hst

theorem Times.finished_cases (h : Times s c) (he : a.exec cfg s t = some s') {v w : ℕ}
    (hp : s'.phase v = some (.Finished,w)) :
    s.phase v = some (.Finished,w) ∧ c.obj (.sync v) ≤ (run c (a.actions s t)).obj (.sync v) ∨
      a = .finish ∧ v = t ∧ s.phase v = some (.Running,w) ∧ a.actions s t = [.tick t,.release t (.sync t)] := by
  rcases h.phase_cases he hp with ⟨hp,hl⟩ | ⟨-,-,hst,-⟩ | ⟨-,-,hst,-⟩ | ⟨hf,hv,-,hp,hact⟩ | hst
  · exact Or.inl ⟨hp,hl.sync_le⟩
  · cases hst
  · cases hst
  · exact Or.inr ⟨hf,hv,hp,hact⟩
  · cases hst

theorem Times.seq_le (h : Times s c) (he : a.exec cfg s t = some s') :
    s.unique_thread_seq ≤ s'.unique_thread_seq := by
  by_cases hq : a.quiet = true
  · obtain ⟨-,-,-,-,-,huid⟩ := exec_quiet hq he
    exact huid.ge
  · cases a with
    | create d => exact (h.phases he).2.2 ▸ Nat.le_succ _
    | start l =>
      obtain ⟨-,-,-,-,-,-,-,-,-,huid,-⟩ := ThreadStart_eq_some he
      exact huid.ge
    | finish =>
      obtain ⟨-,-,-,-,-,-,-,-,huid,-⟩ := ThreadFinish_eq_some he
      exact huid.ge
    | join v =>
      obtain ⟨thr,tctx,-,-,hcore,⟨hst,-⟩ | ⟨-,-,himp⟩⟩ := ThreadJoin_eq_some he
      · exact absurd hst (h.lives v tctx hcore).valid
      · obtain ⟨-,-,-,-,huid,-⟩ := himp (h.context_tid v tctx hcore).1
        exact huid.ge
    | detach v =>
      obtain ⟨-,tctx,-,-,hcore,⟨hst,-⟩ | ⟨-,himp⟩ | ⟨-,-,-,-,-,huid,-⟩⟩ := ThreadDetach_eq_some he
      · exact absurd hst (h.lives v tctx hcore).valid
      · obtain ⟨-,-,-,-,huid,-⟩ := himp (h.context_tid v tctx hcore).1
        exact huid.ge
      · exact huid.ge
    | _ => exact absurd rfl hq

end Parts

/-! ## Real mutexes and sync variables -/

/-- The sync variable knows who writes. -/
def RwMutex.Tracks : RwMutex ThreadId → SyncVar → Prop
  | write owner depth, v => v.owner_tid = some owner.1 ∧ v.recursion = depth + 1
  | free, v | read .., v => v.owner_tid = none ∧ v.recursion = 0

theorem RwMutex.Tracks.congr {m : RwMutex ThreadId} {v v' : SyncVar} (h : m.Tracks v)
    (ho : v'.owner_tid = v.owner_tid) (hr : v'.recursion = v.recursion) : m.Tracks v' := by
  cases m <;> exact ⟨ho.trans h.1,hr.trans h.2⟩

theorem RwMutex.tracks_of_no_writer {m : RwMutex ThreadId} {v : SyncVar} (hm : m.writer = none) :
    m.Tracks v ↔ v.owner_tid = none ∧ v.recursion = 0 := by
  cases m with
  | free | read => exact Iff.rfl
  | write => cases hm

/-- Readers come and go without the sync variable knowing. -/
theorem RwMutex.Tracks.read {m x : RwMutex ThreadId} {v v' : SyncVar} (h : m.Tracks v) (hm : m.writer = none)
    (hx : x.writer = none) (ho : v'.owner_tid = v.owner_tid) (hr : v'.recursion = v.recursion) : x.Tracks v' := by
  obtain ⟨h1,h2⟩ := (tracks_of_no_writer hm).mp h
  exact (tracks_of_no_writer hx).mpr ⟨ho.trans h1,hr.trans h2⟩

section Mutex
variable {cfg : Config} {isMutex : ℕ → Bool} {m m' : ℕ → RwMutex ThreadId} {s s' : State} {c : Clocks ℕ Obj}
  {t b : ℕ} {a : Act} {k : Kind}

theorem Times.incrementEpoch_tid (h : Times s c) {thr thr' : ThreadState} (hthr : s.thr t = some thr)
    (hi : thr.incrementEpoch = some thr') : thr'.tid = t := by
  obtain ⟨x,-,rfl⟩ := incrementEpoch_eq_some hi
  exact h.thr_tid t thr hthr

theorem unlock_tracks (h : Times s c) (he : unlockSyncVar s t b = some s') (htr : ∀ b, (m b).Tracks (s.synctab b))
    {x : RwMutex ThreadId} (hx : (m b).unlock (s.threadId t) = some x) :
    ∀ b', (Function.update m b x b').Tracks (s'.synctab b') := by
  intro b'
  obtain ⟨thr,thr',hthr,hi,hcase⟩ := unlockSyncVar_eq_some he
  have htid := h.incrementEpoch_tid hthr hi
  have hb := htr b
  rcases eq_or_ne b' b with rfl | hb'
  · rw [Function.update_self]
    rcases hcase with ⟨hrec,-,rfl⟩ | ⟨hno,v,rfl,-,-,hown,hrec⟩
    · rcases RwMutex.unlock_eq_some hx with ⟨-,rfl⟩ | ⟨depth,hm,-⟩
      · simp [RwMutex.Tracks]
      · rw [hm] at hb
        have hr : (s.synctab b').recursion = depth + 1 + 1 := hb.2
        omega
    · have howner : (s.synctab b').owner_tid = some t := by
        rcases RwMutex.unlock_eq_some hx with ⟨hm,-⟩ | ⟨depth,hm,-⟩
        all_goals
          rw [hm] at hb
          exact hb.1
      rw [htid] at hno hrec
      rcases RwMutex.unlock_eq_some hx with ⟨hm,-⟩ | ⟨depth,hm,rfl⟩
      · rw [hm] at hb
        exact absurd ⟨hb.2,howner⟩ hno
      · rw [hm] at hb
        rw [State.synctab_setSync_self]
        refine ⟨hown.trans howner,?_⟩
        rw [hrec howner, hb.2]
        rfl
  · rw [Function.update_of_ne hb']
    rcases hcase with ⟨-,-,rfl⟩ | ⟨-,v,rfl,-⟩
    all_goals
      rw [State.synctab_setSync_of_ne _ _ hb', State.synctab_setThr]
      exact htr b'

theorem readUnlock_tracks (he : readUnlockSyncVar s t b = some s') (htr : ∀ b, (m b).Tracks (s.synctab b))
    {x : RwMutex ThreadId} (hx : (m b).writer = none ∧ x.writer = none) :
    ∀ b', (Function.update m b x b').Tracks (s'.synctab b') := by
  intro b'
  obtain ⟨thr,thr',-,-,rfl⟩ := readUnlockSyncVar_eq_some he
  rcases eq_or_ne b' b with rfl | hb'
  · rw [Function.update_self, State.synctab_setSync_self]
    exact (htr b').read hx.1 hx.2 rfl rfl
  · rw [Function.update_of_ne hb', State.synctab_setSync_of_ne _ _ hb', State.synctab_setThr]
    exact htr b'

theorem tracks_exec (h : Times s c) (he : a.exec cfg s t = some s') (hk : a.Seen isMutex m s s' t m' k)
    (htr : ∀ b, (m b).Tracks (s.synctab b)) : ∀ b, (m' b).Tracks (s'.synctab b) := by
  cases hk with
  | access addr sizeLog w =>
    simp only [Act.exec, Option.pure_def, Option.bind_eq_bind, Option.bind_eq_some_iff] at he
    obtain ⟨⟨s₁,race⟩,he,h₁⟩ := he
    cases h₁
    obtain ⟨thr,-,⟨-,rfl,-⟩ | ⟨thr',cur,cur',-,-,-,rfl,-⟩⟩ := MemoryAccess_eq_some he
    · exact htr
    · exact htr
  | writeLock b x hb hx =>
    intro b'
    obtain ⟨thr,thr',v,hthr,hi,hv,rfl⟩ := lockSyncVar_eq_some he
    obtain ⟨-,-,hrec,hown⟩ := lockOwner_eq_some hv
    rw [h.incrementEpoch_tid hthr hi] at hown
    rcases eq_or_ne b' b with rfl | hb'
    · have htrb := htr b'
      rw [Function.update_self, State.synctab_setSync_self]
      rcases RwMutex.lock_eq_some hx with ⟨hm,rfl⟩ | ⟨depth,hm,rfl⟩
      · rw [hm] at htrb
        rcases hown with ⟨-,hr,ho⟩ | ⟨ho,-⟩
        · exact ⟨ho,by dsimp only; rw [hrec, hr]⟩
        · exact absurd htrb.1 ho
      · rw [hm] at htrb
        rcases hown with ⟨ho,-⟩ | ⟨-,ho,-⟩
        · have howner : (s.synctab b').owner_tid = some t := htrb.1
          rw [ho] at howner
          cases howner
        · exact ⟨ho.trans htrb.1,by dsimp only; rw [hrec, htrb.2]⟩
    · rw [Function.update_of_ne hb', State.synctab_setSync_of_ne _ _ hb', State.synctab_setThr]
      exact htr b'
  | writeUnlock a b x ha hb hx =>
    rcases ha with rfl | rfl
    · exact unlock_tracks h he htr hx
    · have hb := htr b
      have howner : (s.synctab b).owner_tid = some t := by
        rcases RwMutex.unlock_eq_some hx with ⟨hm,-⟩ | ⟨depth,hm,-⟩
        all_goals
          rw [hm] at hb
          exact hb.1
      obtain ⟨thr,hthr,⟨ho,-⟩ | ⟨-,-,he'⟩ | ⟨-,hno,v,rfl,-,-,hown,hrec⟩⟩ := readOrWriteUnlockSyncVar_eq_some he
      · rw [ho] at howner
        cases howner
      · exact unlock_tracks h he' htr hx
      · rw [h.thr_tid t thr hthr] at hno hrec
        intro b'
        rcases eq_or_ne b' b with rfl | hb'
        · rw [Function.update_self, State.synctab_setSync_self]
          rcases RwMutex.unlock_eq_some hx with ⟨hm,-⟩ | ⟨depth,hm,rfl⟩
          · rw [hm] at hb
            exact absurd ⟨hb.2,howner⟩ hno
          · rw [hm] at hb
            refine ⟨hown.trans howner,?_⟩
            rw [hrec howner, hb.2]
            rfl
        · rw [Function.update_of_ne hb', State.synctab_setSync_of_ne _ _ hb']
          exact htr b'
  | readLock b x hb hx =>
    intro b'
    obtain ⟨hw,hw'⟩ := RwMutex.readLock_eq_some hx
    obtain ⟨thr,thr',-,-,rfl⟩ := readLockSyncVar_eq_some he
    rcases eq_or_ne b' b with rfl | hb'
    · rw [Function.update_self, State.synctab_setSync_self]
      exact (htr b').read hw hw' rfl rfl
    · rw [Function.update_of_ne hb', State.synctab_setSync_of_ne _ _ hb', State.synctab_setThr]
      exact htr b'
  | readUnlock a b x ha hb hx =>
    have hw := RwMutex.readUnlock_eq_some hx
    rcases ha with rfl | rfl
    · exact readUnlock_tracks he htr hw
    · have ho := ((RwMutex.tracks_of_no_writer hw.1).mp (htr b)).1
      obtain ⟨thr,-,⟨-,he'⟩ | ⟨ho',-⟩ | ⟨ho',-⟩⟩ := readOrWriteUnlockSyncVar_eq_some he
      · exact readUnlock_tracks he' htr hw
      · rw [ho] at ho'
        cases ho'
      · exact absurd ho ho'
  | acquire b hb =>
    obtain ⟨thr,-,rfl⟩ := Acquire_eq_some he
    exact htr
  | release b hb =>
    intro b'
    obtain ⟨thr,-,rfl⟩ := Release_eq_some he
    rcases eq_or_ne b' b with rfl | hb'
    · rw [State.synctab_setSync_self]
      exact (htr b').congr rfl rfl
    · rw [State.synctab_setSync_of_ne _ _ hb']
      exact htr b'
  | releaseStore b hb =>
    intro b'
    obtain ⟨thr,-,rfl⟩ := ReleaseStore_eq_some he
    rcases eq_or_ne b' b with rfl | hb'
    · rw [State.synctab_setSync_self]
      exact (htr b').congr rfl rfl
    · rw [State.synctab_setSync_of_ne _ _ hb']
      exact htr b'
  | create d =>
    simp only [Act.exec, Option.pure_def, Option.bind_eq_bind, Option.bind_eq_some_iff] at he
    obtain ⟨⟨s₂,tid⟩,he,h₂⟩ := he
    cases h₂
    obtain ⟨s₁,tctx,thr,thr',-,-,-,-,-,-,-,-,htab,-⟩ := pthread_create_eq_some he
    rwa [htab]
  | start l =>
    obtain ⟨tctx,x,-,-,-,-,-,htab,-⟩ := ThreadStart_eq_some he
    rwa [htab]
  | finish =>
    obtain ⟨thr,tctx,-,-,-,-,htab,-⟩ := ThreadFinish_eq_some he
    rwa [htab]
  | join v =>
    obtain ⟨thr,tctx,-,-,hcore,⟨-,rfl⟩ | ⟨-,-,himp⟩⟩ := ThreadJoin_eq_some he
    · exact htr
    · obtain ⟨-,-,htab,-⟩ := himp (h.context_tid v tctx hcore).1
      rwa [htab]
  | detach v =>
    obtain ⟨thr,tctx,-,-,hcore,⟨-,rfl⟩ | ⟨-,himp⟩ | ⟨-,-,-,htab,-⟩⟩ := ThreadDetach_eq_some he
    · exact htr
    · obtain ⟨-,-,htab,-⟩ := himp (h.context_tid v tctx hcore).1
      rwa [htab]
    · rwa [htab]

end Mutex
end CompilerRt.Tsan
