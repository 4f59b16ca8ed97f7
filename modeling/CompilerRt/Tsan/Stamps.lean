import CompilerRt.Tsan.Order

/-! # Stamps

The stamp of an event is the clock of its thread after it. As long as an event can still come before a later
one by an edge of happens-before, its stamp is known where the later event will look.
-/
namespace CompilerRt.Tsan
open FastState VectorClock

/-- Where the stamp `v` of a past event is known. -/
structure Past (isMutex : ℕ → Bool) (s : State) (m : ℕ → RwMutex ThreadId) (c : Clocks ℕ Obj) (e : Event)
    (v : ℕ → ℕ) : Prop where
  known : ∀ u, v u ≤ c.thread u u
  unborn : s.phase e.thread.1 ≠ some (.Created,e.thread.2)
  uid : e.thread.2 < s.unique_thread_seq
  child : ∀ child, e.kind = .create child → child.2 < s.unique_thread_seq
  running : s.phase e.thread.1 = some (.Running,e.thread.2) → v ≤ c.thread e.thread.1
  mutex : ∀ b, e.kind = .writeUnlock b → isMutex b = true
  unlocked : ∀ b, e.kind = .writeUnlock b → (m b).writer = none → v ≤ c.obj (.clock b)
  readUnlocked : ∀ b, e.kind = .readUnlock b → v ≤ c.obj (.read_clock b)
  held : ∀ b, e.kind = .writeUnlock b ∨ e.kind = .readUnlock b → ∀ o, (m b).writer = some o →
    s.phase o.1 = some (.Running,o.2) → v ≤ c.thread o.1
  created : ∀ child, e.kind = .create child → s.phase child.1 = some (.Created,child.2) → v ≤ c.obj (.sync child.1)
  finished : e.kind = .finish → s.phase e.thread.1 = some (.Finished,e.thread.2) → v ≤ c.obj (.sync e.thread.1)

section Step
variable {cfg : Config} {isMutex : ℕ → Bool} {m m' : ℕ → RwMutex ThreadId} {s s' : State} {c : Clocks ℕ Obj}
  {t b : ℕ} {a : Act} {k : Kind} {e : Event} {v : ℕ → ℕ}

theorem Act.Seen.ne_acquireGlobal (hk : a.Seen isMutex m s s' t m' k) : a ≠ .acquireGlobal := by
  rintro rfl
  cases hk with
  | writeUnlock a b x ha => rcases ha with ha | ha <;> cases ha
  | readUnlock a b x ha => rcases ha with ha | ha <;> cases ha

theorem Act.Seen.ne_releaseStore (hk : a.Seen isMutex m s s' t m' k) (hb : isMutex b = true) :
    a ≠ .releaseStore b := by
  rintro rfl
  cases hk with
  | writeUnlock a b x ha => rcases ha with ha | ha <;> cases ha
  | readUnlock a b x ha => rcases ha with ha | ha <;> cases ha
  | releaseStore b hb' =>
    rw [hb] at hb'
    cases hb'

theorem Act.Seen.isMutex_of_unlock (hk : a.Seen isMutex m s s' t m' k)
    (ha : a = .unlock b ∨ a = .readOrWriteUnlock b) : isMutex b = true := by
  cases hk with
  | writeUnlock a b' x ha' hb' =>
    have hbb : b = b' := by
      rcases ha with rfl | rfl <;> simpa using ha'
    rwa [hbb]
  | readUnlock a b' x ha' hb' =>
    rcases ha with rfl | rfl
    · simp at ha'
    · have hbb : b = b' := by simpa using ha'
      rwa [hbb]
  | _ => rcases ha with ha | ha <;> cases ha

/-- Only the last unlock by the writer frees a mutex from its writer. -/
theorem Act.Seen.unlocks (hk : a.Seen isMutex m s s' t m' k) {o : ThreadId} (ho : (m b).writer = some o)
    (hn : (m' b).writer = none) :
    o = s.threadId t ∧ m b = .write (s.threadId t) 0 ∧ (a = .unlock b ∨ a = .readOrWriteUnlock b) := by
  have hne : m' ≠ m := by
    rintro rfl
    rw [ho] at hn
    cases hn
  have hsame : ∀ {b' x}, b ≠ b' → m' ≠ Function.update m b' x := by
    rintro b' x hb rfl
    rw [Function.update_of_ne hb, ho] at hn
    cases hn
  cases hk with
  | writeLock b' x hb hx =>
    rcases eq_or_ne b b' with rfl | hb
    · rw [Function.update_self] at hn
      rcases RwMutex.lock_eq_some hx with ⟨-,rfl⟩ | ⟨d,-,rfl⟩ <;> cases hn
    · exact absurd rfl (hsame hb)
  | writeUnlock a b' x ha hb hx =>
    rcases eq_or_ne b b' with rfl | hb
    · rw [Function.update_self] at hn
      rcases RwMutex.unlock_eq_some hx with ⟨hm,-⟩ | ⟨d,-,rfl⟩
      · refine ⟨?_,hm,ha⟩
        rw [hm] at ho
        exact (Option.some.inj ho).symm
      · cases hn
    · exact absurd rfl (hsame hb)
  | readLock b' x hb hx =>
    rcases eq_or_ne b b' with rfl | hb
    · rw [(RwMutex.readLock_eq_some hx).1] at ho
      cases ho
    · exact absurd rfl (hsame hb)
  | readUnlock a b' x ha hb hx =>
    rcases eq_or_ne b b' with rfl | hb
    · rw [(RwMutex.readUnlock_eq_some hx).1] at ho
      cases ho
    · exact absurd rfl (hsame hb)
  | _ => exact absurd rfl hne

/-- Only a lock gives a mutex a writer. -/
theorem Act.Seen.locks (hk : a.Seen isMutex m s s' t m' k) {o : ThreadId} (ho : (m b).writer ≠ some o)
    (hs : (m' b).writer = some o) : o = s.threadId t ∧ (m b).writer = none ∧ a = .lock b := by
  have hne : m' ≠ m := by
    rintro rfl
    exact ho hs
  have hsame : ∀ {b' x}, b ≠ b' → m' ≠ Function.update m b' x := by
    rintro b' x hb rfl
    rw [Function.update_of_ne hb] at hs
    exact ho hs
  cases hk with
  | writeLock b' x hb hx =>
    rcases eq_or_ne b b' with rfl | hb
    · rw [Function.update_self] at hs
      rcases RwMutex.lock_eq_some hx with ⟨hm,rfl⟩ | ⟨d,hm,rfl⟩
      · exact ⟨(Option.some.inj hs).symm,by rw [hm]; rfl,rfl⟩
      · rw [hm] at ho
        exact absurd hs ho
    · exact absurd rfl (hsame hb)
  | writeUnlock a b' x ha hb hx =>
    rcases eq_or_ne b b' with rfl | hb
    · rw [Function.update_self] at hs
      rcases RwMutex.unlock_eq_some hx with ⟨-,rfl⟩ | ⟨d,hm,rfl⟩
      · cases hs
      · rw [hm] at ho
        exact absurd hs ho
    · exact absurd rfl (hsame hb)
  | readLock b' x hb hx =>
    rcases eq_or_ne b b' with rfl | hb
    · rw [Function.update_self, (RwMutex.readLock_eq_some hx).2] at hs
      cases hs
    · exact absurd rfl (hsame hb)
  | readUnlock a b' x ha hb hx =>
    rcases eq_or_ne b b' with rfl | hb
    · rw [Function.update_self, (RwMutex.readUnlock_eq_some hx).2] at hs
      cases hs
    · exact absurd rfl (hsame hb)
  | _ => exact absurd rfl hne

/-! ### The actions on a mutex -/

theorem lock_actions (htr : (m b).Tracks (s.synctab b)) (hw : (m b).writer = none) :
    (Act.lock b).actions s t = [.tick t,.acquire t (.clock b),.acquire t (.read_clock b)] := by
  rw [Act.actions, if_pos ((RwMutex.tracks_of_no_writer hw).mp htr).2]

theorem unlock_actions (htr : (m b).Tracks (s.synctab b)) (hm : m b = .write (s.threadId t) 0)
    (ha : a = .unlock b ∨ a = .readOrWriteUnlock b) : a.actions s t = [.tick t,.store t (.clock b)] := by
  rw [hm] at htr
  obtain ⟨ho,hr⟩ := htr
  rcases ha with rfl | rfl
  · rw [Act.actions, if_pos ⟨hr,ho⟩]
  · rw [Act.actions, if_neg (by rw [ho]; exact Option.some_ne_none _), if_pos ⟨hr,ho⟩]

theorem readUnlock_actions (htr : (m b).Tracks (s.synctab b)) (hw : (m b).writer = none)
    (ha : a = .readUnlock b ∨ a = .readOrWriteUnlock b) : a.actions s t = [.tick t,.release t (.read_clock b)] := by
  rcases ha with rfl | rfl
  · rfl
  · rw [Act.actions, if_pos ((RwMutex.tracks_of_no_writer hw).mp htr).1]

/-- A first lock learns both clocks of the mutex. -/
theorem le_lock (htr : (m b).Tracks (s.synctab b)) (hw : (m b).writer = none) (ht : v t ≤ c.thread t t)
    (hv : v ≤ c.obj (.clock b) ∨ v ≤ c.obj (.read_clock b)) : v ≤ (run c ((Act.lock b).actions s t)).thread t := by
  rw [lock_actions htr hw]
  rcases hv with hv | hv
  · exact le_run_acquire (by simp) (by simp [Action.replaces]) (by simp [Action.restarts]) hv ht
  · exact le_run_acquire (by simp) (by simp [Action.replaces]) (by simp [Action.restarts]) hv ht

theorem Times.phase_start (h : Times s c) {l : StackAndTls} (he : (Act.start l).exec cfg s t = some s') :
    s.phase t = some (.Created,s.unique_id t) := by
  obtain ⟨u,hu,-⟩ := h.phases he
  rw [hu, State.unique_id_of_phase hu]

theorem Times.phase_step (h : Times s c) (he : a.exec cfg s t = some s') (hs : ∀ l, a ≠ .start l) :
    s.phase t = some (.Running,s.unique_id t) := by
  obtain ⟨u,hu⟩ := h.phase_running he hs
  rw [hu, State.unique_id_of_phase hu]

theorem Times.unique_id_lt (h : Times s c) {st : ThreadStatus} {u w : ℕ} (hp : s.phase u = some (st,w)) :
    s.unique_id u < s.unique_thread_seq := by
  obtain ⟨tctx,hcore,-,rfl⟩ := State.phase_eq_some hp
  rw [State.unique_id_of_phase hp]
  exact (h.lives u tctx hcore).unique

/-! ### Past events stay known -/

namespace Past

theorem step (hp : Past isMutex s m c e v) (h : Times s c) (htr : ∀ b, (m b).Tracks (s.synctab b))
    (hh : ∀ b o, (m b).writer = some o → s.phase o.1 ≠ some (.Created,o.2)) (he : a.exec cfg s t = some s')
    (hk : a.Seen isMutex m s s' t m' k) : Past isMutex s' m' (run c (a.actions s t)) e v where
  known u := (hp.known u).trans ((h.bounded_exec he).2 u)
  unborn hc := by
    rcases h.created_cases he hc with ⟨hc,-⟩ | ⟨-,-,hw⟩
    · exact hp.unborn hc
    · exact hp.uid.ne hw
  uid := hp.uid.trans_le (h.seq_le he)
  child x hx := (hp.child x hx).trans_le (h.seq_le he)
  running hr := by
    rcases h.running_cases he hk.ne_acquireGlobal hr with ⟨hr,hle⟩ | ⟨-,-,hc⟩
    · exact (hp.running hr).trans hle
    · exact absurd hc hp.unborn
  mutex := hp.mutex
  unlocked b hb hn := by
    cases hw : (m b).writer with
    | none =>
      have ho := ((RwMutex.tracks_of_no_writer hw).mp (htr b)).1
      refine (hp.unlocked b hb hw).trans (Act.clock_le (hk.ne_releaseStore (hp.mutex b hb)) fun _ hown => ?_)
      rw [ho] at hown
      cases hown.2
    | some o =>
      -- the stamp was known to the writer, who stores its clock
      obtain ⟨rfl,hm,ha⟩ := hk.unlocks hw hn
      have hrun := h.phase_step he (by rcases ha with rfl | rfl <;> simp)
      have hv : v ≤ c.thread t := hp.held b (Or.inl hb) _ hw hrun
      rw [unlock_actions (htr b) hm ha]
      refine hv.trans (le_trans ?_ (thread_le_store c [.tick t] t (.clock b)))
      exact thread_le_run (by simp [Action.restarts]) c
  readUnlocked b hb := (hp.readUnlocked b hb).trans (Act.read_clock_le b)
  held b hb o ho hr := by
    by_cases hw : (m b).writer = some o
    · rcases h.running_cases he hk.ne_acquireGlobal hr with ⟨hr,hle⟩ | ⟨-,-,hc⟩
      · exact (hp.held b hb o hw hr).trans hle
      · exact absurd hc (hh b o hw)
    · obtain ⟨rfl,hn,rfl⟩ := hk.locks hw ho
      refine le_lock (htr b) hn (hp.known t) ?_
      rcases hb with hb | hb
      · exact Or.inl (hp.unlocked b hb hn)
      · exact Or.inr (hp.readUnlocked b hb)
  created x hx hc := by
    rcases h.created_cases he hc with ⟨hc,hle⟩ | ⟨-,-,hw⟩
    · exact (hp.created x hx hc).trans hle
    · exact absurd hw (hp.child x hx).ne
  finished hf hfin := by
    rcases h.finished_cases he hfin with ⟨hfin,hle⟩ | ⟨-,hv,hr,hact⟩
    · exact (hp.finished hf hfin).trans hle
    · rw [hact, hv]
      have hle := hp.running hr
      rw [hv] at hle
      refine hle.trans (le_trans ?_ (thread_le_release c [.tick t] t (.sync t)))
      exact thread_le_run (by simp [Action.restarts]) c

/-- The event of the part itself, stamped with the clock that its thread has afterwards. -/
theorem new (h : Times s c) (htr : ∀ b, (m b).Tracks (s.synctab b)) (he : a.exec cfg s t = some s')
    (hk : a.Seen isMutex m s s' t m' k) :
    Past isMutex s' m' (run c (a.actions s t)) ⟨s.threadId t,k⟩ ((run c (a.actions s t)).thread t) where
  known u := ((h.bounded_exec he).1 u).2 t
  unborn hc := by
    by_cases hs : ∃ l, a = .start l
    · obtain ⟨l,rfl⟩ := hs
      obtain ⟨u,-,hupd⟩ := h.phases he
      rw [hupd] at hc
      simp [State.threadId] at hc
    · have hrun := h.phase_step he fun l hl => hs ⟨l,hl⟩
      rcases h.created_cases he hc with ⟨hc,-⟩ | ⟨⟨d,rfl⟩,ht,-⟩
      · change s.phase t = _ at hc
        rw [hrun] at hc
        cases hc
      · change t = newTid s at ht
        rw [ht] at hrun
        cases (h.phases he).1 _ _ hrun
  uid := by
    refine lt_of_lt_of_le ?_ (h.seq_le he)
    by_cases hs : ∃ l, a = .start l
    · obtain ⟨l,rfl⟩ := hs
      exact h.unique_id_lt (h.phase_start he)
    · exact h.unique_id_lt (h.phase_step he fun l hl => hs ⟨l,hl⟩)
  child x hx := by
    cases hk with
    | create d =>
      cases hx
      rw [(h.phases he).2.2]
      exact Nat.lt_succ_self _
    | _ => cases hx
  running _ := le_rfl
  mutex b hb := by
    cases hk with
    | writeUnlock a b' x ha hb' hx =>
      cases hb
      exact hb'
    | _ => cases hb
  unlocked b hb hn := by
    cases hk with
    | writeUnlock a b' x ha hb' hx =>
      cases hb
      rw [Function.update_self] at hn
      rcases RwMutex.unlock_eq_some hx with ⟨hm,-⟩ | ⟨d,-,rfl⟩
      · rw [unlock_actions (htr b) hm ha]
        exact thread_le_store c [.tick t] t (.clock b)
      · cases hn
    | _ => cases hb
  readUnlocked b hb := by
    cases hk with
    | readUnlock a b' x ha hb' hx =>
      cases hb
      rw [readUnlock_actions (htr b) (RwMutex.readUnlock_eq_some hx).1 ha]
      exact thread_le_release c [.tick t] t (.read_clock b)
    | _ => cases hb
  held b hb o ho _ := by
    cases hk with
    | writeUnlock a b' x ha hb' hx =>
      rcases hb with hb | hb <;> cases hb
      rw [Function.update_self] at ho
      rcases RwMutex.unlock_eq_some hx with ⟨-,rfl⟩ | ⟨d,-,rfl⟩
      · cases ho
      · cases ho
        exact le_rfl
    | readUnlock a b' x ha hb' hx =>
      rcases hb with hb | hb <;> cases hb
      rw [Function.update_self, (RwMutex.readUnlock_eq_some hx).2] at ho
      cases ho
    | _ => rcases hb with hb | hb <;> cases hb
  created x hx _ := by
    cases hk with
    | create d =>
      cases hx
      exact thread_le_release c [.reset (.sync (newTid s)),.tick t] t (.sync (newTid s))
    | _ => cases hx
  finished hf hfin := by
    cases hk with
    | finish =>
      rcases h.finished_cases he hfin with ⟨hfin,-⟩ | ⟨-,-,-,hact⟩
      · have hrun := h.phase_step he (by simp)
        change s.phase t = _ at hfin
        rw [hrun] at hfin
        cases hfin
      · rw [hact]
        exact thread_le_release c [.tick t] t (.sync t)
    | _ => cases hf

/-! ### Edges -/

theorem le_of_thread (hp : Past isMutex s m c e v) (h : Times s c) (he : a.exec cfg s t = some s')
    (hk : a.Seen isMutex m s s' t m' k) (heq : e.thread = s.threadId t) :
    v ≤ (run c (a.actions s t)).thread t := by
  have hunborn := hp.unborn
  have hrunning := hp.running
  rw [heq] at hunborn hrunning
  by_cases hs : ∃ l, a = .start l
  · obtain ⟨l,rfl⟩ := hs
    exact absurd (h.phase_start he) hunborn
  · have hns : ∀ l, a ≠ .start l := fun l hl => hs ⟨l,hl⟩
    exact (hrunning (h.phase_step he hns)).trans (Act.thread_le hns hk.ne_acquireGlobal t)

theorem le_of_syncs (hp : Past isMutex s m c e v) (h : Times s c) (htr : ∀ b, (m b).Tracks (s.synctab b))
    (he : a.exec cfg s t = some s') (hk : a.Seen isMutex m s s' t m' k) (hs : e.Syncs ⟨s.threadId t,k⟩) :
    v ≤ (run c (a.actions s t)).thread t := by
  obtain ⟨w,ke⟩ := e
  cases hk with
  | writeLock b x hb hx =>
    have hunlock : ke = .writeUnlock b ∨ ke = .readUnlock b := by
      cases ke <;> first | exact hs.elim | exact Or.inl (congrArg _ hs) | exact Or.inr (congrArg _ hs)
    rcases RwMutex.lock_eq_some hx with ⟨hm,-⟩ | ⟨d,hm,-⟩
    · have hw : (m b).writer = none := by rw [hm]; rfl
      refine le_lock (htr b) hw (hp.known t) ?_
      rcases hunlock with hu | hu
      · exact Or.inl (hp.unlocked b hu hw)
      · exact Or.inr (hp.readUnlocked b hu)
    · have hheld := hp.held b hunlock (s.threadId t) (by rw [hm]; rfl) (h.phase_step he (by simp))
      exact hheld.trans (Act.thread_le (by simp) (by simp) t)
  | readLock b x hb hx =>
    have hunlock : ke = .writeUnlock b := by
      cases ke <;> first | exact hs.elim | exact congrArg _ hs
    have hv := hp.unlocked b hunlock (RwMutex.readLock_eq_some hx).1
    exact le_run_acquire (o := .clock b) (by simp [Act.actions]) (by simp [Act.actions, Action.replaces])
      (by simp [Act.actions, Action.restarts]) hv (hp.known t)
  | start l =>
    have hcreate : ke = .create (s.threadId t) := by
      cases ke <;> first | exact hs.elim | exact congrArg _ hs
    have hv : v ≤ c.obj (.sync t) := hp.created _ hcreate (h.phase_start he)
    have htime := (hp.known t).trans ((h.bounded_exec he).2 t)
    intro u
    rcases eq_or_ne u t with rfl | hu
    · exact htime
    · simpa [Act.actions, Action.apply, hu] using hv u
  | join v' =>
    have hfinish : ke = .finish ∧ w = s.threadId v' := by
      cases ke <;> first | exact hs.elim | exact ⟨rfl,hs.symm⟩
    obtain ⟨rfl,rfl⟩ := hfinish
    obtain ⟨u,hfin,-⟩ := h.phases he
    have hst := status_of_phase hfin
    rw [← State.unique_id_of_phase hfin] at hfin
    have hv := hp.finished rfl hfin
    have hact : (Act.join v').actions s t = [.acquire t (.sync v'),.reset (.sync v')] := by
      rw [Act.actions, if_pos hst]
    rw [hact, run_cons]
    exact (le_acquire hv (hp.known t)).trans (thread_le_run (by simp [Action.restarts]) _)
  | _ => cases ke <;> exact hs.elim

end Past

/-- The clock of an atomic keeps what is released to it until the next release store. -/
theorem released_le (hk : a.Seen isMutex m s s' t m' k) (hb : isMutex b = false) (hs : k ≠ .releaseStore b) :
    c.obj (.clock b) ≤ (run c (a.actions s t)).obj (.clock b) := by
  refine Act.clock_le ?_ fun ha _ => ?_
  · rintro rfl
    cases hk with
    | writeUnlock a b' x ha => rcases ha with ha | ha <;> cases ha
    | readUnlock a b' x ha => rcases ha with ha | ha <;> cases ha
    | releaseStore b => exact hs rfl
  · rw [hk.isMutex_of_unlock ha] at hb
    cases hb

theorem release_le (hk : a.Seen isMutex m s s' t m' k) (hr : k = .release b ∨ k = .releaseStore b) :
    isMutex b = false ∧ (run c (a.actions s t)).thread t ≤ (run c (a.actions s t)).obj (.clock b) := by
  cases hk with
  | release b' hb =>
    rcases hr with hr | hr <;> cases hr
    exact ⟨hb,thread_le_release c [] t (.clock b)⟩
  | releaseStore b' hb =>
    rcases hr with hr | hr <;> cases hr
    exact ⟨hb,thread_le_store c [] t (.clock b)⟩
  | _ => rcases hr with hr | hr <;> cases hr

theorem le_of_acquire (hk : a.Seen isMutex m s s' t m' k) (hacq : k = .acquire b) (hv : v ≤ c.obj (.clock b))
    (ht : v t ≤ c.thread t t) : v ≤ (run c (a.actions s t)).thread t := by
  cases hk with
  | acquire b' hb =>
    cases hacq
    exact le_acquire hv ht
  | _ => cases hacq

end Step

/-! ## Runs -/

/-- Every event of the trace has a stamp, and happens-before goes up in the stamps. -/
structure Stamped (isMutex : ℕ → Bool) (M : Monitor) (c : Clocks ℕ Obj) (vc : ℕ → ℕ → ℕ) : Prop where
  times : Times M.state c
  tracks : ∀ b, (M.mutexes b).Tracks (M.state.synctab b)
  holder : ∀ b o, (M.mutexes b).writer = some o →
    M.state.phase o.1 ≠ some (.Created,o.2) ∧ o.2 < M.state.unique_thread_seq
  past : ∀ i e, M.trace[i]? = some e → Past isMutex M.state M.mutexes c e (vc i)
  released : ∀ i e b, M.trace[i]? = some e → (e.kind = .release b ∨ e.kind = .releaseStore b) →
    isMutex b = false ∧ ((∀ k g, i < k → M.trace[k]? = some g → g.kind ≠ .releaseStore b) → vc i ≤ c.obj (.clock b))
  edge : ∀ i j, Edge M.trace i j → vc i ≤ vc j

namespace Stamped
variable {cfg : Config} {isMutex : ℕ → Bool} {M M' : Monitor} {c : Clocks ℕ Obj} {vc : ℕ → ℕ → ℕ} {t : ℕ}

theorem le_of_precedes (h : Stamped isMutex M c vc) {i j : ℕ} (hij : Precedes M.trace i j) : vc i ≤ vc j := by
  induction hij with
  | single hij => exact h.edge _ _ hij
  | tail _ hij ih => exact ih.trans (h.edge _ _ hij)

theorem holder_step (h : Stamped isMutex M c vc) {a : Act} {s' : State} {m' : ℕ → RwMutex ThreadId} {k : Kind}
    (he : a.exec cfg M.state t = some s') (hk : a.Seen isMutex M.mutexes M.state s' t m' k) (b : ℕ) (o : ThreadId)
    (ho : (m' b).writer = some o) : s'.phase o.1 ≠ some (.Created,o.2) ∧ o.2 < s'.unique_thread_seq := by
  have hseq := h.times.seq_le he
  by_cases hw : (M.mutexes b).writer = some o
  · obtain ⟨h1,h2⟩ := h.holder b o hw
    refine ⟨fun hc => ?_,h2.trans_le hseq⟩
    rcases h.times.created_cases he hc with ⟨hc,-⟩ | ⟨-,-,hw⟩
    · exact h1 hc
    · exact h2.ne hw
  · obtain ⟨rfl,-,rfl⟩ := hk.locks hw ho
    have hrun := h.times.phase_step he (by simp)
    refine ⟨fun hc => ?_,(h.times.unique_id_lt hrun).trans_le hseq⟩
    rcases h.times.created_cases he hc with ⟨hc,-⟩ | ⟨⟨d,hd⟩,-,-⟩
    · change M.state.phase t = _ at hc
      rw [hrun] at hc
      cases hc
    · cases hd

/-- A part of a step stamps its event with the new clock of its thread. -/
theorem step (h : Stamped isMutex M c vc) {a : Act} (hM : a.monitor cfg isMutex M t = some M') :
    Stamped isMutex M' (run c (a.actions M.state t))
      (Function.update vc M.trace.length ((run c (a.actions M.state t)).thread t)) := by
  obtain ⟨s',m',k,he,hk,rfl⟩ := Act.monitor_eq_some hM
  have hold : ∀ i e, M.trace[i]? = some e → Function.update vc M.trace.length
      ((run c (a.actions M.state t)).thread t) i = vc i := fun i e hi => by
    rw [Function.update_of_ne (lt_length_of_getElem? hi).ne]
  have hnew := Past.new h.times h.tracks he hk
  refine ⟨h.times.exec he,tracks_exec h.times he hk h.tracks,h.holder_step he hk,?_,?_,?_⟩
  · intro i e hi
    rcases getElem?_concat_eq_some.mp hi with hi | ⟨rfl,rfl⟩
    · rw [hold i e hi]
      exact (h.past i e hi).step h.times h.tracks (fun b o ho => (h.holder b o ho).1) he hk
    · rw [Function.update_self]
      exact hnew
  · intro i e b hi hr
    rcases getElem?_concat_eq_some.mp hi with hi | ⟨rfl,rfl⟩
    · obtain ⟨hb,hle⟩ := h.released i e b hi hr
      refine ⟨hb,fun hno => ?_⟩
      have hno' : ∀ k g, i < k → M.trace[k]? = some g → g.kind ≠ .releaseStore b := fun k g hik hg =>
        hno k g hik (getElem?_concat_eq_some.mpr (Or.inl hg))
      have hk' := hno M.trace.length _ (lt_length_of_getElem? hi) (getElem?_concat_eq_some.mpr (Or.inr ⟨rfl,rfl⟩))
      rw [hold i e hi]
      exact (hle hno').trans (released_le hk hb hk')
    · obtain ⟨hb,hle⟩ := release_le (c := c) hk hr
      rw [Function.update_self]
      exact ⟨hb,fun _ => hle⟩
  · intro i j hij
    rcases hij.of_concat with hij | ⟨rfl,e,hi,hrel⟩
    · obtain ⟨-,e,f,hi,hj,-⟩ := id hij
      rw [hold i e hi, hold j f hj]
      exact h.edge i j hij
    · have hp := h.past i e hi
      rw [hold i e hi, Function.update_self]
      rcases hrel with hth | hs | ⟨b,hr,hacq,hno⟩
      · exact hp.le_of_thread h.times he hk hth
      · exact hp.le_of_syncs h.times h.tracks he hk hs
      · exact le_of_acquire hk hacq ((h.released i e b hi hr).2 hno) (hp.known t)

end Stamped

theorem synctab_init {cfg : Config} {l : StackAndTls} {s : State} (h : Initialize cfg l = some s) (b : ℕ) :
    s.synctab b = .new := by
  obtain ⟨tctx,x,-,-,-,-,-,htab,-⟩ := ThreadStart_eq_some (Initialize_eq_some h)
  rw [htab]
  rfl

theorem stamped_init {cfg : Config} {isMutex : ℕ → Bool} {l : StackAndTls} {s : State}
    (h : Initialize cfg l = some s) :
    ∃ c, Stamped isMutex ⟨s,fun _ => .free,[]⟩ c fun _ => 0 := by
  refine ⟨_,times_created.exec (Initialize_eq_some h),fun b => ?_,?_,?_,?_,?_⟩
  · rw [synctab_init h]
    exact ⟨rfl,rfl⟩
  · intro b o ho
    cases ho
  · intro i e hi
    cases hi
  · intro i e b hi
    cases hi
  · intro i j hij
    obtain ⟨-,e,f,hi,-⟩ := hij
    cases hi

theorem Reachable.stamped {cfg : Config} {isMutex : ℕ → Bool} {M : Monitor} (h : Reachable cfg isMutex M) :
    ∃ c vc, Stamped isMutex M c vc := by
  refine h.parts (P := fun M => ∃ c vc, Stamped isMutex M c vc) (fun l s hl => ?_) fun M M' t a hM ha => ?_
  · obtain ⟨c,hc⟩ := stamped_init hl
    exact ⟨c,_,hc⟩
  · obtain ⟨c,vc,hc⟩ := hM
    exact ⟨_,_,hc.step ha⟩

end CompilerRt.Tsan
