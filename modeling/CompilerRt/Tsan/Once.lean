import CompilerRt.Tsan.Stamps
import CompilerRt.Lib.Transition

/-! # What is done once

The interceptor of `pthread_once` does not call the real function. It keeps its own protocol on the word of the
control: 0 before the first call, 1 while the function runs, 2 after it. The calls of all threads are interleaved with
each other and with all that the threads do otherwise, inside of the function as well.
-/
namespace CompilerRt.Tsan.Once
open FastState VectorClock

/-- Where a call is in the code of the interceptor. -/
inductive Place where
  /-- at the first load of the word -/
  | load
  /-- at the exchange of 0 for 1 -/
  | exchange
  /-- in the function -/
  | running
  /-- at the release, after the function -/
  | release
  /-- at the store of 2 -/
  | store
  /-- at the test of the loop, with what was loaded last -/
  | spin (v : ℕ)
  deriving DecidableEq

structure Frame where
  control : ℕ
  place : Place
  deriving DecidableEq

/-- What is written down of the calls, with how long the trace was. -/
inductive Note where
  | begun (control : ℕ) (me : ThreadId) (length : ℕ)
  | completed (control : ℕ) (me : ThreadId) (length : ℕ)
  | returned (control : ℕ) (me : ThreadId) (length : ℕ)
  deriving DecidableEq

structure State where
  monitor : Monitor
  word : ℕ → ℕ
  /-- The calls that a thread is in, the innermost one first. -/
  frames : ℕ → List Frame
  log : List Note

namespace State
variable (s : State) (t : ℕ)

def me : ThreadId := s.monitor.state.threadId t

def setFrames (fs : List Frame) : State := { s with frames := Function.update s.frames t fs }
def setWord (o v : ℕ) : State := { s with word := Function.update s.word o v }
def note (n : Note) : State := { s with log := n :: s.log }

/-- The code of the user runs, not that of the interceptor. -/
def inUser : Bool := match s.frames t with
  | [] => true
  | f :: _ => f.place = .running

end State

inductive Step where
  | user (op : Op)
  | call (o f : ℕ)
  | ret
  | next

section Step
variable (cfg : Config) (isMutex isOnce : ℕ → Bool) (s : State) (t : ℕ)

/-- The user stores no clock at the address of a control. -/
def keepsOff : Op → Bool
  | .ReleaseStore o => !isOnce o
  | _ => true

/-- A thread that ends leaves the calls it is in. -/
def ends : Op → Bool
  | .ThreadFinish => true
  | _ => false

def userStep (op : Op) : Option State :=
  if s.inUser t ∧ keepsOff isOnce op then
    (op.monitor cfg isMutex s.monitor t).map fun M =>
      if ends op then { s with monitor := M }.setFrames t [] else { s with monitor := M }
  else none

/-- The next step of the interceptor in the innermost call. -/
def nextStep : Option State := match s.frames t with
  | [] => none
  | ⟨o,place⟩ :: rest => match place with
    | .load =>
      if s.word o = 0 then some (s.setFrames t (⟨o,.exchange⟩ :: rest))
      else some (s.setFrames t (⟨o,.spin (s.word o)⟩ :: rest))
    | .exchange =>
      if s.word o = 0 then
        some (((s.setWord o 1).setFrames t (⟨o,.running⟩ :: rest)).note (.begun o (s.me t) s.monitor.trace.length))
      else some (s.setFrames t (⟨o,.spin (s.word o)⟩ :: rest))
    | .running => none
    | .release => ((Op.Release o).monitor cfg isMutex s.monitor t).map fun M =>
      ({ s with monitor := M }.setFrames t (⟨o,.store⟩ :: rest)).note (.completed o (s.me t) s.monitor.trace.length)
    | .store =>
      some (((s.setWord o 2).setFrames t rest).note (.returned o (s.me t) s.monitor.trace.length))
    | .spin v =>
      if v = 2 then
        ((Op.Acquire o).monitor cfg isMutex s.monitor t).map fun M =>
          ({ s with monitor := M }.setFrames t rest).note (.returned o (s.me t) M.trace.length)
      else some (s.setFrames t (⟨o,.spin (s.word o)⟩ :: rest))

def step : Step → Option State
  | .user op => userStep cfg isMutex isOnce s t op
  | .call o f =>
    if s.inUser t ∧ (s.monitor.state.thr t).isSome ∧ isOnce o then
      -- EINVAL
      if o = 0 ∨ f = 0 then some s
      else some (s.setFrames t (⟨o,.load⟩ :: s.frames t))
    else none
  | .ret => match s.frames t with
    | ⟨o,.running⟩ :: rest => some (s.setFrames t (⟨o,.release⟩ :: rest))
    | _ => none
  | .next => nextStep cfg isMutex s t

/-- The runs from the start of the program. -/
inductive Reachable : State → Prop
  | init {l : StackAndTls} {s : Tsan.State} (h : Initialize cfg l = some s) :
      Reachable ⟨⟨s,fun _ => .free,[]⟩,fun _ => 0,fun _ => [],[]⟩
  | step {s s' : State} {t : ℕ} {a : Step} (h : Reachable s) (ha : step cfg isMutex isOnce s t a = some s') :
      Reachable s'

end Step

/-! ## What a step of the detector leaves -/

section Detector
variable {cfg : Config} {isMutex isOnce : ℕ → Bool} {M M' : Monitor} {t v u o : ℕ} {op : Op}

theorem phase_exec {s s' : Tsan.State} {c : Clocks ℕ Obj} {a : Act} (h : Times s c) (he : a.exec cfg s t = some s')
    (hne : a = .finish → v ≠ t) (hv : s.phase v = some (.Running,u)) : s'.phase v = some (.Running,u) := by
  have hphases := h.phases he
  have hother : ∀ {w x : ℕ} {st : ThreadStatus}, s.phase w = some (st,x) → st ≠ .Running → v ≠ w := by
    intro w x st hw hst hvw
    rw [← hvw, hv] at hw
    cases hw
    exact hst rfl
  cases a with
  | create d =>
    obtain ⟨hdead,hupd,-⟩ := hphases
    have hnew : v ≠ newTid s := by
      intro hvn
      have hd := hdead .Running u (hvn ▸ hv)
      cases hd
    rw [hupd, Function.update_of_ne hnew, hv]
  | start l =>
    obtain ⟨w,hw,hupd⟩ := hphases
    rw [hupd, Function.update_of_ne (hother hw (by simp)), hv]
  | finish =>
    obtain ⟨st,w,-,hupd,-⟩ := hphases
    rw [hupd, Function.update_of_ne (hne rfl), hv]
  | join w =>
    obtain ⟨x,hw,hupd⟩ := hphases
    rw [hupd, Function.update_of_ne (hother hw (by simp)), hv]
  | detach w =>
    rcases hphases with ⟨hsame,-⟩ | ⟨x,hw,hupd⟩
    · rw [hsame, hv]
    · rw [hupd, Function.update_of_ne (hother hw (by simp)), hv]
  | _ => exact (congrFun (show s'.phase = s.phase from hphases) v).trans hv

theorem mem_acts_finish (h : Act.finish ∈ op.acts cfg) : op = .ThreadFinish := by
  cases op with
  | MutexLock a | MutexUnlock a | MutexReadLock a | MutexReadUnlock a | MutexReadOrWriteUnlock a =>
    rcases mem_onMutex h with h | h
    · cases h
    · cases h
  | ThreadFinish => rfl
  | _ => cases List.mem_singleton.mp h

theorem mem_acts_releaseStore (h : Act.releaseStore o ∈ op.acts cfg) : op = .ReleaseStore o := by
  cases op with
  | MutexLock a | MutexUnlock a | MutexReadLock a | MutexReadUnlock a | MutexReadOrWriteUnlock a =>
    rcases mem_onMutex h with h | h
    · cases h
    · cases h
  | ReleaseStore a =>
    cases List.mem_singleton.mp h
    rfl
  | _ => cases List.mem_singleton.mp h

/-- What a step of the detector keeps if its parts do. -/
theorem monitor_keeps {P : Monitor → Prop}
    (hact : ∀ M M' a, a ∈ op.acts cfg → P M → Act.monitor cfg isMutex M t a = some M' → P M') (hM : P M)
    (h : op.monitor cfg isMutex M t = some M') : P M' := by
  unfold Op.monitor at h
  generalize op.acts cfg = acts at hact h
  induction acts generalizing M with
  | nil =>
    cases h
    exact hM
  | cons a acts ih =>
    rw [List.foldlM_cons, Option.bind_eq_bind, Option.bind_eq_some_iff] at h
    obtain ⟨M₁,h₁,h⟩ := h
    exact ih (hact M M₁ a List.mem_cons_self hM h₁) (fun M M' b hb => hact M M' b (List.mem_cons_of_mem a hb)) h

/-- A running thread runs until it ends itself. -/
theorem phase_monitor (h : Tsan.Reachable cfg isMutex M) (hop : op.monitor cfg isMutex M t = some M')
    (hne : ends op = true → v ≠ t) (hv : M.state.phase v = some (.Running,u)) :
    M'.state.phase v = some (.Running,u) := by
  obtain ⟨c,vc,hst⟩ := h.stamped
  refine (monitor_keeps (P := fun M => (∃ c vc, Stamped isMutex M c vc) ∧ M.state.phase v = some (.Running,u))
    (fun M M' a ha hM hM' => ?_) ⟨⟨c,vc,hst⟩,hv⟩ hop).2
  obtain ⟨⟨c,vc,hst⟩,hv⟩ := hM
  obtain ⟨s,m,k,hs,-,rfl⟩ := Act.monitor_eq_some hM'
  refine ⟨⟨_,_,hst.step hM'⟩,phase_exec hst.times hs (fun hf => hne ?_) hv⟩
  have hop' : op = .ThreadFinish := mem_acts_finish (hf ▸ ha)
  rw [hop']
  rfl

theorem threadId_of_phase {s : Tsan.State} (hv : s.phase v = some (.Running,u)) : s.threadId v = (v,u) := by
  rw [State.threadId, State.unique_id_of_phase hv]

theorem trace_monitor (hop : op.monitor cfg isMutex M t = some M') : ∃ l, M'.trace = M.trace ++ l := by
  refine monitor_keeps (P := fun M₁ => ∃ l, M₁.trace = M.trace ++ l) (fun M₁ M₂ a _ h₁ h₂ => ?_)
    ⟨[],(List.append_nil _).symm⟩ hop
  obtain ⟨l,hl⟩ := h₁
  obtain ⟨s,m,k,-,-,rfl⟩ := Act.monitor_eq_some h₂
  exact ⟨l ++ [⟨M₁.state.threadId t,k⟩],by rw [← List.append_assoc, ← hl]⟩

theorem getElem?_of_monitor (hop : op.monitor cfg isMutex M t = some M') {i : ℕ} {e : Event}
    (hi : M.trace[i]? = some e) : M'.trace[i]? = some e := by
  obtain ⟨l,hl⟩ := trace_monitor hop
  rw [hl, List.getElem?_append_left (lt_length_of_getElem? hi), hi]

theorem length_le_monitor (hop : op.monitor cfg isMutex M t = some M') : M.trace.length ≤ M'.trace.length := by
  obtain ⟨l,hl⟩ := trace_monitor hop
  rw [hl, List.length_append]
  exact Nat.le_add_right _ _

/-- No clock is stored at the address of a control. -/
def NoStore (isOnce : ℕ → Bool) (M : Monitor) : Prop :=
  ∀ (i : ℕ) (e : Event) (o : ℕ), M.trace[i]? = some e → isOnce o = true → e.kind ≠ .releaseStore o

theorem noStore_monitor (hop : op.monitor cfg isMutex M t = some M') (hk : keepsOff isOnce op = true)
    (h : NoStore isOnce M) : NoStore isOnce M' := by
  refine monitor_keeps (P := NoStore isOnce) (fun M M' a ha hM hM' => ?_) h hop
  obtain ⟨s,m,k,-,hseen,rfl⟩ := Act.monitor_eq_some hM'
  intro i e o hi ho hek
  rcases getElem?_concat_eq_some.mp hi with hi | ⟨-,rfl⟩
  · exact hM i e o hi ho hek
  · change k = .releaseStore o at hek
    subst hek
    cases hseen
    rw [mem_acts_releaseStore ha, keepsOff, ho] at hk
    cases hk

theorem monitor_release (hop : (Op.Release o).monitor cfg isMutex M t = some M') :
    M'.trace = M.trace ++ [⟨M.state.threadId t,.release o⟩] := by
  have hact : (Act.release o).monitor cfg isMutex M t = some M' := by simpa [Op.monitor, Op.acts] using hop
  obtain ⟨s,m,k,-,hseen,rfl⟩ := Act.monitor_eq_some hact
  cases hseen with
  | release => rfl
  | writeUnlock _ _ _ ha => rcases ha with ha | ha <;> cases ha
  | readUnlock _ _ _ ha => rcases ha with ha | ha <;> cases ha

theorem monitor_acquire (hop : (Op.Acquire o).monitor cfg isMutex M t = some M') :
    M'.trace = M.trace ++ [⟨M.state.threadId t,.acquire o⟩] := by
  have hact : (Act.acquire o).monitor cfg isMutex M t = some M' := by simpa [Op.monitor, Op.acts] using hop
  obtain ⟨s,m,k,-,hseen,rfl⟩ := Act.monitor_eq_some hact
  cases hseen with
  | acquire => rfl
  | writeUnlock _ _ _ ha => rcases ha with ha | ha <;> cases ha
  | readUnlock _ _ _ ha => rcases ha with ha | ha <;> cases ha

end Detector

/-! ## The invariant -/

/-- In these places the function was begun and 2 is not stored yet. -/
def Place.inside : Place → Bool
  | running | release | store => true
  | load | exchange | spin _ => false

/-- The call begins the function of the control. -/
def Note.begins (o : ℕ) : Note → Bool
  | begun o' _ _ => o' = o
  | completed .. | returned .. => false

def Begun (log : List Note) (o : ℕ) (me : ThreadId) : Prop := ∃ p, .begun o me p ∈ log
def Completed (log : List Note) (o : ℕ) : Prop := ∃ me q, .completed o me q ∈ log

structure FrameOk (isOnce : ℕ → Bool) (word : ℕ → ℕ) (log : List Note) (me : ThreadId) (f : Frame) : Prop where
  control : isOnce f.control = true
  inside : f.place.inside = true → word f.control = 1 ∧ Begun log f.control me
  store : f.place = .store → Completed log f.control
  spin : f.place = .spin 2 → Completed log f.control

/-- What the notes say of the trace. -/
structure NotesOk (tr : List Event) (log : List Note) : Prop where
  begun : ∀ o me p, .begun o me p ∈ log → p ≤ tr.length
  completed : ∀ o me q, .completed o me q ∈ log →
    tr[q]? = some ⟨me,.release o⟩ ∧ ∃ p, .begun o me p ∈ log ∧ p ≤ q
  returned : ∀ o me r, .returned o me r ∈ log → ∃ me' q, .completed o me' q ∈ log ∧ q < r ∧
    (me = me' ∨ ∃ a, q < a ∧ a < r ∧ tr[a]? = some ⟨me,.acquire o⟩)

structure Inv (cfg : Config) (isMutex isOnce : ℕ → Bool) (s : State) : Prop where
  reach : Tsan.Reachable cfg isMutex s.monitor
  noStore : NoStore isOnce s.monitor
  running : ∀ t, s.frames t ≠ [] → ∃ u, s.monitor.state.phase t = some (.Running,u)
  frame : ∀ t f, f ∈ s.frames t → FrameOk isOnce s.word s.log (s.me t) f
  alone : ∀ t, (s.frames t).Pairwise fun f g => f.place.inside = true → g.place.inside = true → f.control ≠ g.control
  notes : NotesOk s.monitor.trace s.log
  zero : ∀ o, s.word o = 0 → ∀ me, ¬ Begun s.log o me
  two : ∀ o, s.word o = 2 → Completed s.log o
  once : ∀ o, s.log.countP (Note.begins o) ≤ 1
  control : ∀ o me, Begun s.log o me → isOnce o = true

section Frames
variable {isOnce : ℕ → Bool} {word word' : ℕ → ℕ} {log log' : List Note} {me me' : ThreadId} {f : Frame} {o p q : ℕ}
  {n : Note}

theorem Completed.mono (h : Completed log o) (hlog : log ⊆ log') : Completed log' o := by
  obtain ⟨me,q,hq⟩ := h
  exact ⟨me,q,hlog hq⟩

theorem Begun.mono (h : Begun log o me) (hlog : log ⊆ log') : Begun log' o me := by
  obtain ⟨p,hp⟩ := h
  exact ⟨p,hlog hp⟩

theorem FrameOk.mono (h : FrameOk isOnce word log me f) (hlog : log ⊆ log')
    (hword : f.place.inside = true → word' f.control = word f.control) : FrameOk isOnce word' log' me f where
  control := h.control
  inside hf := ⟨(hword hf).trans (h.inside hf).1,(h.inside hf).2.mono hlog⟩
  store hf := (h.store hf).mono hlog
  spin hf := (h.spin hf).mono hlog

theorem eq_of_countP_le_one {α : Type*} {l : List α} {P : α → Bool} {a b : α} (h : l.countP P ≤ 1) (ha : a ∈ l)
    (hb : b ∈ l) (hPa : P a = true) (hPb : P b = true) : a = b := by
  rw [List.countP_eq_length_filter] at h
  have ha' := List.mem_filter.mpr ⟨ha,hPa⟩
  have hb' := List.mem_filter.mpr ⟨hb,hPb⟩
  generalize l.filter P = l' at h ha' hb'
  match l', h with
  | [x], _ => rw [List.mem_singleton.mp ha', List.mem_singleton.mp hb']

theorem Begun.unique (h : Begun log o me) (h' : Begun log o me') (honce : log.countP (Note.begins o) ≤ 1) :
    me = me' := by
  obtain ⟨p,hp⟩ := h
  obtain ⟨p',hp'⟩ := h'
  cases eq_of_countP_le_one honce hp hp' (by simp [Note.begins]) (by simp [Note.begins])
  rfl

theorem Note.begins_eq_true (h : n.begins o = true) : ∃ me p, n = .begun o me p := by
  cases n with
  | begun o' me p =>
    cases of_decide_eq_true h
    exact ⟨me,p,rfl⟩
  | completed | returned => cases h

/-- A control of which nothing was begun has no note of a beginning. -/
theorem countP_eq_zero (h : ∀ me, ¬ Begun log o me) : log.countP (Note.begins o) = 0 := by
  refine List.countP_eq_zero.mpr fun n hn hb => ?_
  obtain ⟨me,p,rfl⟩ := Note.begins_eq_true hb
  exact h me ⟨p,hn⟩

/-- A longer trace has the notes' events where they were. -/
theorem NotesOk.mono {tr tr' : List Event} (h : NotesOk tr log) (htr : ∀ (i : ℕ) (e : Event), tr[i]? = some e → tr'[i]? = some e)
    (hlen : tr.length ≤ tr'.length) : NotesOk tr' log where
  begun o me p hp := (h.begun o me p hp).trans hlen
  completed o me q hq := ⟨htr _ _ (h.completed o me q hq).1,(h.completed o me q hq).2⟩
  returned o me r hr := by
    obtain ⟨me',q,hq,hqr,hcase⟩ := h.returned o me r hr
    refine ⟨me',q,hq,hqr,hcase.imp_right fun ha => ?_⟩
    obtain ⟨a,hqa,har,hta⟩ := ha
    exact ⟨a,hqa,har,htr _ _ hta⟩

theorem NotesOk.begin {tr : List Event} (h : NotesOk tr log) : NotesOk tr (.begun o me tr.length :: log) where
  begun o' me' p hp := by
    rcases List.mem_cons.mp hp with hp | hp
    · cases hp
      exact le_rfl
    · exact h.begun o' me' p hp
  completed o' me' q hq := by
    obtain ⟨htr,p,hp,hpq⟩ := h.completed o' me' q (by simpa using hq)
    exact ⟨htr,p,List.mem_cons_of_mem _ hp,hpq⟩
  returned o' me' r hr := by
    obtain ⟨me₁,q,hq,hcase⟩ := h.returned o' me' r (by simpa using hr)
    exact ⟨me₁,q,List.mem_cons_of_mem _ hq,hcase⟩

theorem NotesOk.complete {tr : List Event} (h : NotesOk tr log) (hb : ∃ p, .begun o me p ∈ log ∧ p ≤ q)
    (hq : tr[q]? = some ⟨me,.release o⟩) : NotesOk tr (.completed o me q :: log) where
  begun o' me' p hp := h.begun o' me' p (by simpa using hp)
  completed o' me' q' hq' := by
    rcases List.mem_cons.mp hq' with hq' | hq'
    · cases hq'
      obtain ⟨p,hp,hpq⟩ := hb
      exact ⟨hq,p,List.mem_cons_of_mem _ hp,hpq⟩
    · obtain ⟨htr,p,hp,hpq⟩ := h.completed o' me' q' hq'
      exact ⟨htr,p,List.mem_cons_of_mem _ hp,hpq⟩
  returned o' me' r hr := by
    obtain ⟨me₁,q,hq,hcase⟩ := h.returned o' me' r (by simpa using hr)
    exact ⟨me₁,q,List.mem_cons_of_mem _ hq,hcase⟩

theorem NotesOk.return {tr : List Event} (h : NotesOk tr log) {r : ℕ} (hc : ∃ me' q, .completed o me' q ∈ log ∧ q < r ∧
    (me = me' ∨ ∃ a, q < a ∧ a < r ∧ tr[a]? = some ⟨me,.acquire o⟩)) : NotesOk tr (.returned o me r :: log) where
  begun o' me' p hp := h.begun o' me' p (by simpa using hp)
  completed o' me' q' hq' := by
    obtain ⟨htr,p,hp,hpq⟩ := h.completed o' me' q' (by simpa using hq')
    exact ⟨htr,p,List.mem_cons_of_mem _ hp,hpq⟩
  returned o' me' r' hr := by
    rcases List.mem_cons.mp hr with hr | hr
    · cases hr
      obtain ⟨me₁,q,hq,hcase⟩ := hc
      exact ⟨me₁,q,List.mem_cons_of_mem _ hq,hcase⟩
    · obtain ⟨me₁,q,hq,hcase⟩ := h.returned o' me' r' hr
      exact ⟨me₁,q,List.mem_cons_of_mem _ hq,hcase⟩

end Frames

/-! ## Steps -/

namespace Inv
variable {cfg : Config} {isMutex isOnce : ℕ → Bool} {s : State} {t o : ℕ} {place : Place} {rest fs : List Frame}

theorem setFrames (h : Inv cfg isMutex isOnce s) (hrun : fs ≠ [] → ∃ u, s.monitor.state.phase t = some (.Running,u))
    (hframe : ∀ f ∈ fs, FrameOk isOnce s.word s.log (s.me t) f)
    (halone : fs.Pairwise fun f g => f.place.inside = true → g.place.inside = true → f.control ≠ g.control) :
    Inv cfg isMutex isOnce (s.setFrames t fs) where
  reach := h.reach
  noStore := h.noStore
  running v hv := by
    rw [State.setFrames] at hv
    rcases eq_or_ne v t with rfl | hvt
    · simp only [Function.update_self] at hv
      exact hrun hv
    · simp only [Function.update_of_ne hvt] at hv
      exact h.running v hv
  frame v f hf := by
    rw [State.setFrames] at hf
    rcases eq_or_ne v t with rfl | hvt
    · simp only [Function.update_self] at hf
      exact hframe f hf
    · simp only [Function.update_of_ne hvt] at hf
      exact h.frame v f hf
  alone v := by
    rw [State.setFrames]
    rcases eq_or_ne v t with rfl | hvt
    · simpa only [Function.update_self] using halone
    · simpa only [Function.update_of_ne hvt] using h.alone v
  notes := h.notes
  zero := h.zero
  two := h.two
  once := h.once
  control := h.control

/-- The innermost call moves to a place outside of the function. -/
theorem move (h : Inv cfg isMutex isOnce s) (ht : s.frames t = ⟨o,place⟩ :: rest) {place' : Place}
    (hin : place'.inside = true → place.inside = true) (hstore : place' = .store → Completed s.log o)
    (hspin : place' = .spin 2 → Completed s.log o) :
    Inv cfg isMutex isOnce (s.setFrames t (⟨o,place'⟩ :: rest)) := by
  have hok := h.frame t
  have halone := h.alone t
  have hrun := h.running t
  rw [ht] at hok halone hrun
  refine h.setFrames (fun _ => hrun (by simp)) (fun f hf => ?_) ?_
  · rcases List.mem_cons.mp hf with rfl | hf
    · have htop := hok _ List.mem_cons_self
      exact ⟨htop.control,fun hf => htop.inside (hin hf),hstore,hspin⟩
    · exact hok f (List.mem_cons_of_mem _ hf)
  · rw [List.pairwise_cons] at halone ⊢
    exact ⟨fun g hg hf => halone.1 g hg (hin hf),halone.2⟩

/-- The innermost call is left. -/
theorem pop (h : Inv cfg isMutex isOnce s) {f : Frame} (ht : s.frames t = f :: rest) :
    Inv cfg isMutex isOnce (s.setFrames t rest) := by
  have hok := h.frame t
  have halone := h.alone t
  have hrun := h.running t
  rw [ht] at hok halone hrun
  exact h.setFrames (fun _ => hrun (by simp)) (fun g hg => hok g (List.mem_cons_of_mem _ hg)) (List.pairwise_cons.mp halone).2

theorem monitor (h : Inv cfg isMutex isOnce s) {M : Monitor} {op : Op}
    (hop : op.monitor cfg isMutex s.monitor t = some M) (hk : keepsOff isOnce op = true)
    (hends : ends op = true → s.frames t = []) : Inv cfg isMutex isOnce { s with monitor := M } := by
  have hphase : ∀ v u, s.frames v ≠ [] → s.monitor.state.phase v = some (.Running,u) →
      M.state.phase v = some (.Running,u) := fun v u hv hu =>
    phase_monitor h.reach hop (fun he hvt => hv (hvt ▸ hends he)) hu
  constructor
  · exact h.reach.step hop
  · exact noStore_monitor hop hk h.noStore
  · intro v hv
    obtain ⟨u,hu⟩ := h.running v hv
    exact ⟨u,hphase v u hv hu⟩
  · intro v f hf
    have hne : s.frames v ≠ [] := List.ne_nil_of_mem hf
    obtain ⟨u,hu⟩ := h.running v hne
    have hok := h.frame v f hf
    rw [State.me, threadId_of_phase hu] at hok
    rw [State.me, threadId_of_phase (hphase v u hne hu)]
    exact hok
  · exact h.alone
  · exact h.notes.mono (fun i e => getElem?_of_monitor hop) (length_le_monitor hop)
  · exact h.zero
  · exact h.two
  · exact h.once
  · exact h.control

theorem user (h : Inv cfg isMutex isOnce s) {s' : State} {op : Op} (ha : userStep cfg isMutex isOnce s t op = some s') :
    Inv cfg isMutex isOnce s' := by
  rw [userStep] at ha
  split_ifs at ha with hcond he
  · obtain ⟨M,hop,rfl⟩ := Option.map_eq_some_iff.mp ha
    have hleft : Inv cfg isMutex isOnce (s.setFrames t []) := h.setFrames (by simp) (by simp) List.Pairwise.nil
    exact hleft.monitor (M := M) hop hcond.2 fun _ => by simp [State.setFrames]
  · obtain ⟨M,hop,rfl⟩ := Option.map_eq_some_iff.mp ha
    exact h.monitor hop hcond.2 fun hf => absurd hf he

/-- The function of a control that was not begun is begun. -/
theorem begin (h : Inv cfg isMutex isOnce s) (ht : s.frames t = ⟨o,.exchange⟩ :: rest) (hw : s.word o = 0) :
    Inv cfg isMutex isOnce (((s.setWord o 1).setFrames t (⟨o,.running⟩ :: rest)).note
      (.begun o (s.me t) s.monitor.trace.length)) := by
  have hnone := h.zero o hw
  -- No call is in the function of this control.
  have hout : ∀ v f, f ∈ s.frames v → f.place.inside = true → f.control ≠ o := by
    intro v f hf hin heq
    exact hnone _ (heq ▸ ((h.frame v f hf).inside hin).2)
  have hlog : s.log ⊆ .begun o (s.me t) s.monitor.trace.length :: s.log := List.subset_cons_self _ _
  have hkeep : ∀ v f, f ∈ s.frames v → FrameOk isOnce (Function.update s.word o 1)
      (.begun o (s.me t) s.monitor.trace.length :: s.log) (s.me v) f := fun v f hf =>
    (h.frame v f hf).mono hlog fun hin => Function.update_of_ne (hout v f hf hin) _ _
  have hok := h.frame t
  have halone := h.alone t
  have hrun := h.running t
  rw [ht] at hok halone hrun
  constructor
  · exact h.reach
  · exact h.noStore
  · intro v hv
    simp only [State.note, State.setFrames, State.setWord] at hv ⊢
    rcases eq_or_ne v t with rfl | hvt
    · exact hrun (by simp)
    · rw [Function.update_of_ne hvt] at hv
      exact h.running v hv
  · intro v f hf
    simp only [State.note, State.setFrames, State.setWord] at hf ⊢
    rcases eq_or_ne v t with rfl | hvt
    · rw [Function.update_self] at hf
      rcases List.mem_cons.mp hf with rfl | hf
      · exact ⟨(hok _ List.mem_cons_self).control,
          fun _ => ⟨Function.update_self ..,s.monitor.trace.length,List.mem_cons_self⟩,by simp,by simp⟩
      · exact hkeep v f (by rw [ht]; exact List.mem_cons_of_mem _ hf)
    · rw [Function.update_of_ne hvt] at hf
      exact hkeep v f hf
  · intro v
    simp only [State.note, State.setFrames, State.setWord]
    rcases eq_or_ne v t with rfl | hvt
    · rw [Function.update_self, List.pairwise_cons]
      refine ⟨fun g hg _ hin => ?_,(List.pairwise_cons.mp halone).2⟩
      exact (hout v g (by rw [ht]; exact List.mem_cons_of_mem _ hg) hin).symm
    · rw [Function.update_of_ne hvt]
      exact h.alone v
  · exact h.notes.begin
  · intro o' hw' me hb
    simp only [State.note, State.setFrames, State.setWord] at hw' hb
    rcases eq_or_ne o' o with rfl | ho
    · rw [Function.update_self] at hw'
      cases hw'
    · rw [Function.update_of_ne ho] at hw'
      obtain ⟨p,hp⟩ := hb
      rcases List.mem_cons.mp hp with hp | hp
      · cases hp
        exact ho rfl
      · exact h.zero o' hw' me ⟨p,hp⟩
  · intro o' hw'
    simp only [State.note, State.setFrames, State.setWord] at hw' ⊢
    rcases eq_or_ne o' o with rfl | ho
    · rw [Function.update_self] at hw'
      cases hw'
    · rw [Function.update_of_ne ho] at hw'
      exact (h.two o' hw').mono hlog
  · intro o'
    simp only [State.note, State.setFrames, State.setWord, List.countP_cons]
    rcases eq_or_ne o' o with rfl | ho
    · rw [countP_eq_zero hnone]
      split_ifs <;> simp
    · rw [if_neg (by simp [Note.begins, ho.symm])]
      exact h.once o'
  · intro o' me hb
    obtain ⟨p,hp⟩ := hb
    rcases List.mem_cons.mp hp with hp | hp
    · cases hp
      exact (hok _ List.mem_cons_self).control
    · exact h.control o' me ⟨p,hp⟩

/-- After the release the function is completed. -/
theorem complete (h : Inv cfg isMutex isOnce s) (ht : s.frames t = ⟨o,.release⟩ :: rest) {M : Monitor}
    (hop : (Op.Release o).monitor cfg isMutex s.monitor t = some M) : Inv cfg isMutex isOnce
      (({ s with monitor := M }.setFrames t (⟨o,.store⟩ :: rest)).note (.completed o (s.me t) s.monitor.trace.length)) := by
  have htop := h.frame t ⟨o,.release⟩ (by rw [ht]; exact List.mem_cons_self)
  obtain ⟨-,p,hp⟩ := htop.inside rfl
  have hM : Inv cfg isMutex isOnce { s with monitor := M } := h.monitor hop rfl (by simp [ends])
  have hnotes : NotesOk M.trace (.completed o (s.me t) s.monitor.trace.length :: s.log) := by
    refine hM.notes.complete ⟨p,hp,h.notes.begun _ _ _ hp⟩ ?_
    rw [monitor_release hop, List.getElem?_concat_length]
    rfl
  -- The note first, then the move to the store.
  have hnoted : Inv cfg isMutex isOnce ({ s with monitor := M }.note (.completed o (s.me t) s.monitor.trace.length)) := by
    have hlog : s.log ⊆ .completed o (s.me t) s.monitor.trace.length :: s.log := List.subset_cons_self _ _
    refine ⟨hM.reach,hM.noStore,hM.running,fun v f hf => (hM.frame v f hf).mono hlog fun _ => rfl,hM.alone,hnotes,?_,
      fun o' hw => (h.two o' hw).mono hlog,fun o' => ?_,fun o' me' hb => ?_⟩
    · intro o' hw me hb
      obtain ⟨p',hp'⟩ := hb
      exact h.zero o' hw me ⟨p',by simpa [State.note] using hp'⟩
    · simpa [State.note, Note.begins, List.countP_cons] using h.once o'
    · obtain ⟨p',hp'⟩ := hb
      exact h.control o' me' ⟨p',by simpa [State.note] using hp'⟩
  exact hnoted.move (show s.frames t = ⟨o,.release⟩ :: rest from ht) (fun _ => rfl) (fun _ => ⟨_,_,List.mem_cons_self⟩) (by simp)

/-- A return is noted. -/
theorem note (h : Inv cfg isMutex isOnce s) {me : ThreadId} {r : ℕ} (hc : ∃ me' q, .completed o me' q ∈ s.log ∧ q < r ∧
    (me = me' ∨ ∃ a, q < a ∧ a < r ∧ s.monitor.trace[a]? = some ⟨me,.acquire o⟩)) :
    Inv cfg isMutex isOnce (s.note (.returned o me r)) := by
  have hlog : s.log ⊆ .returned o me r :: s.log := List.subset_cons_self _ _
  refine ⟨h.reach,h.noStore,h.running,fun v f hf => (h.frame v f hf).mono hlog fun _ => rfl,h.alone,h.notes.return hc,?_,
    fun o' hw => (h.two o' hw).mono hlog,fun o' => ?_,fun o' me' hb => ?_⟩
  · intro o' hw me' hb
    obtain ⟨p',hp'⟩ := hb
    exact h.zero o' hw me' ⟨p',by simpa [State.note] using hp'⟩
  · simpa [State.note, Note.begins, List.countP_cons] using h.once o'
  · obtain ⟨p',hp'⟩ := hb
    exact h.control o' me' ⟨p',by simpa [State.note] using hp'⟩

/-- The thread that ran the function stores 2. -/
theorem setWord (h : Inv cfg isMutex isOnce s) (hc : Completed s.log o)
    (hout : ∀ v f, f ∈ s.frames v → f.place.inside = true → f.control ≠ o) :
    Inv cfg isMutex isOnce (s.setWord o 2) where
  reach := h.reach
  noStore := h.noStore
  running := h.running
  frame v f hf := (h.frame v f hf).mono (List.Subset.refl _) fun hin => Function.update_of_ne (hout v f hf hin) _ _
  alone := h.alone
  notes := h.notes
  zero o' hw := by
    rcases eq_or_ne o' o with rfl | ho
    · simp [State.setWord] at hw
    · exact h.zero o' (by simpa [State.setWord, ho] using hw)
  two o' hw := by
    rcases eq_or_ne o' o with rfl | ho
    · exact hc
    · exact h.two o' (by simpa [State.setWord, ho] using hw)
  once := h.once
  control := h.control

/-- Once the innermost call is left at the store, no other call is in the function of its control. -/
theorem store_alone (h : Inv cfg isMutex isOnce s) (ht : s.frames t = ⟨o,.store⟩ :: rest) (v : ℕ) (f : Frame)
    (hf : f ∈ (s.setFrames t rest).frames v) (hin : f.place.inside = true) : f.control ≠ o := by
  have htop := h.frame t ⟨o,.store⟩ (by rw [ht]; exact List.mem_cons_self)
  rcases eq_or_ne v t with rfl | hvt
  · simp only [State.setFrames, Function.update_self] at hf
    have halone := h.alone v
    rw [ht, List.pairwise_cons] at halone
    exact (halone.1 f hf rfl hin).symm
  · simp only [State.setFrames, Function.update_of_ne hvt] at hf
    intro heq
    have hme := (heq ▸ ((h.frame v f hf).inside hin).2 : Begun s.log o (s.me v)).unique (htop.inside rfl).2 (h.once o)
    exact hvt (congrArg Prod.fst hme)

theorem next (h : Inv cfg isMutex isOnce s) {s' : State} (ha : nextStep cfg isMutex s t = some s') :
    Inv cfg isMutex isOnce s' := by
  rw [nextStep] at ha
  match ht : s.frames t with
  | [] =>
    rw [ht] at ha
    cases ha
  | ⟨o,place⟩ :: rest =>
    rw [ht] at ha
    cases place with
    | load =>
      dsimp only at ha
      split_ifs at ha
      · cases ha
        exact h.move ht (by simp [Place.inside]) (by simp) (by simp)
      · cases ha
        exact h.move ht (by simp [Place.inside]) (by simp) (fun hw => h.two o (by simpa using hw))
    | exchange =>
      dsimp only at ha
      split_ifs at ha with hw
      · cases ha
        exact h.begin ht hw
      · cases ha
        exact h.move ht (by simp [Place.inside]) (by simp) (fun hw => h.two o (by simpa using hw))
    | running => cases ha
    | release =>
      obtain ⟨M,hop,rfl⟩ := Option.map_eq_some_iff.mp ha
      exact h.complete ht hop
    | store =>
      cases ha
      have htop := h.frame t ⟨o,.store⟩ (by rw [ht]; exact List.mem_cons_self)
      have hpop := (h.pop ht).setWord (htop.store rfl) (h.store_alone ht)
      obtain ⟨me',q,hq⟩ := htop.store rfl
      obtain ⟨htr,p,hp,-⟩ := h.notes.completed o me' q hq
      exact hpop.note ⟨me',q,hq,lt_length_of_getElem? htr,Or.inl ((htop.inside rfl).2.unique ⟨p,hp⟩ (h.once o))⟩
    | spin v =>
      dsimp only at ha
      split_ifs at ha with hv
      · obtain ⟨M,hop,rfl⟩ := Option.map_eq_some_iff.mp ha
        subst hv
        obtain ⟨me',q,hq⟩ := (h.frame t ⟨o,.spin 2⟩ (by rw [ht]; exact List.mem_cons_self)).spin rfl
        have hlt := lt_length_of_getElem? (h.notes.completed o me' q hq).1
        have hM : Inv cfg isMutex isOnce { s with monitor := M } := h.monitor hop rfl (by simp [ends])
        refine (hM.pop ht).note ⟨me',q,hq,?_,Or.inr ⟨s.monitor.trace.length,hlt,?_,?_⟩⟩
        · exact hlt.trans_le (length_le_monitor hop)
        · simp [monitor_acquire hop]
        · change M.trace[s.monitor.trace.length]? = _
          rw [monitor_acquire hop, List.getElem?_concat_length]
          rfl
      · cases ha
        exact h.move ht (by simp [Place.inside]) (by simp) (fun hw => h.two o (by simpa using hw))

theorem step (h : Inv cfg isMutex isOnce s) {s' : State} {a : Step} (ha : step cfg isMutex isOnce s t a = some s') :
    Inv cfg isMutex isOnce s' := by
  cases a with
  | user op => exact h.user ha
  | call o f =>
    rw [Once.step] at ha
    split_ifs at ha with hcond
    · cases ha
      exact h
    · cases ha
      obtain ⟨c,vc,hst⟩ := h.reach.stamped
      obtain ⟨thr,hthr⟩ := Option.isSome_iff_exists.mp hcond.2.1
      obtain ⟨tctx,hcore,-,hst⟩ := hst.times.core_of_thr hthr
      refine h.setFrames (fun _ => ⟨tctx.unique_id,by rw [State.phase_of_core hcore, hst]⟩) (fun f hf => ?_) ?_
      · rcases List.mem_cons.mp hf with rfl | hf
        · exact ⟨hcond.2.2,by simp [Place.inside],by simp,by simp⟩
        · exact h.frame t f hf
      · exact List.pairwise_cons.mpr ⟨fun g _ hin => absurd hin (by simp [Place.inside]),h.alone t⟩
  | ret =>
    rw [Once.step] at ha
    split at ha
    next o rest ht =>
      cases ha
      exact h.move ht (fun _ => rfl) (by simp) (by simp)
    next => cases ha
  | next => exact h.next ha

end Inv

section Runs
variable {cfg : Config} {isMutex isOnce : ℕ → Bool} {s : State}

theorem Reachable.inv (h : Reachable cfg isMutex isOnce s) : Inv cfg isMutex isOnce s := by
  induction h with
  | init h =>
    refine ⟨.init h,?_,by simp,by simp,by simp,⟨by simp,by simp,by simp⟩,?_,by simp,by simp,?_⟩
    · intro i e o hi
      cases hi
    · intro o _ me hb
      obtain ⟨p,hp⟩ := hb
      cases hp
    · intro o me hb
      obtain ⟨p,hp⟩ := hb
      cases hp
  | step _ ha ih => exact ih.step ha

/-- In every run the function of a control is begun at most once, and no call returns before it was completed. -/
theorem runs_once (h : Reachable cfg isMutex isOnce s) (o : ℕ) : s.log.countP (Note.begins o) ≤ 1 ∧
    ∀ me r, .returned o me r ∈ s.log → ∃ me' p q, .begun o me' p ∈ s.log ∧ .completed o me' q ∈ s.log ∧ p ≤ q ∧ q < r := by
  have hinv := h.inv
  refine ⟨hinv.once o,fun me r hr => ?_⟩
  obtain ⟨me',q,hq,hqr,-⟩ := hinv.notes.returned o me r hr
  obtain ⟨-,p,hp,hpq⟩ := hinv.notes.completed o me' q hq
  exact ⟨me',p,q,hp,hq,hpq,hqr⟩

/-- Two threads call at the same time, and the one that does not run the function waits. -/
def twoCalls (cfg : Config) : Option State := do
  let l : StackAndTls := ⟨0,0,0,0,0,0⟩
  let s ← Initialize cfg l
  Transition.run (fun s a => step cfg (fun _ => false) (fun o => o = 64) s a.1 a.2)
    ⟨⟨s,fun _ => .free,[]⟩,fun _ => 0,fun _ => [],[]⟩
    [(0,.user (.ThreadCreate false)),(1,.user (.ThreadStart l)),(0,.call 64 1),(1,.call 64 1),(0,.next),(1,.next),
      (0,.next),(1,.next),(0,.user (.MemoryAccess 128 3 true)),(0,.ret),(1,.next),(0,.next),(0,.next),(1,.next),(1,.next)]

theorem twoCalls_log : (twoCalls fourSlots).map (·.log) = some
    [.returned 64 (1,1) 5,.returned 64 (0,0) 4,.completed 64 (0,0) 3,.begun 64 (0,0) 2] := by decide +kernel

theorem twoCalls_reachable (h : twoCalls cfg = some s) : Reachable cfg (fun _ => false) (fun o => o = 64) s := by
  simp only [twoCalls, Option.bind_eq_bind, Option.bind_eq_some_iff] at h
  obtain ⟨s₀,hs₀,hrun⟩ := h
  exact Transition.run_inv (fun _ _ _ hr ha => hr.step ha) (.init hs₀) hrun

theorem runs_once_two : ∃ s, twoCalls fourSlots = some s ∧ s.log.countP (Note.begins 64) ≤ 1 ∧
    ∀ me r, .returned 64 me r ∈ s.log →
      ∃ me' p q, .begun 64 me' p ∈ s.log ∧ .completed 64 me' q ∈ s.log ∧ p ≤ q ∧ q < r := by
  obtain ⟨s,hs,-⟩ := Option.map_eq_some_iff.mp twoCalls_log
  exact ⟨s,hs,runs_once (twoCalls_reachable hs) 64⟩

/-- All that the thread which ran the function did until it was completed happens before all that a thread does after
its call. -/
theorem done_before_return (h : Reachable cfg isMutex isOnce s) {o p r : ℕ} {me me' : ThreadId}
    (hb : .begun o me p ∈ s.log) (hr : .returned o me' r ∈ s.log) :
    ∃ q, .completed o me q ∈ s.log ∧ p ≤ q ∧ q < r ∧ ∀ (i j : ℕ) (e f : Event), s.monitor.trace[i]? = some e →
      s.monitor.trace[j]? = some f → e.thread = me → f.thread = me' → i ≤ q → r ≤ j → Precedes s.monitor.trace i j := by
  have hinv := h.inv
  obtain ⟨me₁,q,hq,hqr,hcase⟩ := hinv.notes.returned o me' r hr
  obtain ⟨htr,p₁,hp₁,hpq⟩ := hinv.notes.completed o me₁ q hq
  cases eq_of_countP_le_one (hinv.once o) hb hp₁ (by simp [Note.begins]) (by simp [Note.begins])
  refine ⟨q,hq,hpq,hqr,fun i j e f hi hj he hf hiq hrj => ?_⟩
  rcases hcase with rfl | ⟨a,hqa,har,hta⟩
  · exact .single ⟨by omega,e,f,hi,hj,Or.inl (he.trans hf.symm)⟩
  · -- the thread's own steps up to the release, the release and the acquire, and the other's own steps after it
    have hacquire : Precedes s.monitor.trace q a := by
      refine .single ⟨hqa,_,_,htr,hta,Or.inr (Or.inr ⟨o,Or.inl rfl,rfl,fun k g _ _ hk => ?_⟩)⟩
      exact hinv.noStore k g o hk (hinv.control o me ⟨p,hb⟩)
    have hto : Precedes s.monitor.trace i a := by
      rcases hiq.eq_or_lt with rfl | hlt
      · exact hacquire
      · exact .head ⟨hlt,e,_,hi,htr,Or.inl he⟩ hacquire
    exact hto.tail ⟨by omega,_,f,hta,hj,Or.inl hf.symm⟩

theorem done_before_return_two : ∃ s, twoCalls fourSlots = some s ∧ ∃ q, .completed 64 (0,0) q ∈ s.log ∧ 2 ≤ q ∧ q < 5 ∧
    ∀ (i j : ℕ) (e f : Event), s.monitor.trace[i]? = some e → s.monitor.trace[j]? = some f → e.thread = (0,0) →
      f.thread = (1,1) → i ≤ q → 5 ≤ j → Precedes s.monitor.trace i j := by
  obtain ⟨s,hs,hlog⟩ := Option.map_eq_some_iff.mp twoCalls_log
  exact ⟨s,hs,done_before_return (twoCalls_reachable hs) (by rw [hlog]; simp) (by rw [hlog]; simp)⟩

end Runs
end CompilerRt.Tsan.Once
