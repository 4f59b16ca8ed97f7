import CompilerRt.Lib.LinkedQueue
import CompilerRt.Lib.Transition
import CompilerRt.Tsan.Registry
import CompilerRt.Tsan.Times

/-! # The dead list of the run-time library is the queue of the registry

The contexts of dead threads are linked by `dead_next`. Each step of a thread is a step of the registry.
-/
namespace CompilerRt.Tsan
open FastState

/-- The number of created and running threads, counted context by context. -/
def ThreadCount (s : State) : ℕ := (List.range kMaxTid).countP fun tid => match s.threads tid with
  | some tctx => tctx.status = .Created || tctx.status = .Running
  | none => false

def ThreadContext.standing (tctx : ThreadContext) : Standing := ⟨tctx.status,tctx.unique_id,tctx.reuse_count⟩

namespace State
variable (s : State)

def standing (u : ℕ) : Option Standing := (s.threads u).map (·.standing)

def deadList : LinkedQueue ℕ where
  next u := (s.threads u).bind (·.dead_next)
  head := s.dead_list_head
  tail := s.dead_list_tail
  size := s.dead_list_size

/-- What the registry is about. -/
def registryView : (ℕ → Option (ℕ × Standing × Option ℕ)) × (ℕ × ℕ × ℕ) × ℕ × Option ℕ × Option ℕ :=
  (fun u => (s.threads u).map fun tctx => (tctx.tid,tctx.standing,tctx.dead_next),
    (s.thread_seq,s.unique_thread_seq,s.alive_threads),s.dead_list_size,s.dead_list_head,s.dead_list_tail)

/-- Write the link of a context. -/
def link (v u : ℕ) : State := { s with
  threads := Function.update s.threads v ((s.threads v).map ({ · with dead_next := some u })) }

theorem threads_link {v u w : ℕ} {c : ThreadContext} (h : (s.link v u).threads w = some c) :
    ∃ d, s.threads w = some d ∧ c.tid = d.tid := by
  rcases eq_or_ne w v with rfl | hw
  · simp only [link, Function.update_self, Option.map_eq_some_iff] at h
    obtain ⟨d,hd,rfl⟩ := h
    exact ⟨d,hd,rfl⟩
  · simp only [link, Function.update_of_ne hw] at h
    exact ⟨c,h,rfl⟩

theorem standing_link (v u : ℕ) : (s.link v u).standing = s.standing := by
  funext w
  rcases eq_or_ne w v with rfl | hw
  · simp only [standing, link, Function.update_self, Option.map_map]
    rfl
  · simp [standing, link, hw]

theorem next_link {v u : ℕ} (h : s.threads v ≠ none) :
    (s.link v u).deadList.next = Function.update s.deadList.next v (some u) := by
  funext w
  rcases eq_or_ne w v with rfl | hw
  · obtain ⟨c,hc⟩ := Option.ne_none_iff_exists'.mp h
    simp [deadList, link, hc]
  · simp [deadList, link, hw]

theorem next_setContext (u : ℕ) (x : ThreadContext) :
    (s.setContext u x).deadList.next = Function.update s.deadList.next u x.dead_next := by
  funext w
  rcases eq_or_ne w u with rfl | hw
  · simp [deadList, setContext]
  · simp [deadList, setContext, hw]

@[simp] theorem registryView_setSync (a : ℕ) (v : SyncVar) : (s.setSync a v).registryView = s.registryView := rfl
@[simp] theorem registryView_setRow (c : ℕ) (row : Row) : (s.setRow c row).registryView = s.registryView := rfl

@[simp] theorem registryView_setThr (t : ℕ) (x : ThreadState) : (s.setThr t x).registryView = s.registryView := by
  simp only [registryView, setThr, Prod.mk.injEq, and_true]
  funext u
  rcases eq_or_ne u t with rfl | hu
  · rw [Function.update_self, Option.map_map]
    rfl
  · rw [Function.update_of_ne hu]

end State

/-- A step of thread `t`, with the id it gives to a new thread; a thread may also be created without `pthread_create`. -/
inductive Call where
  | ThreadCreate (detached : Bool)
  | step (op : Op)

def Call.exec (cfg : Config) (s : State) (t : ℕ) : Call → Option (State × Option ℕ)
  | ThreadCreate detached => do
    let (s, tid) ← Tsan.ThreadCreate s t detached
    return (s, some tid)
  | step (.ThreadCreate detached) => do
    let (s, tid) ← pthread_create s t detached
    return (s, some tid)
  | step op => do return (← op.step cfg s t, none)

/-- A state, and the threads that have been created and are not dead: their ids and unique ids. -/
structure Lifetimes where
  state : State
  notDead : List (ℕ × ℕ)

namespace Lifetimes

def init : Lifetimes := ⟨.empty,[]⟩

def step (cfg : Config) (H : Lifetimes) (c : ℕ × Call) : Option Lifetimes := do
  let (s, tid) ← c.2.exec cfg H.state c.1
  return ⟨s,Registry.living H.state.standing s.standing (tid.map (·,H.state.unique_thread_seq)) H.notDead⟩

end Lifetimes

/-! ## Refinement -/

/-- The state's contexts and counters are those of the registry, with its queue linked through the contexts. -/
structure Represents (s : State) (r : Registry) : Prop where
  tid : ∀ u tctx, s.threads u = some tctx → tctx.tid = u
  standing : s.standing = r.standing
  dead : s.deadList.Holds r.dead
  thread_seq : s.thread_seq = r.thread_seq
  unique_thread_seq : s.unique_thread_seq = r.unique_thread_seq
  alive_threads : s.alive_threads = r.alive_threads

namespace Represents
variable {s s' : State} {r : Registry} {u t : ℕ} {tctx x : ThreadContext}

theorem empty : Represents .empty .empty where
  tid := by simp [State.empty]
  standing := rfl
  dead := LinkedQueue.holds_empty
  thread_seq := rfl
  unique_thread_seq := rfl
  alive_threads := rfl

/-- Work on clocks and on the shadow leaves the registry alone. -/
theorem congr (h : Represents s r) (hs : s'.registryView = s.registryView) : Represents s' r := by
  simp only [State.registryView, Prod.mk.injEq] at hs
  obtain ⟨hctx,⟨hseq,huid,halive⟩,hsize,hhead,htail⟩ := hs
  have hctx : ∀ u, (s'.threads u).map (fun c => (c.tid,c.standing,c.dead_next)) =
      (s.threads u).map fun c => (c.tid,c.standing,c.dead_next) := fun u => congrFun hctx u
  constructor
  · intro u c hc
    have hu := hctx u
    rw [hc, Option.map_some] at hu
    obtain ⟨d,hd,heq⟩ := Option.map_eq_some_iff.mp hu.symm
    exact (congrArg Prod.fst heq).symm.trans (h.tid u d hd)
  · rw [← h.standing]
    funext u
    have hu := congrArg (Option.map fun p : ℕ × Standing × Option ℕ => p.2.1) (hctx u)
    simpa [State.standing, Option.map_map, Function.comp_def] using hu
  · refine h.dead.congr (fun u _ => ?_) hhead htail hsize
    have hu := congrArg (Option.bind · fun p : ℕ × Standing × Option ℕ => p.2.2) (hctx u)
    simpa [State.deadList, Option.bind_map, Function.comp_def] using hu
  · exact hseq.trans h.thread_seq
  · exact huid.trans h.unique_thread_seq
  · exact halive.trans h.alive_threads

theorem standing_eq (h : Represents s r) (hc : s.threads u = some tctx) : r.standing u = some tctx.standing := by
  rw [← h.standing, State.standing, hc, Option.map_some]

theorem standing_setContext : (s.setContext u x).standing = Function.update s.standing u (some x.standing) := by
  funext v
  rcases eq_or_ne v u with rfl | hv
  · simp [State.standing, State.setContext]
  · simp [State.standing, State.setContext, hv]

/-- The context of an id that does not wait is replaced. -/
theorem setContext (h : Represents s r) (hx : x.tid = u) (hu : u ∉ r.dead) :
    Represents (s.setContext u x) (r.set u x.standing) where
  tid v c hc := by
    rcases eq_or_ne v u with rfl | hv
    · simp only [State.setContext, Function.update_self, Option.some.injEq] at hc
      rw [← hc]
      exact hx
    · simp only [State.setContext, Function.update_of_ne hv] at hc
      exact h.tid v c hc
  standing := by rw [standing_setContext, h.standing]; rfl
  dead := by
    refine h.dead.congr (fun v hv => ?_) rfl rfl rfl
    have hvu : v ≠ u := fun heq => hu (heq ▸ hv)
    simp [State.deadList, State.setContext, hvu]
  thread_seq := h.thread_seq
  unique_thread_seq := h.unique_thread_seq
  alive_threads := h.alive_threads

/-- A context changes in what the registry does not keep. -/
theorem setContext_same (h : Represents s r) (hc : s.threads u = some tctx) (hx : x.tid = u)
    (hst : x.standing = tctx.standing) (hnext : x.dead_next = tctx.dead_next) :
    Represents (s.setContext u x) r := by
  refine h.congr ?_
  simp only [State.registryView, State.setContext, Prod.mk.injEq, and_true]
  funext v
  rcases eq_or_ne v u with rfl | hv
  · rw [Function.update_self, hc, Option.map_some, Option.map_some, hx, hst, hnext, h.tid v tctx hc]
  · rw [Function.update_of_ne hv]

theorem notMem_dead (h : Represents s r) (hm : r.QueueOfDead) (hc : s.threads u = some tctx)
    (hst : tctx.status ≠ .Dead) : u ∉ r.dead := by
  intro hmem
  obtain ⟨y,hy,hdead⟩ := (hm u).mp hmem
  cases (h.standing_eq hc).symm.trans hy
  exact hst hdead

/-- `ThreadDead` puts the id to the end of the queue. -/
theorem ThreadDead (h : Represents s r) (hm : r.QueueOfDead) (hc : s.threads u = some tctx) (hx : x.tid = u)
    (hst : x.standing = tctx.standing) (he : Tsan.ThreadDead s x = some s') :
    Represents s' (r.die u tctx.standing) ∧ (tctx.status = .Running ∨ tctx.status = .Finished) := by
  have hstatus : x.status = tctx.status := congrArg Standing.status hst
  unfold Tsan.ThreadDead at he
  split_ifs at he with hrun
  rw [hstatus] at hrun
  subst hx
  have hu : x.tid ∉ r.dead := h.notMem_dead hm hc (by rcases hrun with h | h <;> simp [h])
  -- the context by itself, before another one is linked to it
  let y : ThreadContext := { x with status := .Dead, sync := x.sync.Reset, dead_next := none }
  have h₁ : Represents (s.setContext x.tid y) (r.set x.tid { tctx.standing with status := .Dead }) := by
    rw [← hst]
    exact h.setContext (x := y) rfl hu
  have hpush := h.dead.push hu
  have hnext := s.next_setContext x.tid y
  refine ⟨?_,hrun⟩
  by_cases h0 : s.dead_list_size = 0
  · have h0' : (s.setContext x.tid y).dead_list_size = 0 := h0
    simp only [y] at h0'
    simp only [h0', if_true, Option.some.injEq] at he
    subst he
    refine ⟨h₁.tid,h₁.standing,?_,h₁.thread_seq,h₁.unique_thread_seq,h₁.alive_threads⟩
    refine hpush.congr (fun v _ => (congrFun hnext v).trans ?_) ?_ rfl (congrArg (· + 1) h0.symm)
    · simp [LinkedQueue.push, State.deadList, h0, y]
    · simp [LinkedQueue.push, State.deadList, h0]
  · obtain ⟨l,tail,hl⟩ : ∃ l tail, r.dead = l ++ [tail] :=
      (List.eq_nil_or_concat' r.dead).resolve_left fun hnil => h0 (h.dead.size.trans (by simp [hnil]))
    have htail : s.dead_list_tail = some tail := h.dead.tail tail (by simp [hl])
    have hne : tail ≠ x.tid := fun heq => hu (by simp [hl, heq])
    have hctx : (s.setContext x.tid y).threads tail ≠ none := by
      intro hnone
      obtain ⟨z,hz,-⟩ := (hm tail).mp (by simp [hl])
      simp only [State.setContext, Function.update_of_ne hne] at hnone
      rw [← h.standing, State.standing, hnone] at hz
      cases hz
    have h0' : (s.setContext x.tid y).dead_list_size ≠ 0 := h0
    have htail' : (s.setContext x.tid y).dead_list_tail = some tail := htail
    simp only [y] at h0' htail'
    simp only [h0', if_false, htail', Option.some.injEq] at he
    subst he
    refine ⟨fun v c hc' => ?_,?_,?_,h₁.thread_seq,h₁.unique_thread_seq,h₁.alive_threads⟩
    · obtain ⟨d,hd,htid⟩ := State.threads_link _ hc'
      exact htid.trans (h₁.tid v d hd)
    · exact (State.standing_link _ tail x.tid).trans h₁.standing
    · refine hpush.congr (fun v _ => ?_) ?_ rfl rfl
      · refine (congrFun (State.next_link _ hctx (u := x.tid)) v).trans ?_
        rw [hnext]
        simp [LinkedQueue.push, State.deadList, h0, htail, y]
      · simp only [LinkedQueue.push, State.deadList, h0, if_false]
        rfl

theorem setThr (h : Represents s r) (t : ℕ) (x : ThreadState) : Represents (s.setThr t x) r :=
  h.congr (s.registryView_setThr t x)

/-- The context for a new thread is taken off the queue, or it is fresh. -/
theorem takeContext {s₁ : State} (h : Represents s r) (hv : r.Valid) (he : Tsan.takeContext s = some (s₁,x)) :
    ∃ r₁, Represents s₁ r₁ ∧ x.tid ∉ r₁.dead ∧ Registry.Step r (some x.tid) (r₁.born x.tid x.reuse_count) := by
  unfold Tsan.takeContext at he
  split_ifs at he with h1 h2
  · obtain ⟨u,l,hd⟩ := h.dead.eq_cons h2
    have hhead : s.dead_list_head = some u := (hd ▸ h.dead : s.deadList.Holds (u :: l)).head
    obtain ⟨y,hy,-⟩ := (hv.mem_dead u).mp (hd ▸ List.mem_cons_self)
    simp only [Option.pure_def, Option.bind_eq_bind, Option.bind_eq_some_iff] at he
    obtain ⟨v,hu',tctx,hc,he⟩ := he
    cases hhead.symm.trans hu'
    split_ifs at he with h3 h4
    cases he
    have htid := h.tid u tctx hc
    have hstand := h.standing_eq hc
    refine ⟨{ r with dead := l },⟨h.tid,h.standing,?_,h.thread_seq,h.unique_thread_seq,h.alive_threads⟩,?_,?_⟩
    · refine (hd ▸ h.dead : s.deadList.Holds (u :: l)).pop.congr (fun _ _ => rfl) ?_ rfl rfl
      simp [LinkedQueue.pop, State.deadList, hhead, hc]
    · have hnd : (u :: l).Nodup := hd ▸ hv.nodup
      rw [htid]
      exact (List.nodup_cons.mp hnd).1
    · have hstep := Registry.Step.reuse r hd hstand
      rw [← htid] at hstep
      exact hstep
  · cases he
    have hle : ¬ kMaxTid ≤ r.thread_seq := by
      rw [← h.thread_seq]
      exact fun hle => h1 (Or.inr hle)
    have hnone := hv.fresh r.thread_seq le_rfl
    refine ⟨{ r with thread_seq := r.thread_seq + 1 },⟨h.tid,h.standing,h.dead,congrArg (· + 1) h.thread_seq,
      h.unique_thread_seq,h.alive_threads⟩,?_,?_⟩
    · intro hmem
      obtain ⟨y,hy,-⟩ := (hv.mem_dead _).mp hmem
      change r.standing s.thread_seq = some y at hy
      rw [h.thread_seq, hnone] at hy
      cases hy
    · change Registry.Step r (some s.thread_seq) _
      rw [h.thread_seq]
      exact Registry.Step.fresh r hnone (Nat.lt_of_not_le hle)

/-- A thread more is alive, in the context that was taken for it. -/
theorem countCreated {r₁ : Registry} (h : Represents s r₁) (hx : x.tid = u) (hst : x.status = .Created)
    (hid : x.unique_id = s.unique_thread_seq) (hu : u ∉ r₁.dead) :
    Represents ((Tsan.countCreated s).setContext u x) (r₁.born u x.reuse_count) := by
  have h₁ := h.setContext hx hu
  have hstand : x.standing = ⟨.Created,r₁.unique_thread_seq,x.reuse_count⟩ := by
    rw [ThreadContext.standing, hst, hid, h.unique_thread_seq]
  rw [hstand] at h₁
  exact ⟨h₁.tid,h₁.standing,h₁.dead,h.thread_seq,congrArg (· + 1) h.unique_thread_seq,
    congrArg (· + 1) h.alive_threads⟩

theorem ThreadCreate {detached : Bool} {tid : ℕ} (h : Represents s r) (hv : r.Valid)
    (he : Tsan.ThreadCreate s t detached = some (s',tid)) :
    ∃ r', Registry.Step r (some tid) r' ∧ Represents s' r' := by
  simp only [Tsan.ThreadCreate, Option.pure_def, Option.bind_eq_bind, Option.bind_eq_some_iff] at he
  obtain ⟨⟨s₁,x⟩,htake,he⟩ := he
  obtain ⟨r₁,h₁,hout,hstep⟩ := h.takeContext hv htake
  dsimp only at he
  split_ifs at he with h1 h2
  · simp only [Option.bind_eq_some_iff] at he
    obtain ⟨thr,-,thr',-,he⟩ := he
    cases he
    exact ⟨_,hstep,(h₁.setThr t thr'.setClock.setSynchEpoch).countCreated rfl rfl rfl hout⟩
  · cases he
    exact ⟨_,hstep,h₁.countCreated rfl rfl rfl hout⟩

theorem resetStackAndTls (h : Represents s r) (cfg : Config) (l : StackAndTls) :
    Represents (Tsan.resetStackAndTls cfg s l) r := by
  refine h.congr ?_
  unfold Tsan.resetStackAndTls
  split_ifs <;> rfl

theorem ThreadStart {cfg : Config} {l : StackAndTls} (h : Represents s r) (hv : r.Valid)
    (he : Tsan.ThreadStart cfg s t l = some s') : ∃ r', Registry.Step r none r' ∧ Represents s' r' := by
  have hstart : ∀ {s : State} {tctx x}, Represents s r → s.threads t = some tctx → tctx.status = .Created →
      x.tid = tctx.tid → x.standing = { tctx.standing with status := .Running } →
      ∃ r', Registry.Step r none r' ∧ Represents (s.setContext t x) r' := by
    intro s tctx x h hc hst hx hstand
    have hset := h.setContext (hx.trans (h.tid t tctx hc)) (h.notMem_dead hv.mem_dead hc (by simp [hst]))
    rw [hstand] at hset
    exact ⟨_,.start r (h.standing_eq hc) hst,hset⟩
  simp only [Tsan.ThreadStart, Option.pure_def, Option.bind_eq_bind] at he
  split_ifs at he with h0 h1
  all_goals
    simp only [Option.bind_eq_some_iff] at he
    obtain ⟨tctx,hc,he⟩ := he
    split_ifs at he with hst
    simp only [Option.bind_eq_some_iff] at he
    obtain ⟨x,-,he⟩ := he
    cases he
    rw [not_not] at hst
  · exact hstart (h.resetStackAndTls cfg l) hc hst rfl rfl
  · exact hstart h hc hst rfl rfl

theorem ThreadFinish {cfg : Config} (h : Represents s r) (hv : r.Valid)
    (he : Tsan.ThreadFinish cfg s t = some s') : ∃ r', Registry.Step r none r' ∧ Represents s' r' := by
  simp only [Tsan.ThreadFinish, Option.pure_def, Option.bind_eq_bind, Option.bind_eq_some_iff] at he
  obtain ⟨thr,-,tctx,hc,he⟩ := he
  have h₀ := h.resetStackAndTls cfg thr.layout
  -- one thread less is alive
  let r₀ : Registry := { r with alive_threads := r.alive_threads - 1 }
  have h₁ : Represents { Tsan.resetStackAndTls cfg s thr.layout with
      alive_threads := (Tsan.resetStackAndTls cfg s thr.layout).alive_threads - 1 } r₀ :=
    ⟨h₀.tid,h₀.standing,h₀.dead,h₀.thread_seq,h₀.unique_thread_seq,congrArg (· - 1) h₀.alive_threads⟩
  have htid := h₀.tid t tctx hc
  have hstand := h₀.standing_eq hc
  split_ifs at he with h2 h3
  all_goals
    simp only [not_or, not_not] at h2
    simp only [Option.bind_eq_some_iff] at he
  · obtain ⟨s₁,hdead,tctx₁,hc₁,he⟩ := he
    cases he
    obtain ⟨hd,-⟩ := h₁.ThreadDead hv.mem_dead hc htid rfl hdead
    exact ⟨_,.finishDetached r hstand h2.1,hd.setContext_same hc₁ (hd.tid t tctx₁ hc₁) rfl rfl⟩
  · obtain ⟨thr',-,he⟩ := he
    cases he
    exact ⟨_,.finish r hstand h2.1,h₁.setContext htid (h₁.notMem_dead hv.mem_dead hc (by simp [h2.1]))⟩

theorem ThreadJoin {tid : ℕ} (h : Represents s r) (hv : r.Valid) (he : Tsan.ThreadJoin s t tid = some s') :
    ∃ r', Registry.Step r none r' ∧ Represents s' r' := by
  simp only [Tsan.ThreadJoin, Option.pure_def, Option.bind_eq_bind, Option.bind_eq_some_iff] at he
  obtain ⟨thr,-,he⟩ := he
  split_ifs at he with h0
  simp only [Option.bind_eq_some_iff] at he
  obtain ⟨tctx,hc,he⟩ := he
  split_ifs at he with h1 h2
  · cases he
    exact ⟨r,.stay r,h⟩
  · simp only [not_or, not_not, Bool.not_eq_true] at h2
    have hc₁ : ∃ c, (s.setThr t (thr.acquire tctx.sync)).threads tid = some c ∧ tctx.standing = c.standing := by
      rcases eq_or_ne tid t with rfl | hne
      · refine ⟨{ tctx with thr := some (thr.acquire tctx.sync) },?_,rfl⟩
        simp only [State.setThr, Function.update_self, hc, Option.map_some]
      · exact ⟨tctx,by simp only [State.setThr, Function.update_of_ne hne, hc],rfl⟩
    obtain ⟨c,hc₁,hst⟩ := hc₁
    obtain ⟨hd,-⟩ := (h.setThr t (thr.acquire tctx.sync)).ThreadDead hv.mem_dead hc₁ (h.tid tid tctx hc) hst he
    rw [← hst] at hd
    exact ⟨_,.bury r (h.standing_eq hc) h2.2,hd⟩

theorem ThreadDetach {tid : ℕ} (h : Represents s r) (hv : r.Valid) (he : Tsan.ThreadDetach s t tid = some s') :
    ∃ r', Registry.Step r none r' ∧ Represents s' r' := by
  simp only [Tsan.ThreadDetach, Option.pure_def, Option.bind_eq_bind, Option.bind_eq_some_iff] at he
  obtain ⟨thr,-,he⟩ := he
  split_ifs at he with h0
  simp only [Option.bind_eq_some_iff] at he
  obtain ⟨tctx,hc,he⟩ := he
  have htid := h.tid tid tctx hc
  split_ifs at he with h1 h2
  · cases he
    exact ⟨r,.stay r,h⟩
  · obtain ⟨hd,-⟩ := h.ThreadDead hv.mem_dead hc htid rfl he
    exact ⟨_,.bury r (h.standing_eq hc) h2,hd⟩
  · cases he
    exact ⟨r,.stay r,h.setContext_same hc htid rfl rfl⟩

/-! ## Steps and runs -/

theorem exec_quiet {cfg : Config} {a : Act} (hq : a.quiet = true) (he : a.exec cfg s t = some s') :
    s'.registryView = s.registryView := by
  cases a with
  | access addr k w =>
    simp only [Act.exec, Option.pure_def, Option.bind_eq_bind, Option.bind_eq_some_iff] at he
    obtain ⟨⟨s₁,race⟩,he,h₁⟩ := he
    cases h₁
    obtain ⟨thr,-,⟨-,rfl,-⟩ | ⟨thr₁,cur,cur',-,-,-,rfl,-⟩⟩ := MemoryAccess_eq_some he
    · rfl
    · simp
  | lock b =>
    obtain ⟨thr,x,v,-,-,-,rfl⟩ := lockSyncVar_eq_some he
    simp
  | unlock b =>
    obtain ⟨thr,x,-,-,⟨-,-,rfl⟩ | ⟨-,v,rfl,-⟩⟩ := unlockSyncVar_eq_some he
    · simp
    · simp
  | readLock b =>
    obtain ⟨thr,x,-,-,rfl⟩ := readLockSyncVar_eq_some he
    simp
  | readUnlock b =>
    obtain ⟨thr,x,-,-,rfl⟩ := readUnlockSyncVar_eq_some he
    simp
  | readOrWriteUnlock b =>
    obtain ⟨thr,-,⟨-,he'⟩ | ⟨-,-,he'⟩ | ⟨-,-,v,rfl,-⟩⟩ := readOrWriteUnlockSyncVar_eq_some he
    · obtain ⟨thr,x,-,-,rfl⟩ := readUnlockSyncVar_eq_some he'
      simp
    · obtain ⟨thr,x,-,-,⟨-,-,rfl⟩ | ⟨-,v,rfl,-⟩⟩ := unlockSyncVar_eq_some he'
      · simp
      · simp
    · simp
  | acquire b =>
    obtain ⟨thr,-,rfl⟩ := Acquire_eq_some he
    simp
  | acquireGlobal =>
    simp only [Act.exec, AcquireGlobal, Option.pure_def, Option.bind_eq_bind, Option.bind_eq_some_iff] at he
    obtain ⟨thr,-,he⟩ := he
    cases he
    simp
  | release b =>
    obtain ⟨thr,-,rfl⟩ := Release_eq_some he
    simp
  | releaseStore b =>
    obtain ⟨thr,-,rfl⟩ := ReleaseStore_eq_some he
    simp
  | create d => cases hq
  | start l => cases hq
  | finish => cases hq
  | join tid => cases hq
  | detach tid => cases hq

theorem execs_quiet {cfg : Config} {acts : List Act} (hq : ∀ a ∈ acts, a.quiet = true)
    (he : Act.execs cfg t s acts = some s') : s'.registryView = s.registryView := by
  induction acts generalizing s with
  | nil =>
    cases he
    rfl
  | cons a acts ih =>
    rw [Act.execs, List.foldlM_cons, Option.bind_eq_bind, Option.bind_eq_some_iff] at he
    obtain ⟨s₁,h₁,he⟩ := he
    rw [ih (fun x hx => hq x (List.mem_cons_of_mem a hx)) he]
    exact exec_quiet (hq a List.mem_cons_self) h₁

theorem quiet_onMutex {cfg : Config} {addr : ℕ} {a : Act} (hq : a.quiet = true) :
    ∀ x ∈ onMutex cfg addr a, x.quiet = true := by
  intro x hx
  rcases mem_onMutex hx with rfl | rfl
  · rfl
  · exact hq

/-- Each step of a thread is a step of the registry. -/
theorem call {cfg : Config} {c : Call} {b : Option ℕ} (h : Represents s r) (hv : r.Valid)
    (he : c.exec cfg s t = some (s',b)) : ∃ r', Registry.Step r b r' ∧ Represents s' r' := by
  cases c with
  | ThreadCreate detached =>
    simp only [Call.exec, Option.pure_def, Option.bind_eq_bind, Option.bind_eq_some_iff] at he
    obtain ⟨⟨s₁,tid⟩,he,h₁⟩ := he
    cases h₁
    exact h.ThreadCreate hv he
  | step op =>
    cases op with
    | ThreadCreate detached =>
      simp only [Call.exec, pthread_create, Option.pure_def, Option.bind_eq_bind, Option.bind_eq_some_iff] at he
      obtain ⟨⟨s₁,tid⟩,⟨⟨s₂,tid'⟩,he,h₂⟩,h₁⟩ := he
      split_ifs at h₂
      cases h₁
      cases h₂
      exact h.ThreadCreate hv he
    | ThreadStart l =>
      simp only [Call.exec, Option.pure_def, Option.bind_eq_bind, Option.bind_eq_some_iff] at he
      obtain ⟨s₁,he,h₁⟩ := he
      cases h₁
      exact h.ThreadStart hv he
    | ThreadFinish =>
      simp only [Call.exec, Option.pure_def, Option.bind_eq_bind, Option.bind_eq_some_iff] at he
      obtain ⟨s₁,he,h₁⟩ := he
      cases h₁
      exact h.ThreadFinish hv he
    | ThreadJoin tid =>
      simp only [Call.exec, Option.pure_def, Option.bind_eq_bind, Option.bind_eq_some_iff] at he
      obtain ⟨s₁,he,h₁⟩ := he
      cases h₁
      exact h.ThreadJoin hv he
    | ThreadDetach tid =>
      simp only [Call.exec, Option.pure_def, Option.bind_eq_bind, Option.bind_eq_some_iff] at he
      obtain ⟨s₁,he,h₁⟩ := he
      cases h₁
      exact h.ThreadDetach hv he
    | MutexLock _ | MutexUnlock _ | MutexReadLock _ | MutexReadUnlock _ | MutexReadOrWriteUnlock _ =>
      simp only [Call.exec, Option.pure_def, Option.bind_eq_bind, Option.bind_eq_some_iff] at he
      obtain ⟨s₁,he,h₁⟩ := he
      cases h₁
      rw [step_eq_execs, Op.acts] at he
      exact ⟨r,.stay r,h.congr (execs_quiet (quiet_onMutex rfl) he)⟩
    | _ =>
      simp only [Call.exec, Option.pure_def, Option.bind_eq_bind, Option.bind_eq_some_iff] at he
      obtain ⟨s₁,he,h₁⟩ := he
      cases h₁
      rw [step_eq_execs, Op.acts, execs_singleton] at he
      exact ⟨r,.stay r,h.congr (exec_quiet rfl he)⟩

end Represents

/-- The contexts that are counted are the living ids of the registry. -/
theorem Represents.ThreadCount_eq {s : State} {r : Registry} (h : Represents s r) :
    ThreadCount s = r.aliveTids.card := by
  have hbool : ∀ u, ((match s.threads u with
      | some tctx => tctx.status = .Created || tctx.status = .Running
      | none => false) : Bool) = (r.standing u).any (·.isAlive) := by
    intro u
    rw [← h.standing, State.standing]
    cases s.threads u with
    | none => rfl
    | some tctx => rfl
  rw [ThreadCount, Registry.aliveTids, funext hbool]
  simp only [Finset.card, Finset.filter, Finset.range, Multiset.range, Multiset.filter_coe, Multiset.coe_card,
    List.countP_eq_length_filter, Bool.decide_eq_true]

/-- A registry, and who is not dead, beside the state. -/
def Lifetimes.Sound (H : Lifetimes) : Prop :=
  ∃ r : Registry, r.Valid ∧ Represents H.state r ∧ Registry.Census H.state.standing H.notDead

theorem Lifetimes.Sound.step {cfg : Config} {H H' : Lifetimes} {c : ℕ × Call} (h : H.Sound)
    (he : H.step cfg c = some H') : H'.Sound := by
  obtain ⟨r,hv,hr,hc⟩ := h
  simp only [Lifetimes.step, Option.pure_def, Option.bind_eq_bind, Option.bind_eq_some_iff] at he
  obtain ⟨⟨s,b⟩,he,h₁⟩ := he
  cases h₁
  obtain ⟨r',hs,hr'⟩ := hr.call hv he
  refine ⟨r',hv.step hs,hr',?_⟩
  rw [hr.standing] at hc
  dsimp only
  rw [hr'.standing, hr.standing, hr.unique_thread_seq]
  exact hc.step hv hs

/-- What a new thread finds: its id is new, or the dead list begins with it. -/
theorem Represents.ThreadCreate_cases {s s' : State} {r : Registry} {t tid : ℕ} {detached : Bool}
    (h : Represents s r) (hv : r.Valid) (he : Tsan.ThreadCreate s t detached = some (s',tid)) :
    s.threads tid = none ∧ s'.deadList.Holds r.dead ∨ ∃ old new rest, r.dead = tid :: rest ∧
      s.threads tid = some old ∧ old.status = .Dead ∧ s'.deadList.Holds rest ∧ s'.threads tid = some new ∧
      new.status = .Created ∧ new.reuse_count = old.reuse_count + 1 := by
  obtain ⟨r',hs,hr'⟩ := h.ThreadCreate hv he
  rcases hs.born hv with ⟨hnone,hdead,-⟩ | ⟨x,hx,hst,hdead,hnew⟩
  · left
    constructor
    · rw [← h.standing, State.standing, Option.map_eq_none_iff] at hnone
      exact hnone
    · rw [← hdead]
      exact hr'.dead
  · right
    rw [← h.standing, State.standing, Option.map_eq_some_iff] at hx
    rw [← hr'.standing, State.standing, Option.map_eq_some_iff] at hnew
    obtain ⟨old,hold,rfl⟩ := hx
    obtain ⟨new,hnew,heq⟩ := hnew
    exact ⟨old,new,r'.dead,hdead,hold,hst,hr'.dead,hnew,congrArg Standing.status heq,congrArg Standing.reuse_count heq⟩

/-- In every run the dead list is a chain of all dead threads and of no others, the living threads are counted, and
an id goes from the front of the dead list to a new thread, so that threads that are not dead have different ids. -/
theorem thread_registry (cfg : Config) {calls : List (ℕ × Call)} {H : Lifetimes}
    (hrun : Transition.run (Lifetimes.step cfg) .init calls = some H) :
    ∃ dead : List ℕ, H.state.deadList.Holds dead ∧
      (∀ u, u ∈ dead ↔ ∃ tctx, H.state.threads u = some tctx ∧ tctx.status = .Dead) ∧
      (∀ u tctx, H.state.threads u = some tctx → tctx.tid = u ∧ u < kMaxTid) ∧
      H.state.alive_threads = ThreadCount H.state ∧
      (∀ u uid, (u,uid) ∈ H.notDead ↔
        ∃ tctx, H.state.threads u = some tctx ∧ tctx.status ≠ .Dead ∧ tctx.unique_id = uid) ∧
      (H.notDead.map Prod.fst).Nodup ∧
      ∀ t detached s' tid, Tsan.ThreadCreate H.state t detached = some (s',tid) →
        H.state.threads tid = none ∧ s'.deadList.Holds dead ∨ ∃ old new rest, dead = tid :: rest ∧
          H.state.threads tid = some old ∧ old.status = .Dead ∧ s'.deadList.Holds rest ∧
          s'.threads tid = some new ∧ new.status = .Created ∧ new.reuse_count = old.reuse_count + 1 := by
  have hinit : Lifetimes.init.Sound := ⟨.empty,Registry.valid_empty,.empty,Registry.census_empty⟩
  obtain ⟨r,hv,hr,hc⟩ := Transition.run_inv (I := Lifetimes.Sound) (fun _ _ _ h he => h.step he) hinit hrun
  refine ⟨r.dead,hr.dead,fun u => ?_,fun u tctx hu => ?_,?_,fun u uid => ?_,hc.nodup,?_⟩
  · rw [hv.mem_dead u, ← hr.standing]
    simp [State.standing, ThreadContext.standing]
  · exact ⟨hr.tid u tctx hu,(Registry.lt_of_standing hv (hr.standing_eq hu)).trans_le hv.seq⟩
  · rw [hr.ThreadCount_eq, hr.alive_threads, hv.alive]
  · rw [hc.mem]
    simp [State.standing, ThreadContext.standing]
  · intro t detached s' tid he
    exact hr.ThreadCreate_cases hv he

/-- Thread 0 runs 17 threads, one after the other; it detaches the odd ones, before or after they finish, joins the
others, and then creates one more. -/
def manyThreads : List (ℕ × Call) :=
  let none : StackAndTls := ⟨0,0,0,0,0,0⟩
  let life (u : ℕ) : List (ℕ × Call) := match u % 4 with
    | 1 => [(u,.step (.ThreadStart none)),(0,.step (.ThreadDetach u)),(u,.step .ThreadFinish)]
    | 3 => [(u,.step (.ThreadStart none)),(u,.step .ThreadFinish),(0,.step (.ThreadDetach u))]
    | _ => [(u,.step (.ThreadStart none)),(u,.step .ThreadFinish),(0,.step (.ThreadJoin u))]
  [(0,.ThreadCreate true),(0,.step (.ThreadStart none))] ++
    ((List.range 17).flatMap fun i => (0,.step (.ThreadCreate false)) :: life (i + 1)) ++
    [(0,.step (.ThreadCreate false))]

theorem manyThreads_run : ((Transition.run (Lifetimes.step fourSlots) .init manyThreads).map fun H =>
    (H.state.dead_list_size,H.state.dead_list_head,H.notDead)) = some (16,some 2,[(1,18),(0,0)]) := by decide +kernel

theorem thread_registry_manyThreads : ∃ H, Transition.run (Lifetimes.step fourSlots) .init manyThreads = some H ∧
    ∃ dead : List ℕ, H.state.deadList.Holds dead ∧ dead.length = 16 ∧ H.state.alive_threads = ThreadCount H.state := by
  obtain ⟨H,hrun,heq⟩ := Option.map_eq_some_iff.mp manyThreads_run
  obtain ⟨dead,hdead,-,-,halive,-⟩ := thread_registry fourSlots hrun
  refine ⟨H,hrun,dead,hdead,?_,halive⟩
  rw [← hdead.size]
  exact congrArg Prod.fst heq

end CompilerRt.Tsan
