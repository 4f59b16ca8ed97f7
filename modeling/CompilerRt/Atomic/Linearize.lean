import CompilerRt.Atomic.Shapes

/-! # The operations are linearizable

As long as all calls use the same mechanism, the lock or the hardware with the object's own width. An operation takes
effect with its atomic access, or when it takes the lock: who holds the lock has decided what the value will be.
-/
namespace CompilerRt.Atomic
open ByteOrder Store Program Linearizability

section Invariant
variable (S : Setting) (mechanism : Mechanism)

/-- The thread has not taken effect; whatever the object is by then, it will do what the specification says. -/
def Waiting (op : Operation S.size) (p : Program Response) (own : ℕ → Byte) : Prop :=
  Before (S.stack ≤ ·) (mechanism.lock? S.lock) p ∧ ∀ s : Store, s.locked S.lock = false →
    ∃ s', p.result ⟨view S.stack own s.bytes,s.locked⟩ = some ((spec S.T (object S s) op).2,s') ∧
      object S s' = (spec S.T (object S s) op).1

/-- The thread has the lock, and will leave the value in the object. -/
def Holding (r : Response) (v : List Byte) (p : Program Response) (own : ℕ → Byte) (s : Store) : Prop :=
  Inside (S.stack ≤ ·) S.lock p ∧
    ∃ s', p.result ⟨view S.stack own s.bytes,s.locked⟩ = some (r,s') ∧ object S s' = v

/-- The thread has taken effect and returns the response. -/
def Finishing (r : Response) (p : Program Response) (own : ℕ → Byte) : Prop :=
  Plain (S.stack ≤ ·) p ∧
    ∃ own', ∀ shared locked, p.result ⟨view S.stack own shared,locked⟩ = some (r,⟨view S.stack own' shared,locked⟩)

/-- What the thread is at, as the atomic object has it. -/
def ThreadOk (holds : Prop) (s : Store) (v : List Byte) (status : Status (Operation S.size) Response) (x : Thread) :
    Prop :=
  match x.running with
  | none => status = .idle ∧ ¬holds
  | some p =>
    (holds ∧ ∃ r, status = .done r ∧ Holding S r v p x.own s) ∨
      ¬holds ∧ ((∃ op, status = .pending op ∧ Waiting S mechanism op p x.own) ∨
        ∃ r, status = .done r ∧ Finishing S r p x.own)

variable {Tid : Type}

/-- The threads and the atomic object, when `holder` has the lock. -/
structure Matches (holder : Option Tid) (c : Threads Tid) (o : Object (List Byte) Tid (Operation S.size) Response) :
    Prop where
  locked : c.shared.locked S.lock = holder.isSome
  unlocked : ∀ width, mechanism = .hardware width → holder = none
  value : holder = none → object S c.shared = o.value
  threads : ∀ t, ThreadOk S mechanism (holder = some t) c.shared o.value (o.status t) (c.threads t)

end Invariant

section Steps
variable {S : Setting} {mechanism : Mechanism} {op : Operation S.size} {p p' : Program Response} {own : ℕ → Byte}
  {s : Store} {r : Response} {v : List Byte}

theorem object_view {shared : ℕ → Byte} {locked : ℕ → Bool} :
    object S ⟨view S.stack own shared,locked⟩ = readBytes shared S.ptr S.size := readBytes_view_shared S.below

theorem Finishing.of_plain {s' : Store} (h : Plain (S.stack ≤ ·) p)
    (hr : p.result ⟨view S.stack own s.bytes,s.locked⟩ = some (r,s')) :
    Finishing S r p own ∧ object S s' = object S s := by
  obtain ⟨a,own',ha⟩ := h.result own
  cases (ha s.bytes s.locked).symm.trans hr
  exact ⟨⟨h,own',ha⟩,object_view⟩

/-- A step of a thread that has taken effect. -/
theorem Finishing.step {own' : ℕ → Byte} (h : Finishing S r p own)
    (hn : ∀ shared locked, p.next ⟨view S.stack own shared,locked⟩ = some (p',⟨view S.stack own' shared,locked⟩)) :
    Finishing S r p' own' := by
  obtain ⟨hplain,own₂,hr⟩ := h
  refine ⟨hplain.next (hn own fun _ => false),own₂,fun shared locked => ?_⟩
  rw [← result_next (hn shared locked),hr]

/-- A step of a thread on its own memory, before it takes effect. -/
theorem Waiting.step {own' : ℕ → Byte} (h : Waiting S mechanism op p own) (hown : AtOwn S.stack p)
    (hn : ∀ shared locked, p.next ⟨view S.stack own shared,locked⟩ = some (p',⟨view S.stack own' shared,locked⟩)) :
    Waiting S mechanism op p' own' := by
  obtain ⟨hbefore,hr⟩ := h
  refine ⟨hbefore.next_own hown (hn own fun _ => false),fun s hs => ?_⟩
  rw [← result_next (hn s.bytes s.locked)]
  exact hr s hs

/-- Taking the lock. -/
theorem Waiting.acquire {l : ℕ} {k : Program Response} (h : Waiting S mechanism op (.acquire l k) own)
    (hs : s.locked l = false) : mechanism = .lock ∧ l = S.lock ∧
      Holding S (spec S.T (object S s) op).2 (spec S.T (object S s) op).1 k own (s.setLock l true) := by
  obtain ⟨hbefore,hr⟩ := h
  obtain ⟨hl,hinside⟩ := hbefore
  cases mechanism with
  | hardware w => cases hl
  | lock =>
    cases hl
    refine ⟨rfl,rfl,hinside,?_⟩
    have hn : Program.next (.acquire S.lock k) ⟨view S.stack own s.bytes,s.locked⟩ =
        some (k,⟨view S.stack own (s.setLock S.lock true).bytes,(s.setLock S.lock true).locked⟩) :=
      if_neg (by rw [hs]; exact Bool.false_ne_true)
    rw [← result_next hn]
    exact hr s hs

/-- The atomic access. -/
theorem Waiting.atomic {b n : ℕ} {f : List Byte → List Byte} {k : List Byte → Program Response} {s' : Store}
    (h : Waiting S mechanism op (.atomic b n f k) own) (hs : s.locked S.lock = false)
    (hn : Program.next (.atomic b n f k) ⟨view S.stack own s.bytes,s.locked⟩ = some (p',s')) :
    Finishing S (spec S.T (object S s) op).2 p' (view S.stack s'.bytes own) ∧
      object S ⟨view S.stack s.bytes s'.bytes,s'.locked⟩ = (spec S.T (object S s) op).1 ∧ s'.locked = s.locked := by
  obtain ⟨hbefore,hr⟩ := h
  obtain ⟨s₂,hr,hobject⟩ := hr s hs
  rw [result_next hn] at hr
  have hplain : Plain (S.stack ≤ ·) p' := by
    cases hn
    exact hbefore.2 _
  have hlocked : s'.locked = s.locked := by
    cases hn
    rfl
  have hresult : p'.result ⟨view S.stack (view S.stack s'.bytes own) (view S.stack s.bytes s'.bytes),s'.locked⟩ =
      some ((spec S.T (object S s) op).2,s₂) := by
    rw [view_view]
    exact hr
  have hfinish := Finishing.of_plain (s := ⟨view S.stack s.bytes s'.bytes,s'.locked⟩) hplain hresult
  exact ⟨hfinish.1,hfinish.2.symm.trans hobject,hlocked⟩

/-- A step inside the critical section goes on there or gives the lock back. -/
theorem Holding.step {s' : Store} (h : Holding S r v p own s)
    (hn : p.next ⟨view S.stack own s.bytes,s.locked⟩ = some (p',s')) :
    (Holding S r v p' (view S.stack s'.bytes own) ⟨view S.stack s.bytes s'.bytes,s'.locked⟩ ∧ s'.locked = s.locked) ∨
    (Finishing S r p' (view S.stack s'.bytes own) ∧ object S ⟨view S.stack s.bytes s'.bytes,s'.locked⟩ = v ∧
      s'.locked = Function.update s.locked S.lock false) := by
  obtain ⟨hinside,s₂,hr,hobject⟩ := h
  rw [result_next hn] at hr
  have hview : view S.stack (view S.stack s'.bytes own) (view S.stack s.bytes s'.bytes) = s'.bytes := view_view
  cases p with
  | load b o n k =>
    cases hn
    exact Or.inl ⟨⟨hinside _,s₂,by rw [hview]; exact hr,hobject⟩,rfl⟩
  | store b o bs k =>
    cases hn
    exact Or.inl ⟨⟨hinside,s₂,by rw [hview]; exact hr,hobject⟩,rfl⟩
  | release l k =>
    obtain ⟨rfl,hplain⟩ := hinside
    cases hn
    have hfinish := Finishing.of_plain
      (s := ⟨view S.stack s.bytes (view S.stack own s.bytes),Function.update s.locked S.lock false⟩) hplain
      ((congrArg (fun m => p'.result ⟨m,_⟩) hview).trans hr)
    exact Or.inr ⟨hfinish.1,hfinish.2.symm.trans hobject,rfl⟩
  | ret | atomic | acquire => exact hinside.elim

end Steps

section Simulation
variable {S : Setting} {mechanism : Mechanism} {Tid : Type} [DecidableEq Tid] {holder holder' : Option Tid}
  {c c' : Threads Tid} {o : Object (List Byte) Tid (Operation S.size) Response} {t : Tid}

/-- A thread that does not hold the lock does not depend on the object. -/
theorem ThreadOk.of_not {P Q : Prop} {s s' : Store} {v v' : List Byte} {status : Status (Operation S.size) Response}
    {x : Thread} (hP : ¬P) (hQ : ¬Q) (h : ThreadOk S mechanism P s v status x) :
    ThreadOk S mechanism Q s' v' status x := by
  unfold ThreadOk at h ⊢
  split at h
  · exact ⟨h.1,hQ⟩
  · exact Or.inr ⟨hQ,(h.resolve_left fun h => hP h.1).2⟩

/-- One thread goes on and the others stay. -/
theorem Matches.update {s' : Store} {x' : Thread} {v' : List Byte} {status' : Status (Operation S.size) Response}
    (hM : Matches S mechanism holder c o) (holder' : Option Tid) (hlocked : s'.locked S.lock = holder'.isSome)
    (hunlocked : ∀ width, mechanism = .hardware width → holder' = none)
    (hvalue : holder' = none → object S s' = v') (hown : ThreadOk S mechanism (holder' = some t) s' v' status' x')
    (hother : ∀ u ≠ t, (holder = some u ↔ holder' = some u) ∧ (holder = some u → s' = c.shared ∧ v' = o.value)) :
    Matches S mechanism holder' ⟨s',Function.update c.threads t x'⟩ ⟨v',Function.update o.status t status'⟩ := by
  refine ⟨hlocked,hunlocked,hvalue,fun u => ?_⟩
  by_cases hu : u = t
  · subst hu
    dsimp only
    rw [Function.update_self,Function.update_self]
    exact hown
  · have hold := hM.threads u
    obtain ⟨hiff,hsame⟩ := hother u hu
    dsimp only
    rw [Function.update_of_ne hu,Function.update_of_ne hu]
    by_cases hholds : holder = some u
    · obtain ⟨rfl,rfl⟩ := hsame hholds
      rwa [← hiff]
    · exact hold.of_not hholds (fun h => hholds (hiff.mpr h))

/-- A call begins. -/
theorem Matches.invoke {e : Entry} {op : Operation S.size} (hM : Matches S mechanism holder c o)
    (hm : mechanism = .lock ∨ mechanism = .hardware S.size) (he : e.mechanism S = mechanism) (ho : e.Offers S op)
    (hidle : (c.threads t).running = none) :
    o.status t = .idle ∧ Matches S mechanism holder
      ⟨c.shared,Function.update c.threads t { c.threads t with running := some (e.program S op) }⟩
      { o with status := Function.update o.status t (.pending op) } := by
  have hthread := hM.threads t
  rw [ThreadOk,hidle] at hthread
  have hwaiting : Waiting S mechanism op (e.program S op) (c.threads t).own := by
    refine ⟨he ▸ program_before ho,fun s hs => ?_⟩
    have hresult := program_result (s := ⟨view S.stack (c.threads t).own s.bytes,s.locked⟩) (he ▸ hm) ho hs
    rw [object_view] at hresult
    exact hresult
  refine ⟨hthread.1,hM.update holder hM.locked hM.unlocked hM.value ?_ fun u _ => ⟨Iff.rfl,fun _ => ⟨rfl,rfl⟩⟩⟩
  exact Or.inr ⟨hthread.2,Or.inl ⟨op,rfl,hwaiting⟩⟩

/-- A call returns. -/
theorem Matches.respond {r : Response} (hM : Matches S mechanism holder c o)
    (hdone : (c.threads t).running = some (.ret r)) :
    o.status t = .done r ∧ Matches S mechanism holder
      ⟨c.shared,Function.update c.threads t { c.threads t with running := none }⟩
      { o with status := Function.update o.status t .idle } := by
  have hthread := hM.threads t
  rw [ThreadOk,hdone] at hthread
  rcases hthread with ⟨-,r',-,hinside,-⟩ | ⟨hnot,⟨op,-,hbefore,-⟩ | ⟨r',hstatus,-,own',hr⟩⟩
  · exact hinside.elim
  · exact hbefore.elim
  · have heq : r = r' := congrArg Prod.fst (Option.some.inj (hr c.shared.bytes c.shared.locked))
    subst heq
    exact ⟨hstatus,hM.update holder hM.locked hM.unlocked hM.value ⟨rfl,hnot⟩ fun u _ => ⟨Iff.rfl,fun _ => ⟨rfl,rfl⟩⟩⟩

/-- The thread after a step of its program. -/
def Threads.advance (S : Setting) (c : Threads Tid) (t : Tid) (p' : Program Response) (s' : Store) : Threads Tid :=
  ⟨⟨view S.stack c.shared.bytes s'.bytes,s'.locked⟩,
    Function.update c.threads t ⟨view S.stack s'.bytes (c.threads t).own,some p'⟩⟩

/-- A step that does not take effect is not seen. -/
theorem Matches.unseen {p' : Program Response} {s' : Store}
    (hM : Matches S mechanism holder' (c.advance S t p' s')
      { o with status := Function.update o.status t (o.status t) }) :
    ∃ marks o', Transition.run (Object.step (spec S.T)) o marks = some o' ∧ marks.filterMap Mark.event? = [] ∧
      ∃ holder, Matches S mechanism holder (c.advance S t p' s') o' := by
  rw [Function.update_eq_self] at hM
  exact ⟨[],o,rfl,rfl,holder',hM⟩

/-- A step of a program. -/
theorem Matches.advance {p p' : Program Response} {s' : Store} (hM : Matches S mechanism holder c o)
    (hrun : (c.threads t).running = some p)
    (hn : p.next ⟨view S.stack (c.threads t).own c.shared.bytes,c.shared.locked⟩ = some (p',s')) :
    ∃ marks o', Transition.run (Object.step (spec S.T)) o marks = some o' ∧ marks.filterMap Mark.event? = [] ∧
      ∃ holder, Matches S mechanism holder (c.advance S t p' s') o' := by
  have hthread := hM.threads t
  rw [ThreadOk,hrun] at hthread
  rcases hthread with ⟨rfl,r,hstatus,hholding⟩ | ⟨hnot,⟨op,hstatus,hwaiting⟩ | ⟨r,hstatus,hfinishing⟩⟩
  · -- the thread has the lock, so the others do not
    have hothers : ∀ u ≠ t, ¬some t = some u := fun u hu he => hu (Option.some.inj he).symm
    rcases hholding.step hn with ⟨hholding',hlocked⟩ | ⟨hfinishing,hobject,hlocked⟩
    · refine Matches.unseen (hM.update (some t) (by rw [hlocked]; exact hM.locked) hM.unlocked
        (fun h => nomatch h) (Or.inl ⟨rfl,r,hstatus,hholding'⟩) fun u hu => ?_)
      exact ⟨Iff.rfl,fun h => absurd h (hothers u hu)⟩
    · refine Matches.unseen (hM.update none (by rw [hlocked,Function.update_self]; rfl) (fun _ _ => rfl)
        (fun _ => hobject) (Or.inr ⟨fun h => (nomatch h),Or.inr ⟨r,hstatus,hfinishing⟩⟩) fun u hu => ?_)
      exact ⟨iff_of_false (hothers u hu) (fun h => nomatch h),fun h => absurd h (hothers u hu)⟩
  · have howned : AtOwn S.stack p → ∃ marks o', Transition.run (Object.step (spec S.T)) o marks = some o' ∧
        marks.filterMap Mark.event? = [] ∧ ∃ holder, Matches S mechanism holder (c.advance S t p' s') o' := by
      intro hown
      obtain ⟨hnext,hshared⟩ := next_own_split hown hn
      exact Matches.unseen (hM.update holder (by rw [hshared]; exact hM.locked) hM.unlocked
        (by rw [hshared]; exact hM.value) (Or.inr ⟨hnot,Or.inl ⟨op,hstatus,hwaiting.step hown hnext⟩⟩)
        fun u _ => ⟨Iff.rfl,fun _ => ⟨hshared,rfl⟩⟩)
    cases p with
    | load b o n k => exact howned hwaiting.1.1
    | store b o bs k => exact howned hwaiting.1.1
    | ret a => exact hwaiting.1.elim
    | release l k => exact hwaiting.1.elim
    | acquire l k =>
      obtain ⟨hfree,heq⟩ := Option.ite_none_left_eq_some.mp hn
      have hfree' : c.shared.locked l = false := Bool.eq_false_of_not_eq_true hfree
      obtain ⟨hlock,rfl,hholding⟩ := hwaiting.acquire hfree'
      have hnone : holder = none :=
        Option.isNone_iff_eq_none.mp (Option.isSome_eq_false_iff.mp (hM.locked.symm.trans hfree'))
      subst hnone
      rw [hM.value rfl] at hholding
      cases heq
      refine ⟨[.perform t],_,(Transition.run_cons _).trans (by rw [step_perform hstatus]; rfl),rfl,some t,?_⟩
      refine hM.update (some t) ?_ (fun w hw => nomatch hlock.symm.trans hw) (fun h => nomatch h)
        (Or.inl ⟨rfl,_,rfl,?_⟩) fun u hu => ⟨iff_of_false (fun h => nomatch h) fun h => hu (Option.some.inj h).symm,
          fun h => nomatch h⟩
      · exact Function.update_self ..
      · dsimp only [setLock] at hholding ⊢
        rwa [view_own,view_shared]
    | atomic b n f k =>
      have hnone : holder = none := by
        cases hmech : mechanism with
        | lock =>
          rw [hmech] at hwaiting
          exact nomatch hwaiting.1.1
        | hardware w => exact hM.unlocked w hmech
      subst hnone
      obtain ⟨hfinishing,hobject,hlocked⟩ := hwaiting.atomic hM.locked hn
      rw [hM.value rfl] at hfinishing hobject
      refine ⟨[.perform t],_,(Transition.run_cons _).trans (by rw [step_perform hstatus]; rfl),rfl,none,?_⟩
      exact hM.update none (by rw [hlocked]; exact hM.locked) hM.unlocked (fun _ => hobject)
        (Or.inr ⟨fun h => (nomatch h),Or.inr ⟨_,rfl,hfinishing⟩⟩) fun u _ => ⟨Iff.rfl,fun h => nomatch h⟩
  · obtain ⟨hnext,hshared⟩ := next_own_split (hfinishing.1.atOwn hn) hn
    exact Matches.unseen (hM.update holder (by rw [hshared]; exact hM.locked) hM.unlocked
      (by rw [hshared]; exact hM.value) (Or.inr ⟨hnot,Or.inr ⟨r,hstatus,hfinishing.step hnext⟩⟩)
      fun u _ => ⟨Iff.rfl,fun _ => ⟨hshared,rfl⟩⟩)

/-- Every step of the threads is matched by the atomic object. -/
theorem step_simulates (hm : mechanism = .lock ∨ mechanism = .hardware S.size) {e : Tid × Action S.size}
    (hM : ∃ holder, Matches S mechanism holder c o) (hok : Uses S mechanism e) (h : step S c e = some c') :
    ∃ marks o', Transition.run (Object.step (spec S.T)) o marks = some o' ∧
      marks.filterMap Mark.event? = (event S e).toList ∧ ∃ holder, Matches S mechanism holder c' o' := by
  obtain ⟨holder,hM⟩ := hM
  obtain ⟨s',x',hnext,rfl⟩ := Interleaving.step_eq_some h
  obtain ⟨t,a⟩ := e
  cases a with
  | invoke e op =>
    cases hrun : (c.threads t).running with
    | some p =>
      simp only [next,hrun] at hnext
      cases hnext
    | none =>
      simp only [next,hrun] at hnext
      obtain ⟨ho,heq⟩ := Option.ite_none_right_eq_some.mp hnext
      cases heq
      obtain ⟨hidle,hM'⟩ := hM.invoke hm (hok e op rfl) ho hrun
      refine ⟨[.event (.invoke t op)],_,(Transition.run_cons _).trans (by rw [step_invoke hidle]; rfl),rfl,holder,hM'⟩
  | step =>
    cases hrun : (c.threads t).running with
    | none =>
      simp only [next,hrun] at hnext
      cases hnext
    | some p =>
      simp only [next,hrun] at hnext
      obtain ⟨⟨p',s₂⟩,hn,heq⟩ := Option.map_eq_some_iff.mp hnext
      cases heq
      exact hM.advance hrun hn
  | respond r =>
    cases hrun : (c.threads t).running with
    | none =>
      simp only [next,hrun] at hnext
      cases hnext
    | some p =>
      cases p with
      | ret r' =>
        simp only [next,hrun] at hnext
        obtain ⟨rfl,heq⟩ := Option.ite_none_right_eq_some.mp hnext
        cases heq
        obtain ⟨hdone,hM'⟩ := hM.respond hrun
        exact ⟨[.event (.respond t r')],_,(Transition.run_cons _).trans (by rw [step_respond hdone]; rfl),rfl,holder,hM'⟩
      | load | store | atomic | acquire | release =>
        simp only [next,hrun] at hnext
        cases hnext

/-- All threads are idle and the lock is free. -/
structure Start (S : Setting) (c : Threads Tid) : Prop where
  locked : c.shared.locked S.lock = false
  idle : ∀ t, (c.threads t).running = none

/-- In a run whose calls all use the same mechanism, with the object's own width if it is the hardware, the calls are
linearizable once all of them have returned, and the object has the value that the sequential order leaves. -/
theorem linearizable_of_run (S : Setting) {mechanism : Mechanism} {c c' : Threads Tid} {es : List (Tid × Action S.size)}
    (hmechanism : mechanism = .lock ∨ mechanism = .hardware S.size) (huses : ∀ e ∈ es, Uses S mechanism e)
    (hstart : Start S c) (hrun : Transition.run (step S) c es = some c') (hcomplete : ∀ t, (c'.threads t).running = none) :
    Linearizable (spec S.T) (object S c.shared) (history S es) (object S c'.shared) := by
  have hM : Matches S mechanism none c ⟨object S c.shared,fun _ => .idle⟩ := by
    refine ⟨hstart.locked,fun _ _ => rfl,fun _ => rfl,fun t => ?_⟩
    rw [ThreadOk,hstart.idle t]
    exact ⟨rfl,fun h => nomatch h⟩
  obtain ⟨marks,o',hmarks,hhistory,holder,hM'⟩ := run_simulates
    (R := fun c o => ∃ holder, Matches S mechanism holder c o) (fun c e c' o hR hok h => step_simulates hmechanism hR hok h)
    ⟨none,hM⟩ huses hrun
  have hnone : holder = none := by
    refine Option.eq_none_iff_forall_ne_some.mpr fun t ht => ?_
    have hthread := hM'.threads t
    rw [ThreadOk,hcomplete t] at hthread
    exact hthread.2 ht
  refine ⟨marks,o'.status,hhistory,?_⟩
  rw [hmarks,hM'.value hnone]

end Simulation
/-- An object of one byte, for which the generic operations use the lock and the sized ones the hardware. -/
def byteObject : Setting := ⟨⟨64,.little,fun n => n ∈ [1,2,4,8]⟩,1,0,16,by decide⟩

def zeroes : Threads Bool := ⟨⟨fun _ => 0,fun _ => false⟩,fun _ => ⟨fun _ => 0,none⟩⟩

/-- An exchange and a load, both with the lock. -/
def exchangeAndLoad : List (Bool × Action 1) :=
  [(false,.invoke .generic (.exchange ⟨[5],rfl⟩)),(true,.invoke .generic .load)] ++ List.replicate 8 (false,.step) ++
    List.replicate 5 (true,.step) ++ [(true,.respond (.value [5])),(false,.respond (.value [0]))]

theorem exchangeAndLoad_run : ((Transition.run (step byteObject) zeroes exchangeAndLoad).map fun c =>
    ((c.threads false).running.isNone,(c.threads true).running.isNone)) = some (true,true) := by
  decide +kernel

theorem linearizable_exchangeAndLoad : ∃ c', Transition.run (step byteObject) zeroes exchangeAndLoad = some c' ∧
    Linearizable (spec byteObject.T) (object byteObject zeroes.shared) (history byteObject exchangeAndLoad)
      (object byteObject c'.shared) := by
  obtain ⟨c',hrun,hidle⟩ := Option.map_eq_some_iff.mp exchangeAndLoad_run
  obtain ⟨h₀,h₁⟩ := Prod.mk.inj hidle
  have hgeneric : ∀ e ∈ exchangeAndLoad, ∀ op, e.2 ≠ .invoke .sized op := by
    simp [exchangeAndLoad]
  have huses : ∀ e ∈ exchangeAndLoad, Uses byteObject .lock e := by
    intro e he entry op h
    cases entry with
    | generic => rfl
    | sized => exact absurd h (hgeneric e he op)
  refine ⟨c',hrun,linearizable_of_run byteObject (Or.inl rfl) huses ⟨rfl,fun _ => rfl⟩ hrun fun t => ?_⟩
  cases t with
  | false => exact Option.isNone_iff_eq_none.mp h₀
  | true => exact Option.isNone_iff_eq_none.mp h₁

/-! ## A lost update -/

/-- The addition falls between the copy of the old value and the copy of the new one. -/
def lostUpdate : List (Bool × Action 1) :=
  [(false,.invoke .generic (.exchange ⟨[5],rfl⟩)),(false,.step),(false,.step),(false,.step),
    (true,.invoke .sized (.fetch .add ⟨[1],rfl⟩)),(true,.step),(true,.respond (.value [0])),
    (false,.step),(false,.step),(false,.step),(false,.step),(false,.step),(false,.respond (.value [0]))]

theorem lostUpdate_run : ((Transition.run (step byteObject) zeroes lostUpdate).map fun c =>
    ((c.threads false).running.isNone,(c.threads true).running.isNone)) = some (true,true) := by
  decide +kernel

abbrev ByteObject := Object (List Byte) Bool (Operation 1) Response

/-- What is left of the history, and the states the atomic object can be in by then. -/
def AtMost (H : List (Event Bool (Operation 1) Response)) (o : ByteObject) : Prop :=
  let exchange : Operation 1 := .exchange ⟨[5],rfl⟩
  let fetch : Operation 1 := .fetch .add ⟨[1],rfl⟩
  let zero := Response.value [0]
  let At (s₀ s₁ : Status (Operation 1) Response) (v : List Byte) := o.status false = s₀ ∧ o.status true = s₁ ∧ o.value = v
  (H = [.invoke false exchange,.invoke true fetch,.respond true zero,.respond false zero] ∧ At .idle .idle [0]) ∨
  (H = [.invoke true fetch,.respond true zero,.respond false zero] ∧
    (At (.pending exchange) .idle [0] ∨ At (.done zero) .idle [5])) ∨
  (H = [.respond true zero,.respond false zero] ∧
    (At (.pending exchange) (.pending fetch) [0] ∨ At (.done zero) (.pending fetch) [5] ∨
      At (.pending exchange) (.done zero) [1] ∨ At (.done zero) (.done (.value [5])) [6] ∨
      At (.done (.value [1])) (.done zero) [5])) ∨
  (H = [.respond false zero] ∧ (At (.pending exchange) .idle [1] ∨ At (.done (.value [1])) .idle [5]))

theorem atMost_perform {H : List (Event Bool (Operation 1) Response)} {o o' : ByteObject} (t : Bool) (h : AtMost H o)
    (hs : o.step (spec byteObject.T) (.perform t) = some o') : AtMost H o' := by
  obtain ⟨v,st⟩ := o
  dsimp only [AtMost] at h
  cases t <;>
  rcases h with ⟨rfl,h₀,h₁,rfl⟩ | ⟨rfl,⟨h₀,h₁,rfl⟩ | ⟨h₀,h₁,rfl⟩⟩ |
    ⟨rfl,⟨h₀,h₁,rfl⟩ | ⟨h₀,h₁,rfl⟩ | ⟨h₀,h₁,rfl⟩ | ⟨h₀,h₁,rfl⟩ | ⟨h₀,h₁,rfl⟩⟩ | ⟨rfl,⟨h₀,h₁,rfl⟩ | ⟨h₀,h₁,rfl⟩⟩ <;>
  simp only [Object.step,h₀,h₁] at hs <;> cases hs <;> simp [AtMost,h₀,h₁,spec,FetchOp.apply] <;> decide

theorem atMost_event {e : Event Bool (Operation 1) Response} {H : List (Event Bool (Operation 1) Response)}
    {o o' : ByteObject} (h : AtMost (e :: H) o) (hs : o.step (spec byteObject.T) (.event e) = some o') : AtMost H o' := by
  obtain ⟨v,st⟩ := o
  dsimp only [AtMost] at h
  rcases h with ⟨he,h₀,h₁,rfl⟩ | ⟨he,⟨h₀,h₁,rfl⟩ | ⟨h₀,h₁,rfl⟩⟩ |
    ⟨he,⟨h₀,h₁,rfl⟩ | ⟨h₀,h₁,rfl⟩ | ⟨h₀,h₁,rfl⟩ | ⟨h₀,h₁,rfl⟩ | ⟨h₀,h₁,rfl⟩⟩ | ⟨he,⟨h₀,h₁,rfl⟩ | ⟨h₀,h₁,rfl⟩⟩ <;>
  cases he <;> simp [Object.step,h₀,h₁] at hs <;> cases hs <;> simp [AtMost,h₀,h₁]

/-- The exchange returns zero although the addition has returned zero before. -/
theorem not_linearizable_lostUpdate : ∃ c', Transition.run (step byteObject) zeroes lostUpdate = some c' ∧
    (∀ t, (c'.threads t).running = none) ∧
    ¬Linearizable (spec byteObject.T) (object byteObject zeroes.shared) (history byteObject lostUpdate)
      (object byteObject c'.shared) := by
  obtain ⟨c',hrun,hidle⟩ := Option.map_eq_some_iff.mp lostUpdate_run
  obtain ⟨h₀,h₁⟩ := Prod.mk.inj hidle
  refine ⟨c',hrun,fun t => ?_,?_⟩
  · cases t with
    | false => exact Option.isNone_iff_eq_none.mp h₀
    | true => exact Option.isNone_iff_eq_none.mp h₁
  · refine not_linearizable (P := AtMost) (fun H o t o' => atMost_perform t) (fun e H o o' => atMost_event) ?_
      (Or.inl ⟨rfl,rfl,rfl,rfl⟩)
    rintro o (⟨h,-⟩ | ⟨h,-⟩ | ⟨h,-⟩ | ⟨h,-⟩) <;> cases h

end CompilerRt.Atomic
