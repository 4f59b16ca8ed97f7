import Mathlib

/-! # Systems of vector clocks

Threads and objects carry a clock each. A thread advances its own entry, takes over what an object
knows, and adds or writes what it knows to an object. An entry of a thread for itself is the time of
that thread and is never taken over from an object.
-/
namespace CompilerRt.VectorClock
variable {T O : Type*}

@[ext] structure Clocks (T O : Type*) where
  thread : T → T → ℕ
  obj : O → T → ℕ

namespace Clocks
variable [DecidableEq T] [DecidableEq O]

def setThread (c : Clocks T O) (t : T) (v : T → ℕ) : Clocks T O := { c with thread := Function.update c.thread t v }
def setObj (c : Clocks T O) (o : O) (v : T → ℕ) : Clocks T O := { c with obj := Function.update c.obj o v }

omit [DecidableEq O] in
@[simp] theorem setThread_thread_self (c : Clocks T O) (t : T) (v : T → ℕ) : (c.setThread t v).thread t = v := by
  simp [setThread]

omit [DecidableEq O] in
@[simp] theorem setThread_thread_of_ne (c : Clocks T O) {t u : T} (v : T → ℕ) (h : u ≠ t) :
    (c.setThread t v).thread u = c.thread u := by
  simp [setThread, h]

omit [DecidableEq O] in
@[simp] theorem setThread_obj (c : Clocks T O) (t : T) (v : T → ℕ) : (c.setThread t v).obj = c.obj := rfl

omit [DecidableEq T] in
@[simp] theorem setObj_obj_self (c : Clocks T O) (o : O) (v : T → ℕ) : (c.setObj o v).obj o = v := by simp [setObj]

omit [DecidableEq T] in
@[simp] theorem setObj_obj_of_ne (c : Clocks T O) {o p : O} (v : T → ℕ) (h : p ≠ o) :
    (c.setObj o v).obj p = c.obj p := by
  simp [setObj, h]

omit [DecidableEq T] in
@[simp] theorem setObj_thread (c : Clocks T O) (o : O) (v : T → ℕ) : (c.setObj o v).thread = c.thread := rfl

end Clocks

inductive Action (T O : Type*) where
  | tick (t : T)
  | acquire (t : T) (o : O)
  | release (t : T) (o : O)
  | store (t : T) (o : O)
  | reset (o : O)
  | start (t : T) (time : ℕ) (o : O)
  | learn (t : T) (time : T → Option ℕ)

namespace Action

/-- The thread whose clock the action writes. -/
def writesThread : Action T O → Option T
  | tick t | acquire t _ | start t _ _ | learn t _ => some t
  | release .. | store .. | reset _ => none

/-- The object whose clock the action replaces. -/
def replaces : Action T O → Option O
  | store _ o | reset o => some o
  | tick _ | acquire .. | release .. | start .. | learn .. => none

/-- The thread whose clock the action replaces. -/
def restarts : Action T O → Option T
  | start t _ _ | learn t _ => some t
  | tick _ | acquire .. | release .. | store .. | reset _ => none

/-- What the action hands from a thread to an object. -/
def publishes : Action T O → Option (T × O)
  | release t o | store t o => some (t, o)
  | tick _ | acquire .. | reset _ | start .. | learn .. => none

/-- What a thread's clock becomes: the entry for the thread itself is its time. -/
def own [DecidableEq T] (t : T) (time : ℕ) (v : T → ℕ) : T → ℕ := Function.update v t time

@[simp] theorem own_self [DecidableEq T] (t : T) (time : ℕ) (v : T → ℕ) : own t time v t = time := by simp [own]

@[simp] theorem own_of_ne [DecidableEq T] {t u : T} (time : ℕ) (v : T → ℕ) (h : u ≠ t) : own t time v u = v u := by
  simp [own, h]

def apply [DecidableEq T] [DecidableEq O] (c : Clocks T O) : Action T O → Clocks T O
  | tick t => c.setThread t (own t (c.thread t t + 1) (c.thread t))
  | acquire t o => c.setThread t (own t (c.thread t t) (c.thread t ⊔ c.obj o))
  | release t o => c.setObj o (c.obj o ⊔ c.thread t)
  | store t o => c.setObj o (c.thread t)
  | reset o => c.setObj o 0
  | start t time o => c.setThread t (own t time (c.obj o))
  | learn t time => c.setThread t (own t (c.thread t t) fun u => (time u).getD (c.thread t u))

end Action

variable [DecidableEq T] [DecidableEq O]

def run (c : Clocks T O) (as : List (Action T O)) : Clocks T O := as.foldl Action.apply c

@[simp] theorem run_nil (c : Clocks T O) : run c [] = c := rfl

@[simp] theorem run_cons (c : Clocks T O) (a : Action T O) (as : List (Action T O)) :
    run c (a :: as) = run (a.apply c) as := rfl

theorem run_append (c : Clocks T O) (as bs : List (Action T O)) : run c (as ++ bs) = run (run c as) bs :=
  List.foldl_append

/-! ## Knowledge is kept -/

theorem thread_le_apply {c : Clocks T O} {a : Action T O} {t : T} (h : a.restarts ≠ some t) :
    c.thread t ≤ (a.apply c).thread t := by
  cases a with
  | tick u =>
    rcases eq_or_ne t u with rfl | hne
    · intro v
      rcases eq_or_ne v t with rfl | hv
      · simp [Action.apply]
      · simp [Action.apply, hv]
    · simp [Action.apply, hne]
  | acquire u o =>
    rcases eq_or_ne t u with rfl | hne
    · intro v
      rcases eq_or_ne v t with rfl | hv
      · simp [Action.apply]
      · simp [Action.apply, hv]
    · simp [Action.apply, hne]
  | release | store | reset => simp [Action.apply]
  | start u | learn u =>
    have hne : t ≠ u := fun he => h (congrArg some he.symm)
    simp [Action.apply, hne]

theorem obj_le_apply {c : Clocks T O} {a : Action T O} {o : O} (h : a.replaces ≠ some o) :
    c.obj o ≤ (a.apply c).obj o := by
  cases a with
  | tick | acquire | start | learn => simp [Action.apply]
  | release t p =>
    rcases eq_or_ne o p with rfl | hne
    · simp [Action.apply]
    · simp [Action.apply, hne]
  | store t p | reset p =>
    have hne : o ≠ p := fun he => h (congrArg some he.symm)
    simp [Action.apply, hne]

theorem thread_le_run {as : List (Action T O)} {t : T} (h : ∀ a ∈ as, a.restarts ≠ some t) (c : Clocks T O) :
    c.thread t ≤ (run c as).thread t := by
  induction as generalizing c with
  | nil => exact le_rfl
  | cons a as ih =>
    exact (thread_le_apply (h a List.mem_cons_self)).trans (ih (fun b hb => h b (List.mem_cons_of_mem a hb)) _)

theorem obj_le_run {as : List (Action T O)} {o : O} (h : ∀ a ∈ as, a.replaces ≠ some o) (c : Clocks T O) :
    c.obj o ≤ (run c as).obj o := by
  induction as generalizing c with
  | nil => exact le_rfl
  | cons a as ih =>
    exact (obj_le_apply (h a List.mem_cons_self)).trans (ih (fun b hb => h b (List.mem_cons_of_mem a hb)) _)

theorem thread_apply_of_ne {c : Clocks T O} {a : Action T O} {t : T} (h : a.writesThread ≠ some t) :
    (a.apply c).thread t = c.thread t := by
  cases a with
  | release | store | reset => rfl
  | tick u | acquire u | start u | learn u =>
    have hne : t ≠ u := fun he => h (congrArg some he.symm)
    simp [Action.apply, hne]

theorem thread_run_of_ne {as : List (Action T O)} {t : T} (h : ∀ a ∈ as, a.writesThread ≠ some t) (c : Clocks T O) :
    (run c as).thread t = c.thread t := by
  induction as generalizing c with
  | nil => rfl
  | cons a as ih =>
    rw [run_cons, ih (fun b hb => h b (List.mem_cons_of_mem a hb)), thread_apply_of_ne (h a List.mem_cons_self)]

/-- A thread that has time `e` or more for itself does not learn from an object that it knows less of. -/
theorem le_acquire {c : Clocks T O} {t : T} {o : O} {v : T → ℕ} (h : v ≤ c.obj o) (ht : v t ≤ c.thread t t) :
    v ≤ ((Action.acquire t o).apply c).thread t := by
  intro u
  rcases eq_or_ne u t with rfl | hu
  · simpa [Action.apply] using ht
  · simpa [Action.apply, hu] using le_max_of_le_right (h u)

/-- What an object knows, a thread learns with an acquire and then keeps. -/
theorem le_run_acquire {as : List (Action T O)} {t : T} {o : O} (hmem : .acquire t o ∈ as)
    (hrep : ∀ a ∈ as, a.replaces ≠ some o) (hres : ∀ a ∈ as, a.restarts ≠ some t) {c : Clocks T O} {v : T → ℕ}
    (h : v ≤ c.obj o) (ht : v t ≤ c.thread t t) : v ≤ (run c as).thread t := by
  induction as generalizing c with
  | nil => cases hmem
  | cons a as ih =>
    have hres' : ∀ b ∈ as, b.restarts ≠ some t := fun b hb => hres b (List.mem_cons_of_mem a hb)
    rcases List.mem_cons.mp hmem with rfl | hmem
    · exact (le_acquire h ht).trans (thread_le_run hres' _)
    · exact ih hmem (fun b hb => hrep b (List.mem_cons_of_mem a hb)) hres'
        (h.trans (obj_le_apply (hrep a List.mem_cons_self)))
        (ht.trans (thread_le_apply (hres a List.mem_cons_self) t))

/-- What a thread knows, an object knows after a release or a store. -/
theorem thread_le_release (c : Clocks T O) (as : List (Action T O)) (t : T) (o : O) :
    (run c (as ++ [.release t o])).thread t ≤ (run c (as ++ [.release t o])).obj o := by
  rw [run_append]
  simp [Action.apply]

theorem thread_le_store (c : Clocks T O) (as : List (Action T O)) (t : T) (o : O) :
    (run c (as ++ [.store t o])).thread t ≤ (run c (as ++ [.store t o])).obj o := by
  rw [run_append]
  simp [Action.apply]

/-! ## What others know of a thread -/

/-- Nothing but thread `t` itself knows of time `e` of `t`. -/
def Below (c : Clocks T O) (t : T) (e : ℕ) : Prop := (∀ o, c.obj o t < e) ∧ ∀ u, u ≠ t → c.thread u t < e

omit [DecidableEq T] [DecidableEq O] in
theorem Below.mono {c : Clocks T O} {t : T} {e e' : ℕ} (h : Below c t e) (he : e ≤ e') : Below c t e' :=
  ⟨fun o => (h.1 o).trans_le he,fun u hu => (h.2 u hu).trans_le he⟩

/-- Only a publication by the thread itself, or a thread that learns from outside, can break it. -/
theorem Below.apply {c : Clocks T O} {t : T} {e : ℕ} (h : Below c t e) {a : Action T O}
    (hp : ∀ o, a.publishes = some (t, o) → c.thread t t < e) (hl : ∀ u f, a ≠ .learn u f)
    (he : 0 < e) : Below (a.apply c) t e := by
  obtain ⟨ho,ht⟩ := h
  cases a with
  | tick u =>
    refine ⟨ho,fun v hv => ?_⟩
    rcases eq_or_ne v u with rfl | hne
    · simpa [Action.apply, hv.symm] using ht v hv
    · simpa [Action.apply, hne] using ht v hv
  | acquire u o =>
    refine ⟨ho,fun v hv => ?_⟩
    rcases eq_or_ne v u with rfl | hne
    · simpa [Action.apply, hv.symm] using ⟨ht v hv,ho o⟩
    · simpa [Action.apply, hne] using ht v hv
  | release u o =>
    refine ⟨fun p => ?_,ht⟩
    rcases eq_or_ne p o with rfl | hne
    · rcases eq_or_ne u t with rfl | hu
      · simpa [Action.apply] using ⟨ho p,hp p rfl⟩
      · simpa [Action.apply] using ⟨ho p,ht u hu⟩
    · simpa [Action.apply, hne] using ho p
  | store u o =>
    refine ⟨fun p => ?_,ht⟩
    rcases eq_or_ne p o with rfl | hne
    · rcases eq_or_ne u t with rfl | hu
      · simpa [Action.apply] using hp p rfl
      · simpa [Action.apply] using ht u hu
    · simpa [Action.apply, hne] using ho p
  | reset o =>
    refine ⟨fun p => ?_,ht⟩
    rcases eq_or_ne p o with rfl | hne
    · simpa [Action.apply] using he
    · simpa [Action.apply, hne] using ho p
  | start u time o =>
    refine ⟨ho,fun v hv => ?_⟩
    rcases eq_or_ne v u with rfl | hne
    · simpa [Action.apply, hv.symm] using ho o
    · simpa [Action.apply, hne] using ht v hv
  | learn u f => exact absurd rfl (hl u f)

theorem Below.run {as : List (Action T O)} {c : Clocks T O} {t : T} {e : ℕ} (h : Below c t e)
    (hp : ∀ a ∈ as, ∀ o, a.publishes ≠ some (t, o)) (hl : ∀ a ∈ as, ∀ u f, a ≠ .learn u f) (he : 0 < e) :
    Below (run c as) t e := by
  induction as generalizing c with
  | nil => exact h
  | cons a as ih =>
    refine ih (h.apply (fun o ho => absurd ho (hp a List.mem_cons_self o)) (hl a List.mem_cons_self) he) ?_ ?_
    · exact fun b hb => hp b (List.mem_cons_of_mem a hb)
    · exact fun b hb => hl b (List.mem_cons_of_mem a hb)

/-! ## A thread's own time -/

/-- Nobody is ahead of a thread's own time. -/
def Bounded (c : Clocks T O) : Prop := ∀ t, (∀ o, c.obj o t ≤ c.thread t t) ∧ ∀ u, c.thread u t ≤ c.thread t t

/-- The action does not set the time of a thread back and learns only of times that have come. -/
def Action.Legal (c : Clocks T O) : Action T O → Prop
  | start t time _ => c.thread t t ≤ time
  | learn _ time => ∀ u e, time u = some e → e ≤ c.thread u u
  | tick _ | acquire .. | release .. | store .. | reset _ => True

theorem time_le_apply {c : Clocks T O} {a : Action T O} (h : a.Legal c) (t : T) :
    c.thread t t ≤ (a.apply c).thread t t := by
  cases a with
  | release | store | reset => exact le_rfl
  | tick u | acquire u o | learn u f =>
    rcases eq_or_ne t u with rfl | hne
    · simp [Action.apply]
    · simp [Action.apply, hne]
  | start u time o =>
    rcases eq_or_ne t u with rfl | hne
    · simpa [Action.apply] using (show c.thread t t ≤ time from h)
    · simp [Action.apply, hne]

theorem Bounded.apply {c : Clocks T O} (h : Bounded c) {a : Action T O} (hl : a.Legal c) : Bounded (a.apply c) := by
  intro t
  obtain ⟨ho,ht⟩ := h t
  have htime := time_le_apply hl t
  suffices hs : (∀ o, (a.apply c).obj o t ≤ c.thread t t) ∧
      ∀ u, u ≠ t → (a.apply c).thread u t ≤ c.thread t t by
    refine ⟨fun o => (hs.1 o).trans htime,fun u => ?_⟩
    rcases eq_or_ne u t with rfl | hne
    · exact le_rfl
    · exact (hs.2 u hne).trans htime
  cases a with
  | tick u =>
    refine ⟨ho,fun v hv => ?_⟩
    rcases eq_or_ne v u with rfl | hne
    · simpa [Action.apply, hv.symm] using ht v
    · simpa [Action.apply, hne] using ht v
  | acquire u o =>
    refine ⟨ho,fun v hv => ?_⟩
    rcases eq_or_ne v u with rfl | hne
    · simpa [Action.apply, hv.symm] using ⟨ht v,ho o⟩
    · simpa [Action.apply, hne] using ht v
  | release u o =>
    refine ⟨fun p => ?_,fun v _ => ht v⟩
    rcases eq_or_ne p o with rfl | hne
    · simpa [Action.apply] using ⟨ho p,ht u⟩
    · simpa [Action.apply, hne] using ho p
  | store u o =>
    refine ⟨fun p => ?_,fun v _ => ht v⟩
    rcases eq_or_ne p o with rfl | hne
    · simpa [Action.apply] using ht u
    · simpa [Action.apply, hne] using ho p
  | reset o =>
    refine ⟨fun p => ?_,fun v _ => ht v⟩
    rcases eq_or_ne p o with rfl | hne
    · simp [Action.apply]
    · simpa [Action.apply, hne] using ho p
  | start u time o =>
    refine ⟨ho,fun v hv => ?_⟩
    rcases eq_or_ne v u with rfl | hne
    · simpa [Action.apply, hv.symm] using ho o
    · simpa [Action.apply, hne] using ht v
  | learn u f =>
    refine ⟨ho,fun v hv => ?_⟩
    rcases eq_or_ne v u with rfl | hne
    · simp only [Action.apply, Clocks.setThread_thread_self, Action.own_of_ne _ _ hv.symm]
      cases hf : f t with
      | none => exact ht v
      | some e => exact hl t e hf
    · simpa [Action.apply, hne] using ht v

theorem Bounded.run {as : List (Action T O)} (hl : ∀ a ∈ as, ∀ c, a.Legal c) {c : Clocks T O} (h : Bounded c) :
    Bounded (run c as) := by
  induction as generalizing c with
  | nil => exact h
  | cons a as ih =>
    exact ih (fun b hb => hl b (List.mem_cons_of_mem a hb)) (h.apply (hl a List.mem_cons_self c))

theorem time_le_run {as : List (Action T O)} (hl : ∀ a ∈ as, ∀ c, a.Legal c) (c : Clocks T O) (t : T) :
    c.thread t t ≤ (run c as).thread t t := by
  induction as generalizing c with
  | nil => exact le_rfl
  | cons a as ih =>
    exact (time_le_apply (hl a List.mem_cons_self c) t).trans (ih (fun b hb => hl b (List.mem_cons_of_mem a hb)) _)

end CompilerRt.VectorClock
