import CompilerRt.Lib.Transition
import Mathlib.Logic.Function.Basic

/-! # Linearizability

The atomic object takes an operation up, performs it in one step that is not seen from outside, and gives the result
back. A history is linearizable if it is a history of the atomic object; the order in which the operations are
performed is the sequential order.
-/
namespace CompilerRt.Linearizability

inductive Event (Tid Op Res : Type*)
  | invoke (t : Tid) (op : Op)
  | respond (t : Tid) (r : Res)

/-- What a thread has to do with the object. -/
inductive Status (Op Res : Type*)
  | idle
  | pending (op : Op)
  | done (r : Res)

inductive Mark (Tid Op Res : Type*)
  | event (e : Event Tid Op Res)
  | perform (t : Tid)

def Mark.event? {Tid Op Res : Type*} : Mark Tid Op Res → Option (Event Tid Op Res)
  | .event e => some e
  | .perform _ => none

structure Object (V Tid Op Res : Type*) where
  value : V
  status : Tid → Status Op Res

variable {V Tid Op Res : Type*} [DecidableEq Tid] [DecidableEq Res]

/-- The atomic object with the sequential specification `spec`. -/
def Object.step (spec : V → Op → V × Res) (o : Object V Tid Op Res) : Mark Tid Op Res → Option (Object V Tid Op Res)
  | .event (.invoke t op) =>
    match o.status t with
    | .idle => some { o with status := Function.update o.status t (.pending op) }
    | _ => none
  | .event (.respond t r) =>
    match o.status t with
    | .done r' => if r' = r then some { o with status := Function.update o.status t .idle } else none
    | _ => none
  | .perform t =>
    match o.status t with
    | .pending op => some ⟨(spec o.value op).1,Function.update o.status t (.done (spec o.value op).2)⟩
    | _ => none

/-- The history takes the atomic object from the value `v` to the value `v'`. -/
def Linearizable (spec : V → Op → V × Res) (v : V) (history : List (Event Tid Op Res)) (v' : V) : Prop :=
  ∃ marks status, marks.filterMap Mark.event? = history ∧
    Transition.run (Object.step spec) ⟨v,fun _ => .idle⟩ marks = some ⟨v',status⟩

variable {spec : V → Op → V × Res} {o : Object V Tid Op Res} {t : Tid}

theorem step_invoke {op : Op} (h : o.status t = .idle) :
    o.step spec (.event (.invoke t op)) = some { o with status := Function.update o.status t (.pending op) } := by
  rw [Object.step,h]

theorem step_respond {r : Res} (h : o.status t = .done r) :
    o.step spec (.event (.respond t r)) = some { o with status := Function.update o.status t .idle } := by
  simp only [Object.step,h,if_true]

theorem step_perform {op : Op} (h : o.status t = .pending op) :
    o.step spec (.perform t) = some ⟨(spec o.value op).1,Function.update o.status t (.done (spec o.value op).2)⟩ := by
  rw [Object.step,h]

section Simulation
variable {σ α : Type*} {step : σ → α → Option σ} {event : α → Option (Event Tid Op Res)} {ok : α → Prop}
  {R : σ → Object V Tid Op Res → Prop} {s s' : σ} {as : List α}

/-- If every step is matched by marks with the same event, then so is every run. -/
theorem run_simulates (hstep : ∀ s a s' o, R s o → ok a → step s a = some s' → ∃ marks o',
      Transition.run (Object.step spec) o marks = some o' ∧ marks.filterMap Mark.event? = (event a).toList ∧ R s' o')
    (hR : R s o) (hok : ∀ a ∈ as, ok a) (hrun : Transition.run step s as = some s') :
    ∃ marks o', Transition.run (Object.step spec) o marks = some o' ∧
      marks.filterMap Mark.event? = as.filterMap event ∧ R s' o' := by
  induction as generalizing s o with
  | nil =>
    cases hrun
    exact ⟨[],o,rfl,rfl,hR⟩
  | cons a as ih =>
    rw [Transition.run_cons,Option.bind_eq_some_iff] at hrun
    obtain ⟨s₁,ha,hrun⟩ := hrun
    obtain ⟨ms,o₁,hms,hev,hR₁⟩ := hstep s a s₁ o hR (hok a List.mem_cons_self) ha
    obtain ⟨ns,o₂,hns,hevs,hR₂⟩ := ih hR₁ (fun b hb => hok b (List.mem_cons_of_mem a hb)) hrun
    refine ⟨ms ++ ns,o₂,?_,?_,hR₂⟩
    · rw [Transition.run_append,hms,Option.bind_some,hns]
    · rw [List.filterMap_append,hev,hevs,List.filterMap_cons]
      cases event a with
      | none => rfl
      | some e => rfl

end Simulation

/-- A history is not linearizable if the atomic object cannot get to its end: `P` holds of what is left of the history
and of the states that the object can be in by then. -/
theorem not_linearizable {P : List (Event Tid Op Res) → Object V Tid Op Res → Prop}
    (hperform : ∀ H o t o', P H o → o.step spec (.perform t) = some o' → P H o')
    (hevent : ∀ e H o o', P (e :: H) o → o.step spec (.event e) = some o' → P H o') (hend : ∀ o, ¬P [] o) {v v' : V}
    {H : List (Event Tid Op Res)} (hstart : P H ⟨v,fun _ => .idle⟩) : ¬Linearizable spec v H v' := by
  rintro ⟨marks,status,rfl,hrun⟩
  generalize (⟨v,fun _ => .idle⟩ : Object V Tid Op Res) = o at hstart hrun
  induction marks generalizing o with
  | nil => exact hend o hstart
  | cons mark marks ih =>
    rw [Transition.run_cons,Option.bind_eq_some_iff] at hrun
    obtain ⟨o₁,hmark,hrun⟩ := hrun
    cases mark with
    | event e => exact ih o₁ (hevent e _ o o₁ hstart hmark) hrun
    | perform t => exact ih o₁ (hperform _ o t o₁ hstart hmark) hrun
end CompilerRt.Linearizability
