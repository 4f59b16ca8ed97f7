import CompilerRt.Lib.Program

/-! # Programs with one synchronised access

Memory from `stack` on is a thread's own. A program works on its own memory, makes one access that other threads can
see, either an atomic operation or a critical section, and works on its own memory again.
-/
namespace CompilerRt.Program
open ByteOrder Store
variable {α β : Type}

/-- The thread's own memory from `stack` on, and the shared memory below. -/
def view (stack : ℕ) (own shared : ℕ → Byte) : ℕ → Byte := fun a => if stack ≤ a then own a else shared a

section View
variable {stack a n : ℕ} {m m' own shared : ℕ → Byte}

theorem view_view_left : view stack (view stack m own) shared = view stack m shared := by
  funext x
  dsimp only [view]
  split <;> rfl

/-- Memory is put together again from its two parts. -/
theorem view_view : view stack (view stack m own) (view stack shared m) = m := by
  funext x
  dsimp only [view]
  split <;> rfl

theorem view_shared : view stack shared (view stack own shared) = shared := by
  funext x
  dsimp only [view]
  split <;> rfl

theorem view_own : view stack (view stack own shared) own = own := by
  funext x
  dsimp only [view]
  split <;> rfl

theorem readBytes_view_own (h : stack ≤ a) : readBytes (view stack own shared) a n = readBytes own a n :=
  readBytes_congr fun _ _ => if_pos (Nat.le_add_right_of_le h)

theorem readBytes_view_shared (h : a + n ≤ stack) : readBytes (view stack own shared) a n = readBytes shared a n :=
  readBytes_congr fun i hi => if_neg (by omega)

theorem writeBytes_view_own {bs : List Byte} (h : stack ≤ a) :
    writeBytes (view stack own shared) a bs = view stack (writeBytes own a bs) shared := by
  funext x
  by_cases hx : a ≤ x ∧ x < a + bs.length
  · exact (if_pos hx).trans ((if_pos (h.trans hx.1)).trans (if_pos hx)).symm
  · rw [writeBytes_of_not_mem (by omega)]
    dsimp only [view]
    split
    · exact (writeBytes_of_not_mem (by omega)).symm
    · rfl

end View

/-! ## The phases -/

/-- Only plain accesses, to addresses with `ok`. -/
def Plain (ok : ℕ → Prop) : Program α → Prop
  | .ret _ => True
  | .load b o _ k => ok (b + o) ∧ ∀ bs, Plain ok (k bs)
  | .store b o _ k => ok (b + o) ∧ Plain ok k
  | .atomic .. | .acquire .. | .release .. => False

/-- Inside the critical section of the lock. -/
def Inside (ok : ℕ → Prop) (l : ℕ) : Program α → Prop
  | .load _ _ _ k => ∀ bs, Inside ok l (k bs)
  | .store _ _ _ k => Inside ok l k
  | .release l' k => l' = l ∧ Plain ok k
  | .ret _ | .atomic .. | .acquire .. => False

/-- Before the critical section of the lock, if there is one, or else before the atomic operation. -/
def Before (ok : ℕ → Prop) (lock : Option ℕ) : Program α → Prop
  | .load b o _ k => ok (b + o) ∧ ∀ bs, Before ok lock (k bs)
  | .store b o _ k => ok (b + o) ∧ Before ok lock k
  | .atomic _ _ _ k => lock = none ∧ ∀ bs, Plain ok (k bs)
  | .acquire l k => lock = some l ∧ Inside ok l k
  | .ret _ | .release .. => False

section Bind
variable {ok ok' : ℕ → Prop} {l : ℕ} {lock : Option ℕ} {p : Program α} {g : α → Program β}

theorem Plain.bind (hp : Plain ok p) (hg : ∀ a, Plain ok (g a)) : Plain ok (p >>= g) := by
  induction p with
  | ret a => exact hg a
  | load b o n k ih => exact ⟨hp.1,fun bs => ih bs (hp.2 bs)⟩
  | store b o bs k ih => exact ⟨hp.1,ih hp.2⟩
  | atomic | acquire | release => exact hp.elim

theorem Plain.bind_inside (hp : Plain ok' p) (hg : ∀ a, Inside ok l (g a)) : Inside ok l (p >>= g) := by
  induction p with
  | ret a => exact hg a
  | load b o n k ih => exact fun bs => ih bs (hp.2 bs)
  | store b o bs k ih => exact ih hp.2
  | atomic | acquire | release => exact hp.elim

theorem Plain.bind_before (hp : Plain ok p) (hg : ∀ a, Before ok lock (g a)) : Before ok lock (p >>= g) := by
  induction p with
  | ret a => exact hg a
  | load b o n k ih => exact ⟨hp.1,fun bs => ih bs (hp.2 bs)⟩
  | store b o bs k ih => exact ⟨hp.1,ih hp.2⟩
  | atomic | acquire | release => exact hp.elim

theorem Inside.bind (hp : Inside ok l p) (hg : ∀ a, Plain ok (g a)) : Inside ok l (p >>= g) := by
  induction p with
  | load b o n k ih => exact fun bs => ih bs (hp bs)
  | store b o bs k ih => exact ih hp
  | release l' k ih => exact ⟨hp.1,hp.2.bind hg⟩
  | ret | atomic | acquire => exact hp.elim

theorem Before.bind (hp : Before ok lock p) (hg : ∀ a, Plain ok (g a)) : Before ok lock (p >>= g) := by
  induction p with
  | load b o n k ih => exact ⟨hp.1,fun bs => ih bs (hp.2 bs)⟩
  | store b o bs k ih => exact ⟨hp.1,ih hp.2⟩
  | atomic b n f k ih => exact ⟨hp.1,fun bs => (hp.2 bs).bind hg⟩
  | acquire l k ih => exact ⟨hp.1,hp.2.bind hg⟩
  | ret | release => exact hp.elim

end Bind

/-! ## Steps -/

section Steps
variable {stack : ℕ} {own shared : ℕ → Byte} {p : Program α}

/-- The next step is an access to the thread's own memory. -/
def AtOwn (stack : ℕ) : Program α → Prop
  | .load b o _ _ | .store b o _ _ => stack ≤ b + o
  | .ret _ | .atomic .. | .acquire .. | .release .. => False

/-- A step on a thread's own memory is the same whatever the shared memory is. -/
theorem next_own (h : AtOwn stack p) (own : ℕ → Byte) : ∃ p' own', ∀ shared locked,
    next p ⟨view stack own shared,locked⟩ = some (p',⟨view stack own' shared,locked⟩) := by
  cases p with
  | load b o n k =>
    refine ⟨k (readBytes own (b + o) n),own,fun shared locked => ?_⟩
    rw [next,readBytes_view_own h]
  | store b o bs k =>
    refine ⟨k,writeBytes own (b + o) bs,fun shared locked => ?_⟩
    rw [next,write,writeBytes_view_own h]
  | ret | atomic | acquire | release => exact h.elim

/-- The step as the thread takes it, when its own memory and the shared memory are taken apart again. -/
theorem next_own_split {p' : Program α} {s s' : Store} (h : AtOwn stack p)
    (hn : next p ⟨view stack own s.bytes,s.locked⟩ = some (p',s')) :
    (∀ shared locked, next p ⟨view stack own shared,locked⟩ =
      some (p',⟨view stack (view stack s'.bytes own) shared,locked⟩)) ∧
    (⟨view stack s.bytes s'.bytes,s'.locked⟩ : Store) = s := by
  obtain ⟨q,own',hown⟩ := next_own h own
  cases (hown s.bytes s.locked).symm.trans hn
  refine ⟨fun shared locked => ?_,?_⟩
  · rw [hown,view_view_left,view_view_left]
  · rw [view_shared]

theorem Before.next_own {ok : ℕ → Prop} {lock : Option ℕ} {p' : Program α} {s s' : Store} (h : Before ok lock p)
    (hown : AtOwn stack p) (hn : next p s = some (p',s')) : Before ok lock p' := by
  cases p with
  | load b o n k =>
    cases hn
    exact h.2 _
  | store b o bs k =>
    cases hn
    exact h.2
  | ret | atomic | acquire | release => exact hown.elim

theorem Plain.next {ok : ℕ → Prop} {p' : Program α} {s s' : Store} (h : Plain ok p) (hn : next p s = some (p',s')) :
    Plain ok p' := by
  cases p with
  | ret a => cases hn
  | load b o n k =>
    cases hn
    exact h.2 _
  | store b o bs k =>
    cases hn
    exact h.2
  | atomic | acquire | release => exact h.elim

theorem Plain.atOwn {p' : Program α} {s s' : Store} (h : Plain (stack ≤ ·) p) (hn : Program.next p s = some (p',s')) :
    AtOwn stack p := by
  cases p with
  | ret a => cases hn
  | load b o n k => exact h.1
  | store b o bs k => exact h.1
  | atomic | acquire | release => exact h.elim

/-- The result of such work on a thread's own memory. -/
theorem Plain.result (h : Plain (stack ≤ ·) p) (own : ℕ → Byte) : ∃ a own', ∀ shared locked,
    result p ⟨view stack own shared,locked⟩ = some (a,⟨view stack own' shared,locked⟩) := by
  induction p generalizing own with
  | ret a => exact ⟨a,own,fun _ _ => rfl⟩
  | load b o n k ih =>
    obtain ⟨a,own',hr⟩ := ih (readBytes own (b + o) n) (h.2 _) own
    refine ⟨a,own',fun shared locked => ?_⟩
    have hn : Program.next (.load b o n k) ⟨view stack own shared,locked⟩ =
        some (k (readBytes own (b + o) n),⟨view stack own shared,locked⟩) := by
      rw [Program.next,readBytes_view_own h.1]
    rw [result_next hn,hr]
  | store b o bs k ih =>
    obtain ⟨a,own',hr⟩ := ih h.2 (writeBytes own (b + o) bs)
    refine ⟨a,own',fun shared locked => ?_⟩
    have hn : Program.next (.store b o bs k) ⟨view stack own shared,locked⟩ =
        some (k,⟨view stack (writeBytes own (b + o) bs) shared,locked⟩) := by
      rw [Program.next,write,writeBytes_view_own h.1]
    rw [result_next hn,hr]
  | atomic | acquire | release => exact h.elim

end Steps
end CompilerRt.Program
