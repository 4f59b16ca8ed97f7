import CompilerRt.Tsan.Machine
import Mathlib.Logic.Relation

/-! # Happens-before

A run of the detector is observed as a trace of events. An operation on a mutex is two events: the read with
which it begins and the operation proper. A monitor keeps the real mutexes next to the state of the detector
and admits an operation on a mutex only when the mutex does. The addresses of mutexes are not used as atomics.
-/
namespace CompilerRt.Tsan
open FastState

/-- A thread. Its thread id may be reused, its unique id is not. -/
abbrev ThreadId := ℕ × ℕ

/-! ## Real mutexes -/

/-- A recursive readers-writer mutex: who writes, and how deep beyond the first lock, or who reads. -/
inductive RwMutex (α : Type*) where
  | free
  | write (owner : α) (depth : ℕ)
  | read (holder : α) (holders : List α)

namespace RwMutex
variable {α : Type*} [DecidableEq α] (me : α)

def lock : RwMutex α → Option (RwMutex α)
  | free => some (write me 0)
  | write owner depth => if owner = me then some (write owner (depth + 1)) else none
  | read .. => none

def unlock : RwMutex α → Option (RwMutex α)
  | write owner 0 => if owner = me then some free else none
  | write owner (depth + 1) => if owner = me then some (write owner depth) else none
  | free | read .. => none

def readLock : RwMutex α → Option (RwMutex α)
  | free => some (read me [])
  | read holder holders => some (read me (holder :: holders))
  | write .. => none

def readUnlock : RwMutex α → Option (RwMutex α)
  | read holder holders =>
    if me ∈ holder :: holders then
      match (holder :: holders).erase me with
      | [] => some free
      | holder :: holders => some (read holder holders)
    else none
  | free | write .. => none

def writer : RwMutex α → Option α
  | write owner _ => some owner
  | free | read .. => none

end RwMutex

/-! ## Events -/

inductive Kind where
  | access (addr kAccessSizeLog : ℕ) (isWrite : Bool) (epoch : ℕ)
  | writeLock (addr : ℕ)
  | writeUnlock (addr : ℕ)
  | readLock (addr : ℕ)
  | readUnlock (addr : ℕ)
  | acquire (addr : ℕ)
  | release (addr : ℕ)
  | releaseStore (addr : ℕ)
  | create (child : ThreadId)
  | start
  | finish
  | join (child : ThreadId)
  | detach (child : ThreadId)

structure Event where
  thread : ThreadId
  kind : Kind

/-- The events that are ordered whenever the one is before the other. -/
def Event.Syncs (e f : Event) : Prop :=
  match e.kind, f.kind with
  | .writeUnlock a, .writeLock b | .readUnlock a, .writeLock b | .writeUnlock a, .readLock b => a = b
  | .create child, .start => child = f.thread
  | .finish, .join child => child = e.thread
  | _, _ => False

/-- The one step of happens-before from position `i` to position `j`. -/
def Edge (tr : List Event) (i j : ℕ) : Prop :=
  i < j ∧ ∃ e f, tr[i]? = some e ∧ tr[j]? = some f ∧
    (e.thread = f.thread ∨ e.Syncs f ∨
      ∃ a, (e.kind = .release a ∨ e.kind = .releaseStore a) ∧ f.kind = .acquire a ∧
        ∀ k g, i < k → k < j → tr[k]? = some g → g.kind ≠ .releaseStore a)

/-- The event at the one position happens before that at the other. -/
def Precedes (tr : List Event) : ℕ → ℕ → Prop := Relation.TransGen (Edge tr)

theorem Precedes.lt {tr : List Event} {i j : ℕ} (h : Precedes tr i j) : i < j := by
  induction h with
  | single h => exact h.1
  | tail _ h ih => exact ih.trans h.1

theorem getElem?_concat_eq_some {α : Type*} {l : List α} {x y : α} {i : ℕ} :
    (l ++ [x])[i]? = some y ↔ l[i]? = some y ∨ i = l.length ∧ x = y := by
  rcases lt_trichotomy i l.length with hi | rfl | hi
  · rw [List.getElem?_append_left hi]
    simp [hi.ne]
  · simp
  · rw [List.getElem?_eq_none (by rw [List.length_append]; exact hi), List.getElem?_eq_none hi.le]
    simp [hi.ne']

theorem lt_length_of_getElem? {α : Type*} {l : List α} {y : α} {i : ℕ} (h : l[i]? = some y) : i < l.length :=
  (List.getElem?_eq_some_iff.mp h).1

/-- A longer trace has the edges of the shorter one, and those to its last event. -/
theorem Edge.of_concat {tr : List Event} {f : Event} {i j : ℕ} (h : Edge (tr ++ [f]) i j) :
    Edge tr i j ∨ j = tr.length ∧ ∃ e, tr[i]? = some e ∧ (e.thread = f.thread ∨ e.Syncs f ∨
      ∃ a, (e.kind = .release a ∨ e.kind = .releaseStore a) ∧ f.kind = .acquire a ∧
        ∀ k g, i < k → tr[k]? = some g → g.kind ≠ .releaseStore a) := by
  obtain ⟨hij,e,f',he,hf,hrel⟩ := h
  have hsub : ∀ k g, tr[k]? = some g → (tr ++ [f])[k]? = some g := fun k g hg =>
    getElem?_concat_eq_some.mpr (Or.inl hg)
  have hi : tr[i]? = some e := by
    have hj := lt_length_of_getElem? hf
    rw [List.length_append, List.length_singleton] at hj
    rcases getElem?_concat_eq_some.mp he with hi | ⟨hi,-⟩
    · exact hi
    · omega
  rcases getElem?_concat_eq_some.mp hf with hj | ⟨rfl,rfl⟩
  · refine Or.inl ⟨hij,e,f',hi,hj,?_⟩
    rcases hrel with h | h | ⟨a,ha,hacq,hno⟩
    · exact Or.inl h
    · exact Or.inr (Or.inl h)
    · exact Or.inr (Or.inr ⟨a,ha,hacq,fun k g hik hkj hg => hno k g hik hkj (hsub k g hg)⟩)
  · refine Or.inr ⟨rfl,e,hi,?_⟩
    rcases hrel with h | h | ⟨a,ha,hacq,hno⟩
    · exact Or.inl h
    · exact Or.inr (Or.inl h)
    · exact Or.inr (Or.inr ⟨a,ha,hacq,fun k g hik hg => hno k g hik (lt_length_of_getElem? hg) (hsub k g hg)⟩)

/-! ## The monitor -/

structure Monitor where
  state : State
  mutexes : ℕ → RwMutex ThreadId
  trace : List Event

def State.unique_id (s : State) (t : ℕ) : ℕ := ((s.threads t).map (·.unique_id)).getD 0

/-- The thread that runs, or is about to start, under the thread id. -/
def State.threadId (s : State) (t : ℕ) : ThreadId := (t,s.unique_id t)

section Monitor
variable (cfg : Config) (isMutex : ℕ → Bool)

section Observe
variable (m : ℕ → RwMutex ThreadId)

def useMutex (addr : ℕ) (f : RwMutex ThreadId → Option (RwMutex ThreadId)) (kind : Kind) :
    Option ((ℕ → RwMutex ThreadId) × Kind) :=
  if isMutex addr then do return (Function.update m addr (← f (m addr)),kind) else none

def useAtomic (addr : ℕ) (kind : Kind) : Option ((ℕ → RwMutex ThreadId) × Kind) :=
  if isMutex addr then none else some (m,kind)

/-- An access of thread `t` after which the state is `s'`. -/
def State.accessKind (s' : State) (t addr sizeLog : ℕ) (isWrite : Bool) : Kind :=
  .access addr sizeLog isWrite (((s'.thr t).map (epoch ·.fast_state)).getD 0)

/-- The real mutexes after a part of a step from `s` to `s'`, and what the part is in the trace. -/
def Act.observe (s s' : State) (t : ℕ) : Act → Option ((ℕ → RwMutex ThreadId) × Kind)
  | access addr sizeLog isWrite => some (m,s'.accessKind t addr sizeLog isWrite)
  | lock addr => useMutex isMutex m addr (·.lock (s.threadId t)) (.writeLock addr)
  | unlock addr => useMutex isMutex m addr (·.unlock (s.threadId t)) (.writeUnlock addr)
  | readLock addr => useMutex isMutex m addr (·.readLock (s.threadId t)) (.readLock addr)
  | readUnlock addr => useMutex isMutex m addr (·.readUnlock (s.threadId t)) (.readUnlock addr)
  | readOrWriteUnlock addr =>
    if (m addr).writer = none then useMutex isMutex m addr (·.readUnlock (s.threadId t)) (.readUnlock addr)
    else useMutex isMutex m addr (·.unlock (s.threadId t)) (.writeUnlock addr)
  | acquire addr => useAtomic isMutex m addr (.acquire addr)
  | acquireGlobal => none
  | release addr => useAtomic isMutex m addr (.release addr)
  | releaseStore addr => useAtomic isMutex m addr (.releaseStore addr)
  | create _ => some (m,.create (newTid s,s.unique_thread_seq))
  | start _ => some (m,.start)
  | finish => some (m,.finish)
  | join tid => some (m,.join (s.threadId tid))
  | detach tid => some (m,.detach (s.threadId tid))

end Observe

def Act.monitor (M : Monitor) (t : ℕ) (a : Act) : Option Monitor := do
  let s ← a.exec cfg M.state t
  let (mutexes,kind) ← a.observe isMutex M.mutexes M.state s t
  return ⟨s,mutexes,M.trace ++ [⟨M.state.threadId t,kind⟩]⟩

def Op.monitor (M : Monitor) (t : ℕ) (op : Op) : Option Monitor :=
  (op.acts cfg).foldlM (fun M a => a.monitor cfg isMutex M t) M

def Op.monitors (M : Monitor) (ops : List (ℕ × Op)) : Option Monitor :=
  ops.foldlM (fun M op => op.2.monitor cfg isMutex M op.1) M

/-- The runs of the detector, with the trace of what was done. -/
inductive Reachable : Monitor → Prop
  | init {l : StackAndTls} {s : State} (h : Initialize cfg l = some s) : Reachable ⟨s,fun _ => .free,[]⟩
  | step {M M' : Monitor} {t : ℕ} {op : Op} (h : Reachable M) (hop : op.monitor cfg isMutex M t = some M') :
      Reachable M'

end Monitor

/-! ## What is observed -/

namespace RwMutex
variable {α : Type*} [DecidableEq α] {me : α} {m x : RwMutex α}

theorem lock_eq_some (h : m.lock me = some x) :
    m = free ∧ x = write me 0 ∨ ∃ depth, m = write me depth ∧ x = write me (depth + 1) := by
  cases m with
  | free =>
    cases h
    exact Or.inl ⟨rfl,rfl⟩
  | write owner depth =>
    simp only [lock] at h
    split_ifs at h with ho
    cases h
    subst ho
    exact Or.inr ⟨depth,rfl,rfl⟩
  | read holder holders => cases h

theorem unlock_eq_some (h : m.unlock me = some x) :
    m = write me 0 ∧ x = free ∨ ∃ depth, m = write me (depth + 1) ∧ x = write me depth := by
  cases m with
  | free | read holder holders => cases h
  | write owner depth =>
    cases depth with
    | zero =>
      simp only [unlock] at h
      split_ifs at h with ho
      cases h
      subst ho
      exact Or.inl ⟨rfl,rfl⟩
    | succ depth =>
      simp only [unlock] at h
      split_ifs at h with ho
      cases h
      subst ho
      exact Or.inr ⟨depth,rfl,rfl⟩

omit [DecidableEq α] in
theorem readLock_eq_some (h : m.readLock me = some x) : m.writer = none ∧ x.writer = none := by
  cases m with
  | free | read holder holders =>
    cases h
    exact ⟨rfl,rfl⟩
  | write owner depth => cases h

theorem readUnlock_eq_some (h : m.readUnlock me = some x) : m.writer = none ∧ x.writer = none := by
  cases m with
  | free | write owner depth => cases h
  | read holder holders =>
    simp only [readUnlock] at h
    split_ifs at h
    split at h
    · cases h
      exact ⟨rfl,rfl⟩
    · cases h
      exact ⟨rfl,rfl⟩

end RwMutex

/-- The relation that `Act.observe` computes. -/
inductive Act.Seen (isMutex : ℕ → Bool) (m : ℕ → RwMutex ThreadId) (s s' : State) (t : ℕ) :
    Act → (ℕ → RwMutex ThreadId) → Kind → Prop
  | access (addr sizeLog : ℕ) (isWrite : Bool) : Seen isMutex m s s' t (.access addr sizeLog isWrite) m
      (s'.accessKind t addr sizeLog isWrite)
  | writeLock (b : ℕ) (x : RwMutex ThreadId) (hb : isMutex b = true) (hx : (m b).lock (s.threadId t) = some x) :
      Seen isMutex m s s' t (.lock b) (Function.update m b x) (.writeLock b)
  | writeUnlock (a : Act) (b : ℕ) (x : RwMutex ThreadId) (ha : a = .unlock b ∨ a = .readOrWriteUnlock b)
      (hb : isMutex b = true) (hx : (m b).unlock (s.threadId t) = some x) :
      Seen isMutex m s s' t a (Function.update m b x) (.writeUnlock b)
  | readLock (b : ℕ) (x : RwMutex ThreadId) (hb : isMutex b = true) (hx : (m b).readLock (s.threadId t) = some x) :
      Seen isMutex m s s' t (.readLock b) (Function.update m b x) (.readLock b)
  | readUnlock (a : Act) (b : ℕ) (x : RwMutex ThreadId) (ha : a = .readUnlock b ∨ a = .readOrWriteUnlock b)
      (hb : isMutex b = true) (hx : (m b).readUnlock (s.threadId t) = some x) :
      Seen isMutex m s s' t a (Function.update m b x) (.readUnlock b)
  | acquire (b : ℕ) (hb : isMutex b = false) : Seen isMutex m s s' t (.acquire b) m (.acquire b)
  | release (b : ℕ) (hb : isMutex b = false) : Seen isMutex m s s' t (.release b) m (.release b)
  | releaseStore (b : ℕ) (hb : isMutex b = false) : Seen isMutex m s s' t (.releaseStore b) m (.releaseStore b)
  | create (detached : Bool) : Seen isMutex m s s' t (.create detached) m (.create (newTid s,s.unique_thread_seq))
  | start (l : StackAndTls) : Seen isMutex m s s' t (.start l) m .start
  | finish : Seen isMutex m s s' t .finish m .finish
  | join (tid : ℕ) : Seen isMutex m s s' t (.join tid) m (.join (s.threadId tid))
  | detach (tid : ℕ) : Seen isMutex m s s' t (.detach tid) m (.detach (s.threadId tid))

section
variable {isMutex : ℕ → Bool} {m m' : ℕ → RwMutex ThreadId} {b : ℕ} {k k' : Kind}

theorem useMutex_eq_some {f : RwMutex ThreadId → Option (RwMutex ThreadId)}
    (h : useMutex isMutex m b f k = some (m',k')) :
    isMutex b = true ∧ k' = k ∧ ∃ x, f (m b) = some x ∧ m' = Function.update m b x := by
  unfold useMutex at h
  split_ifs at h with hb
  simp only [Option.pure_def, Option.bind_eq_bind, Option.bind_eq_some_iff] at h
  obtain ⟨x,hx,h⟩ := h
  cases h
  exact ⟨hb,rfl,x,hx,rfl⟩

theorem useAtomic_eq_some (h : useAtomic isMutex m b k = some (m',k')) : isMutex b = false ∧ m' = m ∧ k' = k := by
  unfold useAtomic at h
  split_ifs at h with hb
  cases h
  exact ⟨by simpa using hb,rfl,rfl⟩

theorem Act.seen_of_observe {s s' : State} {t : ℕ} {a : Act} (h : a.observe isMutex m s s' t = some (m',k)) :
    a.Seen isMutex m s s' t m' k := by
  cases a with
  | access addr sizeLog isWrite =>
    cases h
    exact .access addr sizeLog isWrite
  | lock b =>
    obtain ⟨hb,rfl,x,hx,rfl⟩ := useMutex_eq_some h
    exact .writeLock b x hb hx
  | unlock b =>
    obtain ⟨hb,rfl,x,hx,rfl⟩ := useMutex_eq_some h
    exact .writeUnlock _ b x (Or.inl rfl) hb hx
  | readLock b =>
    obtain ⟨hb,rfl,x,hx,rfl⟩ := useMutex_eq_some h
    exact .readLock b x hb hx
  | readUnlock b =>
    obtain ⟨hb,rfl,x,hx,rfl⟩ := useMutex_eq_some h
    exact .readUnlock _ b x (Or.inl rfl) hb hx
  | readOrWriteUnlock b =>
    simp only [observe] at h
    split_ifs at h
    · obtain ⟨hb,rfl,x,hx,rfl⟩ := useMutex_eq_some h
      exact .readUnlock _ b x (Or.inr rfl) hb hx
    · obtain ⟨hb,rfl,x,hx,rfl⟩ := useMutex_eq_some h
      exact .writeUnlock _ b x (Or.inr rfl) hb hx
  | acquire b =>
    obtain ⟨hb,rfl,rfl⟩ := useAtomic_eq_some h
    exact .acquire b hb
  | acquireGlobal => cases h
  | release b =>
    obtain ⟨hb,rfl,rfl⟩ := useAtomic_eq_some h
    exact .release b hb
  | releaseStore b =>
    obtain ⟨hb,rfl,rfl⟩ := useAtomic_eq_some h
    exact .releaseStore b hb
  | create detached =>
    cases h
    exact .create detached
  | start l =>
    cases h
    exact .start l
  | finish =>
    cases h
    exact .finish
  | join tid =>
    cases h
    exact .join tid
  | detach tid =>
    cases h
    exact .detach tid

end

section
variable {cfg : Config} {isMutex : ℕ → Bool} {M M' : Monitor} {t : ℕ}

theorem Act.monitor_eq_some {a : Act} (h : a.monitor cfg isMutex M t = some M') :
    ∃ s m k, a.exec cfg M.state t = some s ∧ a.Seen isMutex M.mutexes M.state s t m k ∧
      M' = ⟨s,m,M.trace ++ [⟨M.state.threadId t,k⟩]⟩ := by
  simp only [Act.monitor, Option.pure_def, Option.bind_eq_bind, Option.bind_eq_some_iff] at h
  obtain ⟨s,hs,⟨m,k⟩,hm,h⟩ := h
  cases h
  exact ⟨s,m,k,hs,Act.seen_of_observe hm,rfl⟩

/-- The monitor only watches: the detector steps as it does alone. -/
theorem Op.step_of_monitor {op : Op} (h : op.monitor cfg isMutex M t = some M') :
    op.step cfg M.state t = some M'.state := by
  rw [step_eq_execs]
  unfold Op.monitor at h
  generalize op.acts cfg = acts at h
  induction acts generalizing M with
  | nil =>
    cases h
    rfl
  | cons a acts ih =>
    rw [List.foldlM_cons, Option.bind_eq_bind, Option.bind_eq_some_iff] at h
    obtain ⟨M₁,h₁,h⟩ := h
    obtain ⟨s,m,k,hs,-,rfl⟩ := Act.monitor_eq_some h₁
    rw [Act.execs, List.foldlM_cons, hs]
    exact ih h

theorem Op.monitor_induction {P : Monitor → Prop}
    (hact : ∀ M M' t a, P M → Act.monitor cfg isMutex M t a = some M' → P M') {op : Op} (hM : P M)
    (h : op.monitor cfg isMutex M t = some M') : P M' := by
  unfold Op.monitor at h
  generalize op.acts cfg = acts at h
  induction acts generalizing M with
  | nil =>
    cases h
    exact hM
  | cons a acts ih =>
    rw [List.foldlM_cons, Option.bind_eq_bind, Option.bind_eq_some_iff] at h
    obtain ⟨M₁,h₁,h⟩ := h
    exact ih (hact M M₁ t a hM h₁) h

/-- What every part of a step keeps, every run keeps. -/
theorem Reachable.parts {P : Monitor → Prop}
    (hinit : ∀ l s, Initialize cfg l = some s → P ⟨s,fun _ => .free,[]⟩)
    (hact : ∀ M M' t a, P M → Act.monitor cfg isMutex M t a = some M' → P M') (h : Reachable cfg isMutex M) : P M := by
  induction h with
  | init h => exact hinit _ _ h
  | step _ hop ih => exact Op.monitor_induction hact ih hop

theorem Reachable.ops (h : Reachable cfg isMutex M) {ops : List (ℕ × Op)}
    (hops : Op.monitors cfg isMutex M ops = some M') : Reachable cfg isMutex M' := by
  induction ops generalizing M with
  | nil =>
    cases hops
    exact h
  | cons op ops ih =>
    rw [Op.monitors, List.foldlM_cons, Option.bind_eq_bind, Option.bind_eq_some_iff] at hops
    obtain ⟨M₁,h₁,hops⟩ := hops
    exact ih (h.step h₁) hops

end
end CompilerRt.Tsan
