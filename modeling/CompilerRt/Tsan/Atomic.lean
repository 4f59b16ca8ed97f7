import CompilerRt.Tsan.Order

/-! # Atomics

`lib/tsan/rtl/tsan_interface_atomic.cc`: the operations of several threads on one atomic variable. An operation
is up to three steps: a release to the sync variable, the operation on the memory, and an acquire. Between
them other threads may take steps. A write carries, besides its value, the clock that its thread released.
-/
namespace CompilerRt.Tsan
open FastState VectorClock

inductive morder where
  | relaxed
  | consume
  | acquire
  | release
  | acq_rel
  | seq_cst
  deriving DecidableEq

def IsLoadOrder (mo : morder) : Bool := mo = .relaxed || mo = .consume || mo = .acquire || mo = .seq_cst
def IsStoreOrder (mo : morder) : Bool := mo = .relaxed || mo = .release || mo = .seq_cst
def IsReleaseOrder (mo : morder) : Bool := mo = .release || mo = .acq_rel || mo = .seq_cst
def IsAcquireOrder (mo : morder) : Bool := mo = .consume || mo = .acquire || mo = .acq_rel || mo = .seq_cst

/-- The operations on a variable of `n` bits. -/
inductive AtomicOp (n : ℕ) where
  | AtomicLoad (mo : morder)
  | AtomicStore (v : BitVec n) (mo : morder)
  | AtomicExchange (v : BitVec n) (mo : morder)
  | AtomicFetchAdd (v : BitVec n) (mo : morder)
  | AtomicFetchSub (v : BitVec n) (mo : morder)
  | AtomicFetchAnd (v : BitVec n) (mo : morder)
  | AtomicFetchOr (v : BitVec n) (mo : morder)
  | AtomicFetchXor (v : BitVec n) (mo : morder)
  | AtomicCAS (c v : BitVec n) (mo : morder)

namespace AtomicOp
variable {n : ℕ}

/-- The release with which the operation begins. The check is that of the memory order. -/
def first (s : State) (t a : ℕ) : AtomicOp n → Option State
  | AtomicLoad mo => if IsLoadOrder mo then some s else none
  | AtomicStore _ mo => if IsStoreOrder mo then if IsReleaseOrder mo then ReleaseStore s t a else some s else none
  | AtomicExchange _ mo | AtomicFetchAdd _ mo | AtomicFetchSub _ mo | AtomicFetchAnd _ mo | AtomicFetchOr _ mo
  | AtomicFetchXor _ mo | AtomicCAS _ _ mo => if IsReleaseOrder mo then Release s t a else some s

def releases : AtomicOp n → Bool
  | AtomicLoad _ => false
  | AtomicStore _ mo | AtomicExchange _ mo | AtomicFetchAdd _ mo | AtomicFetchSub _ mo | AtomicFetchAnd _ mo
  | AtomicFetchOr _ mo | AtomicFetchXor _ mo | AtomicCAS _ _ mo => IsReleaseOrder mo

/-- The operation begins with a `ReleaseStore`. -/
def stores : AtomicOp n → Bool
  | AtomicStore _ mo => IsReleaseOrder mo
  | _ => false

/-- The operation ends with an `Acquire`. -/
def acquires : AtomicOp n → Bool
  | AtomicStore .. => false
  | AtomicLoad mo | AtomicExchange _ mo | AtomicFetchAdd _ mo | AtomicFetchSub _ mo | AtomicFetchAnd _ mo
  | AtomicFetchOr _ mo | AtomicFetchXor _ mo | AtomicCAS _ _ mo => IsAcquireOrder mo

/-- What the operation writes when the variable holds `x`. -/
def write (x : BitVec n) : AtomicOp n → Option (BitVec n)
  | AtomicLoad _ => none
  | AtomicStore v _ | AtomicExchange v _ => some v
  | AtomicFetchAdd v _ => some (x + v)
  | AtomicFetchSub v _ => some (x - v)
  | AtomicFetchAnd v _ => some (x &&& v)
  | AtomicFetchOr v _ => some (x ||| v)
  | AtomicFetchXor v _ => some (x ^^^ v)
  | AtomicCAS c v _ => if x = c then some v else none

end AtomicOp

/-- The clock that a releasing operation had when it released, and whether a `ReleaseStore` by a thread with a
clock that is not as great has come since. -/
structure Released where
  clock : ThreadClock
  overwritten : Bool

def ThreadClock.le (c d : ThreadClock) : Bool := decide (∀ i < c.nclk_, c.clk_ i ≤ d.clk_ i)

theorem ThreadClock.le_iff (c d : ThreadClock) : c.le d = true ↔ c.clk_ ≤ d.clk_ := by
  rw [le, decide_eq_true_iff]
  refine ⟨fun h i => ?_,fun h i _ => h i⟩
  rcases Nat.lt_or_ge i c.nclk_ with hi | hi
  · exact h i hi
  · rw [c.clk_eq_zero i hi]
    exact Nat.zero_le _

def Released.overwrite (clock : ThreadClock) (r : Released) : Released :=
  { r with overwritten := r.overwritten || !r.clock.le clock }

/-- Where a thread is in an operation. -/
inductive Pc (n : ℕ) where
  | idle
  /-- The memory operation comes next; the release is that of the operation itself. -/
  | memory (op : AtomicOp n) (release : Option Released)
  /-- The acquire comes next; the release is that of the write whose value is returned. -/
  | acquire (v : BitVec n) (release : Option Released)

namespace Pc
variable {n : ℕ}

def release : Pc n → Option Released
  | idle => none
  | memory _ r | acquire _ r => r

def overwrite (clock : ThreadClock) : Pc n → Pc n
  | idle => idle
  | memory op r => memory op (r.map (·.overwrite clock))
  | acquire v r => acquire v (r.map (·.overwrite clock))

theorem release_overwrite (clock : ThreadClock) (pc : Pc n) :
    (pc.overwrite clock).release = pc.release.map (·.overwrite clock) := by
  cases pc <;> rfl

end Pc

/-- The detector, the variable, the release of the write whose value it holds, and the threads. -/
structure Atomic (n : ℕ) where
  state : State
  value : BitVec n
  release : Option Released
  pc : ℕ → Pc n

inductive AtomicStep (n : ℕ) where
  | begin (op : AtomicOp n)
  | memory
  | acquire
  | other (op : Op)

/-- The operation does not use the sync variable at the address. -/
def Op.avoids (a : ℕ) : Op → Bool
  | MutexLock b | MutexUnlock b | MutexReadLock b | MutexReadUnlock b | MutexReadOrWriteUnlock b
  | Acquire b | Release b | ReleaseStore b => b != a
  | _ => true

namespace Atomic
variable {n : ℕ} (cfg : Config) (a : ℕ) (G : Atomic n) (t : ℕ)

def overwrite (clock : ThreadClock) : Atomic n :=
  { G with release := G.release.map (·.overwrite clock), pc := fun u => (G.pc u).overwrite clock }

/-- One step of thread `t`; the variable is at address `a`. -/
def step : AtomicStep n → Option (Atomic n)
  | .begin op =>
    match G.pc t with
    | .idle => do
      let s ← op.first G.state t a
      let thr ← s.thr t
      let G := if op.stores then G.overwrite thr.clock else G
      return { G with
        state := s
        pc := Function.update G.pc t (.memory op (if op.releases then some ⟨thr.clock,false⟩ else none)) }
    | _ => none
  | .memory =>
    match G.pc t with
    | .memory op r =>
      let (value,release) := match op.write G.value with
        | some v => (v,r)
        | none => (G.value,G.release)
      some { G with
        value := value, release := release
        pc := Function.update G.pc t (if op.acquires then .acquire G.value G.release else .idle) }
    | _ => none
  | .acquire =>
    match G.pc t with
    | .acquire _ _ => do
      return { G with state := ← Acquire G.state t a, pc := Function.update G.pc t .idle }
    | _ => none
  | .other op =>
    match G.pc t with
    | .idle => if op.avoids a then do return { G with state := ← op.step cfg G.state t } else none
    | _ => none

def init (s : State) (x : BitVec n) : Atomic n := ⟨s,x,none,fun _ => .idle⟩

def runs (G : Atomic n) (steps : List (ℕ × AtomicStep n)) : Option (Atomic n) :=
  steps.foldlM (fun G st => G.step cfg a st.1 st.2) G

/-- The property holds of every step of the run. -/
def AllSteps (P : Atomic n → ℕ → AtomicStep n → Atomic n → Prop) : Atomic n → List (ℕ × AtomicStep n) → Prop
  | _, [] => True
  | G, (t,st) :: steps => ∀ G', G.step cfg a t st = some G' → P G t st G' ∧ AllSteps P G' steps

/-- If the step completes an operation that returns the value of a releasing write, its thread then knows what the
thread of that write knew. -/
def Synchronizes (G : Atomic n) (t : ℕ) (st : AtomicStep n) (G' : Atomic n) : Prop :=
  ∀ v r, st = .acquire → G.pc t = .acquire v (some r) →
    ∃ thr, G'.state.thr t = some thr ∧ ∀ u, r.clock.get u ≤ thr.clock.get u

/-- If the step completes such an operation, no `ReleaseStore` by a thread with a clock that is not as great has come
between the release and the step. -/
def Intact (G : Atomic n) (t : ℕ) (st : AtomicStep n) : Prop :=
  ∀ v r, st = .acquire → G.pc t = .acquire v (some r) → r.overwritten = false

/-! ## Releases are kept -/

/-- The release belongs to a write that is to come, is in the variable, or was read and is to be acquired. -/
def Live (r : Released) : Prop := G.release = some r ∨ ∃ u, (G.pc u).release = some r

/-- The sync variable knows of every release that was not overwritten. -/
structure Kept (c : Clocks ℕ Obj) : Prop where
  sim : Sim G.state c
  kept : ∀ r, G.Live r → r.overwritten = false → r.clock.clk_ ≤ c.obj (.clock a)

variable {cfg a G t} {G' : Atomic n} {c c' : Clocks ℕ Obj}

theorem live_overwrite {clock : ThreadClock} {r : Released} (h : (G.overwrite clock).Live r) :
    ∃ r₀, G.Live r₀ ∧ r = r₀.overwrite clock := by
  rcases h with h | ⟨u,h⟩
  · obtain ⟨r₀,h₀,rfl⟩ := Option.map_eq_some_iff.mp h
    exact ⟨r₀,Or.inl h₀,rfl⟩
  · change ((G.pc u).overwrite clock).release = some r at h
    rw [Pc.release_overwrite, Option.map_eq_some_iff] at h
    obtain ⟨r₀,h₀,rfl⟩ := h
    exact ⟨r₀,Or.inr ⟨u,h₀⟩,rfl⟩

/-- What is live when one thread moves on and the rest stays. -/
theorem live_update {s : State} {pc : Pc n} {r : Released}
    (h : ({ G with state := s, pc := Function.update G.pc t pc } : Atomic n).Live r) : G.Live r ∨ pc.release = some r := by
  rcases h with h | ⟨u,h⟩
  · exact Or.inl (Or.inl h)
  · rcases eq_or_ne u t with rfl | hu
    · exact Or.inr (by simpa using h)
    · exact Or.inl (Or.inr ⟨u,by simpa [hu] using h⟩)

/-- After a `ReleaseStore` the sync variable has the clock of the thread, and what it knew before it may have lost. -/
theorem Kept.overwrite {s : State} {clock : ThreadClock} (hsim : Sim s c')
    (hclock : c'.obj (.clock a) = clock.clk_) : ({ G.overwrite clock with state := s } : Atomic n).Kept a c' where
  sim := hsim
  kept r hr hno := by
    obtain ⟨r₀,-,rfl⟩ := live_overwrite (show (G.overwrite clock).Live r from hr)
    have hle : r₀.clock.le clock = true := by
      simpa [Released.overwrite] using (Bool.or_eq_false_iff.mp hno).2
    rw [hclock]
    exact (ThreadClock.le_iff _ _).mp hle

theorem Kept.mono (h : G.Kept a c) {s : State} (hsim : Sim s c') (hle : c.obj (.clock a) ≤ c'.obj (.clock a)) :
    ({ G with state := s } : Atomic n).Kept a c' where
  sim := hsim
  kept r hr hno := (h.kept r hr hno).trans hle

theorem Kept.update (h : G.Kept a c) {pc : Pc n}
    (hpc : ∀ r, pc.release = some r → G.Live r ∨ r.clock.clk_ ≤ c.obj (.clock a)) :
    ({ G with pc := Function.update G.pc t pc } : Atomic n).Kept a c where
  sim := h.sim
  kept r hr hno := by
    rcases live_update (s := G.state) hr with hr | hr
    · exact h.kept r hr hno
    · rcases hpc r hr with hr | hr
      · exact h.kept r hr hno
      · exact hr

/-- The release of an operation that begins. -/
theorem first_cases (hsim : Sim G.state c) {op : AtomicOp n} {s : State} (hs : op.first G.state t a = some s)
    {thr : ThreadState} (hthr : s.thr t = some thr) :
    ∃ c', Sim s c' ∧ (op.releases = true → thr.clock.clk_ ≤ c'.obj (.clock a)) ∧
      (op.stores = true → c'.obj (.clock a) = thr.clock.clk_) ∧
      (op.stores = false → c.obj (.clock a) ≤ c'.obj (.clock a)) := by
  have hsame : ∀ {b : Bool}, b = false → G.state = s → ∃ c', Sim s c' ∧
      (b = true → thr.clock.clk_ ≤ c'.obj (.clock a)) ∧ c.obj (.clock a) ≤ c'.obj (.clock a) := by
    rintro b rfl rfl
    exact ⟨c,hsim,fun hb => (by cases hb),le_rfl⟩
  have hrelease : Release G.state t a = some s → ∃ c', Sim s c' ∧ thr.clock.clk_ ≤ c'.obj (.clock a) ∧
      c.obj (.clock a) ≤ c'.obj (.clock a) := by
    intro hr
    obtain ⟨thr₀,hthr₀,rfl⟩ := Release_eq_some hr
    rw [State.thr_setSync, State.thr_setThr_self _ hthr₀, Option.some.injEq] at hthr
    refine ⟨_,hsim.exec_release hr,?_,?_⟩
    · rw [← hthr, hsim.setClock_eq hthr₀]
      simp [Act.actions, Action.apply]
    · simp [Act.actions, Action.apply]
  have hrmw : ∀ {mo : morder}, (if IsReleaseOrder mo then Release G.state t a else some G.state) = some s →
      ∃ c', Sim s c' ∧ (IsReleaseOrder mo = true → thr.clock.clk_ ≤ c'.obj (.clock a)) ∧
        c.obj (.clock a) ≤ c'.obj (.clock a) := by
    intro mo hmo
    split_ifs at hmo with hr
    · obtain ⟨c',h1,h2,h3⟩ := hrelease hmo
      exact ⟨c',h1,fun _ => h2,h3⟩
    · exact hsame (by simpa using hr) (Option.some.inj hmo)
  cases op with
  | AtomicLoad mo =>
    simp only [AtomicOp.first] at hs
    split_ifs at hs
    obtain ⟨c',h1,h2,h3⟩ := hsame (b := false) rfl (Option.some.inj hs)
    exact ⟨c',h1,h2,fun hst => (by cases hst),fun _ => h3⟩
  | AtomicStore v mo =>
    simp only [AtomicOp.first] at hs
    split_ifs at hs with hso hr
    · obtain ⟨thr₀,hthr₀,rfl⟩ := ReleaseStore_eq_some hs
      rw [State.thr_setSync, State.thr_setThr_self _ hthr₀, Option.some.injEq] at hthr
      have hclock : (run c (Act.actions G.state t (.releaseStore a))).obj (.clock a) = thr.clock.clk_ := by
        rw [← hthr, hsim.setClock_eq hthr₀]
        simp [Act.actions, Action.apply]
      exact ⟨_,hsim.exec_releaseStore hs,fun _ => hclock.ge,fun _ => hclock,fun hst => absurd (hr.symm.trans hst) (by decide)⟩
    · have hno : IsReleaseOrder mo = false := by simpa using hr
      obtain ⟨c',h1,h2,h3⟩ := hsame hno (Option.some.inj hs)
      exact ⟨c',h1,h2,fun hst => absurd hst hr,fun _ => h3⟩
  | AtomicExchange v mo | AtomicFetchAdd v mo | AtomicFetchSub v mo | AtomicFetchAnd v mo | AtomicFetchOr v mo
  | AtomicFetchXor v mo | AtomicCAS c v mo =>
    obtain ⟨c',h1,h2,h3⟩ := hrmw hs
    exact ⟨c',h1,h2,fun hst => (by cases hst),fun _ => h3⟩

/-- Operations that do not use the sync variable take nothing from it. -/
theorem Op.avoids_step {op : Op} (ha : op.avoids a = true) {s s' : State} (hsim : Sim s c)
    (he : op.step cfg s t = some s') : ∃ c', Sim s' c' ∧ c.obj (.clock a) ≤ c'.obj (.clock a) := by
  rw [step_eq_execs] at he
  have hacts : ∀ x ∈ op.acts cfg, x ≠ .releaseStore a ∧ ¬ (x = .unlock a ∨ x = .readOrWriteUnlock a) := by
    intro x hx
    cases op with
    | MutexLock b | MutexUnlock b | MutexReadLock b | MutexReadUnlock b | MutexReadOrWriteUnlock b =>
      rw [Op.acts] at hx
      have hne : b ≠ a := by simpa [Op.avoids] using ha
      rcases mem_onMutex hx with rfl | rfl <;> simp [hne]
    | Acquire b | Release b | ReleaseStore b =>
      have hne : b ≠ a := by simpa [Op.avoids] using ha
      rw [Op.acts, List.mem_singleton] at hx
      simp [hx, hne]
    | _ =>
      rw [Op.acts, List.mem_singleton] at hx
      simp [hx]
  generalize op.acts cfg = acts at he hacts
  induction acts generalizing s c with
  | nil =>
    cases he
    exact ⟨c,hsim,le_rfl⟩
  | cons x acts ih =>
    rw [Act.execs, List.foldlM_cons, Option.bind_eq_bind, Option.bind_eq_some_iff] at he
    obtain ⟨s₁,h₁,he⟩ := he
    obtain ⟨hst,hun⟩ := hacts x List.mem_cons_self
    obtain ⟨c',hc',hle⟩ := ih (hsim.exec h₁) he fun y hy => hacts y (List.mem_cons_of_mem x hy)
    exact ⟨c',hc',le_trans (Act.clock_le hst fun h _ => hun h) hle⟩

theorem Kept.step (h : G.Kept a c) {st : AtomicStep n} (hst : G.step cfg a t st = some G') : ∃ c', G'.Kept a c' := by
  cases st with
  | begin op =>
    simp only [Atomic.step] at hst
    split at hst
    · simp only [Option.pure_def, Option.bind_eq_bind, Option.bind_eq_some_iff] at hst
      obtain ⟨s,hs,thr,hthr,hst⟩ := hst
      cases hst
      obtain ⟨c',hsim,hrel,hstore,hkeep⟩ := first_cases h.sim hs hthr
      have hnew : ∀ r : Released, (if op.releases then some ⟨thr.clock,false⟩ else none) = some r →
          r.clock.clk_ ≤ c'.obj (.clock a) := by
        intro r hr
        split_ifs at hr with hop
        cases hr
        exact hrel hop
      by_cases hop : op.stores = true
      · rw [if_pos hop]
        exact ⟨c',(Kept.overwrite (G := G) hsim (hstore hop)).update fun r hr => Or.inr (hnew r hr)⟩
      · rw [if_neg hop]
        exact ⟨c',(h.mono hsim (hkeep (by simpa using hop))).update fun r hr => Or.inr (hnew r hr)⟩
    · cases hst
  | memory =>
    simp only [Atomic.step] at hst
    split at hst
    · next op r hpc =>
      have hvar : ∀ r', (match op.write G.value with
          | some v => (v,r)
          | none => (G.value,G.release)).2 = some r' → G.Live r' := by
        intro r' hr'
        split at hr'
        · exact Or.inr ⟨t,by rw [hpc]; exact hr'⟩
        · exact Or.inl hr'
      cases hst
      refine ⟨c,h.sim,fun r' hr' hno => h.kept r' ?_ hno⟩
      rcases hr' with hr' | ⟨u,hr'⟩
      · exact hvar r' hr'
      · rcases eq_or_ne u t with rfl | hu
        · dsimp only at hr'
          rw [Function.update_self] at hr'
          split_ifs at hr'
          · exact Or.inl hr'
          · cases hr'
        · dsimp only at hr'
          rw [Function.update_of_ne hu] at hr'
          exact Or.inr ⟨u,hr'⟩
    · cases hst
  | acquire =>
    simp only [Atomic.step] at hst
    split at hst
    · simp only [Option.pure_def, Option.bind_eq_bind, Option.bind_eq_some_iff] at hst
      obtain ⟨s,hs,hst⟩ := hst
      cases hst
      have hle : c.obj (.clock a) ≤ (run c (Act.actions G.state t (.acquire a))).obj (.clock a) := le_rfl
      exact ⟨_,(h.mono (h.sim.exec_acquire hs) hle).update fun r hr => by cases hr⟩
    · cases hst
  | other op =>
    simp only [Atomic.step] at hst
    split at hst
    · split_ifs at hst with ha
      simp only [Option.pure_def, Option.bind_eq_bind, Option.bind_eq_some_iff] at hst
      obtain ⟨s,hs,hst⟩ := hst
      cases hst
      obtain ⟨c',hsim,hle⟩ := Op.avoids_step ha h.sim hs
      exact ⟨c',h.mono hsim hle⟩
    · cases hst

theorem Kept.synchronizes (h : G.Kept a c) {st : AtomicStep n} (hst : G.step cfg a t st = some G')
    (hi : G.Intact t st) : G.Synchronizes t st G' := by
  rintro v r rfl hpc
  have hno := hi v r rfl hpc
  simp only [Atomic.step, hpc, Option.pure_def, Option.bind_eq_bind, Option.bind_eq_some_iff] at hst
  obtain ⟨s,hs,hst⟩ := hst
  cases hst
  obtain ⟨thr,hthr,rfl⟩ := Acquire_eq_some hs
  refine ⟨_,State.thr_setThr_self _ hthr,fun u => ?_⟩
  have hlive : G.Live r := Or.inr ⟨t,by rw [hpc]; rfl⟩
  have hle := h.kept r hlive hno u
  rw [← h.sim.clock] at hle
  change r.clock.clk_ u ≤ (thr.setClock.clock.acquire _).clk_ u
  rw [ThreadClock.clk_acquire]
  exact le_sup_of_le_right hle

theorem Kept.allSteps (h : G.Kept a c) (steps : List (ℕ × AtomicStep n)) :
    AllSteps cfg a (fun G t st G' => G.Intact t st → G.Synchronizes t st G') G steps := by
  induction steps generalizing G c with
  | nil => trivial
  | cons st steps ih =>
    intro G' hst
    obtain ⟨c',hc'⟩ := h.step hst
    exact ⟨h.synchronizes hst,ih hc'⟩

theorem AllSteps.last {P : Atomic n → ℕ → AtomicStep n → Atomic n → Prop} {steps : List (ℕ × AtomicStep n)}
    {st : AtomicStep n} {G₁ : Atomic n} (h : AllSteps cfg a P G (steps ++ [(t,st)])) (hrun : runs cfg a G steps = some G₁)
    (hst : G₁.step cfg a t st = some G') : P G₁ t st G' := by
  induction steps generalizing G with
  | nil =>
    cases hrun
    exact (h G' hst).1
  | cons x steps ih =>
    rw [runs, List.foldlM_cons, Option.bind_eq_bind, Option.bind_eq_some_iff] at hrun
    obtain ⟨G₂,h₂,hrun⟩ := hrun
    exact ih (h G₂ h₂).2 hrun

/-- Two threads release to the variable before either writes to it, and the value of the first is read. -/
def twoStores : List (ℕ × AtomicStep 32) :=
  [(0,.other (.ThreadCreate false)),(0,.other (.ThreadCreate false)),(1,.other (.ThreadStart ⟨0,0,0,0,0,0⟩)),
    (2,.other (.ThreadStart ⟨0,0,0,0,0,0⟩)),(1,.begin (.AtomicStore 1 .release)),(2,.begin (.AtomicStore 2 .release)),
    (2,.memory),(1,.memory),(0,.begin (.AtomicLoad .acquire)),(0,.memory)]

/-- The first thread, and the release whose value is read, if the reader does not know its own time in the end. -/
def lostRelease (cfg : Config) : Option (State × Atomic 32 × Atomic 32 × BitVec 32 × Released × ThreadState) := do
  let s ← Initialize cfg ⟨0,0,0,0,0,0⟩
  let G ← runs cfg 64 (init s 0) twoStores
  let G' ← G.step cfg 64 0 .acquire
  let thr ← G'.state.thr 0
  match G.pc 0 with
  | .acquire v (some r) => if thr.clock.get 1 < r.clock.get 1 then some (s,G,G',v,r,thr) else none
  | _ => none

theorem lostRelease_isSome : (lostRelease fourSlots).isSome = true := by decide +kernel

end Atomic
end CompilerRt.Tsan
