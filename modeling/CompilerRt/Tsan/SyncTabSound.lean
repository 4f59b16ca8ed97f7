import CompilerRt.Tsan.SyncTab

/-! # Uniqueness and removal in the table of sync variables

Beside a reachable state stand the lists of the variables that are linked in each part. The locks are held by the
threads whose place says so, and what a thread in a loop knows of its part stays true while it holds the lock.
-/
namespace CompilerRt.Tsan.SyncTab

/-- The lock of a part that is held at a place. -/
def Pc.part : Pc → Option (ℕ × Bool)
  | firstRead addr _ | find addr _ _ | lockFound addr _ _ | partReadUnlock addr _ _ => some (PartIdx addr,false)
  | secondRead addr _ | findAgain addr _ _ | create addr _ | linkNext addr _ _ | linkVal addr _ _ | lockAgain addr _ _
  | partUnlock addr _ _ | removeRead addr | remove addr _ _ | unlink addr _ _ | removeUnlock addr _ =>
    some (PartIdx addr,true)
  | idle | partReadLock _ _ | partLock _ _ | removeLock _ | varLock _ _ | varUnlock _ _ => none

/-- The lock of a variable that the call itself holds at a place. -/
def Pc.var : Pc → Option (Ref × Bool)
  | partReadUnlock _ w (some res) | partUnlock _ w res => some (res,w)
  | varUnlock _ res => some (res,true)
  | _ => none

/-- The variable that the call has made and not linked yet, or taken out and not returned yet. -/
def Pc.outside : Pc → Option Ref
  | linkNext _ _ res | linkVal _ _ res | removeUnlock _ (some res) | varLock _ res | varUnlock _ res => some res
  | _ => none

/-- How often the thread holds the lock of a part. -/
def Pc.partHolds (p : Pc) (i : ℕ) (w : Bool) : ℕ := if p.part = some (i,w) then 1 else 0

/-- How often the thread holds the lock of a variable. -/
def Local.varHolds (x : Local) (r : Ref) (w : Bool) : ℕ :=
  x.held.count (r,w) + if x.pc.var = some (r,w) then 1 else 0

section Know
variable {Thread : Type*}

/-- The fields of a variable that the lists are made of. -/
def Table.node (s : Table Thread) (r : Ref) : ℕ × Option Ref := ((s.vars r).addr,(s.vars r).next)

/-- What a thread knows at a place, of the variables `chain i` that are linked in part `i`. -/
def Knows (s : Table Thread) (chain : ℕ → List Ref) : Pc → Prop
  | .find addr _ res => ∃ l₁ l₂, chain (PartIdx addr) = l₁ ++ l₂ ∧ LinkedQueue.Links (fun r => (s.vars r).next) res l₂
  | .findAgain addr _ res => ∃ l₁ l₂, chain (PartIdx addr) = l₁ ++ l₂ ∧
      LinkedQueue.Links (fun r => (s.vars r).next) res l₂ ∧ ∀ x ∈ l₁, (s.vars x).addr ≠ addr
  | .lockFound addr _ res | .partReadUnlock addr _ (some res) | .lockAgain addr _ res | .partUnlock addr _ res =>
    res ∈ chain (PartIdx addr) ∧ (s.vars res).addr = addr
  | .create addr _ => ∀ x ∈ chain (PartIdx addr), (s.vars x).addr ≠ addr
  | .linkNext addr _ res => (s.vars res).addr = addr ∧ ∀ x ∈ chain (PartIdx addr), (s.vars x).addr ≠ addr
  | .linkVal addr _ res => (s.vars res).addr = addr ∧ (s.vars res).next = (s.tab_ (PartIdx addr)).val ∧
      ∀ x ∈ chain (PartIdx addr), (s.vars x).addr ≠ addr
  | .remove addr prev res => ∃ l₁ l₂, chain (PartIdx addr) = l₁ ++ l₂ ∧
      LinkedQueue.Links (fun r => (s.vars r).next) res l₂ ∧ l₁.getLast? = prev
  | .unlink addr prev res => ∃ l₁ l₂, chain (PartIdx addr) = l₁ ++ res :: l₂ ∧ l₁.getLast? = prev
  | _ => True

variable {s s' : Table Thread} {chain chain' : ℕ → List Ref} {p : Pc}

/-- What a thread knows only depends on the part that it has locked and on the variable outside. -/
theorem Knows.congr (h : Knows s chain p)
    (hpart : ∀ i w, p.part = some (i,w) → chain' i = chain i ∧ (s'.tab_ i).val = (s.tab_ i).val ∧
      ∀ r ∈ chain i, s'.node r = s.node r)
    (hout : ∀ r, p.outside = some r → s'.node r = s.node r) : Knows s' chain' p := by
  have haddr : ∀ {r}, s'.node r = s.node r → (s'.vars r).addr = (s.vars r).addr := fun h => congrArg Prod.fst h
  have hnext : ∀ {r}, s'.node r = s.node r → (s'.vars r).next = (s.vars r).next := fun h => congrArg Prod.snd h
  have hlinks : ∀ {i w l₁ l₂ q}, p.part = some (i,w) → chain i = l₁ ++ l₂ →
      LinkedQueue.Links (fun r => (s.vars r).next) q l₂ → LinkedQueue.Links (fun r => (s'.vars r).next) q l₂ := by
    intro i w l₁ l₂ q hp hl hlk
    exact hlk.congr fun x hx => hnext ((hpart i w hp).2.2 x (by simp [hl, hx]))
  cases p with
  | find addr w res =>
    obtain ⟨l₁,l₂,hl,hlk⟩ := h
    exact ⟨l₁,l₂,(hpart _ _ rfl).1.trans hl,hlinks rfl hl hlk⟩
  | findAgain addr w res =>
    obtain ⟨l₁,l₂,hl,hlk,hne⟩ := h
    refine ⟨l₁,l₂,(hpart _ _ rfl).1.trans hl,hlinks rfl hl hlk,fun x hx => ?_⟩
    rw [haddr ((hpart _ _ rfl).2.2 x (by simp [hl, hx]))]
    exact hne x hx
  | lockFound addr w res | lockAgain addr w res | partUnlock addr w res =>
    obtain ⟨hmem,ha⟩ := h
    refine ⟨?_,(haddr ((hpart _ _ rfl).2.2 res hmem)).trans ha⟩
    rw [(hpart _ _ rfl).1]
    exact hmem
  | partReadUnlock addr w res =>
    cases res with
    | none => trivial
    | some res =>
      obtain ⟨hmem,ha⟩ := h
      refine ⟨?_,(haddr ((hpart _ _ rfl).2.2 res hmem)).trans ha⟩
      rw [(hpart _ _ rfl).1]
      exact hmem
  | create addr w =>
    intro x hx
    rw [(hpart _ _ rfl).1] at hx
    rw [haddr ((hpart _ _ rfl).2.2 x hx)]
    exact h x hx
  | linkNext addr w res =>
    refine ⟨(haddr (hout res rfl)).trans h.1,fun x hx => ?_⟩
    rw [(hpart _ _ rfl).1] at hx
    rw [haddr ((hpart _ _ rfl).2.2 x hx)]
    exact h.2 x hx
  | linkVal addr w res =>
    refine ⟨(haddr (hout res rfl)).trans h.1,?_,fun x hx => ?_⟩
    · rw [hnext (hout res rfl), (hpart _ _ rfl).2.1]
      exact h.2.1
    · rw [(hpart _ _ rfl).1] at hx
      rw [haddr ((hpart _ _ rfl).2.2 x hx)]
      exact h.2.2 x hx
  | remove addr prev res =>
    obtain ⟨l₁,l₂,hl,hlk,hprev⟩ := h
    exact ⟨l₁,l₂,(hpart _ _ rfl).1.trans hl,hlinks rfl hl hlk,hprev⟩
  | unlink addr prev res =>
    obtain ⟨l₁,l₂,hl,hprev⟩ := h
    exact ⟨l₁,l₂,(hpart _ _ rfl).1.trans hl,hprev⟩
  | _ => trivial

/-- Locks and flags do not matter. -/
theorem Knows.of_nodes (h : Knows s chain p) (hval : ∀ i, (s'.tab_ i).val = (s.tab_ i).val)
    (hnode : ∀ r, s'.node r = s.node r) : Knows s' chain p :=
  h.congr (fun i _ _ => ⟨rfl,hval i,fun r _ => hnode r⟩) fun r _ => hnode r

end Know

section Sound
variable {Thread : Type*} [DecidableEq Thread]

/-- The variables of `chain i` are those that are linked in part `i`. -/
structure Chains (s : Table Thread) (chain : ℕ → List Ref) : Prop where
  links : ∀ i, LinkedQueue.Links (fun r => (s.vars r).next) (s.tab_ i).val (chain i)
  part : ∀ i, ∀ r ∈ chain i, PartIdx (s.vars r).addr = i
  allocated : ∀ i, ∀ r ∈ chain i, r < s.allocated
  nodup : ∀ i, ((chain i).map fun r => (s.vars r).addr).Nodup

/-- The locks are held by those who say so. -/
structure Locks (s : Table Thread) (threads : Thread → Local) : Prop where
  partValid : ∀ i, (s.tab_ i).mtx.Valid
  varValid : ∀ r, (s.vars r).mtx.Valid
  partHolds : ∀ i t w, (s.tab_ i).mtx.holds t w = (threads t).pc.partHolds i w
  varHolds : ∀ r t w, (s.vars r).mtx.holds t w = (threads t).varHolds r w

/-- Who has a variable that is not linked. -/
structure Outside (s : Table Thread) (threads : Thread → Local) (chain : ℕ → List Ref) : Prop where
  allocated : ∀ t r, (threads t).pc.outside = some r → r < s.allocated
  notMem : ∀ t r, (threads t).pc.outside = some r → ∀ i, r ∉ chain i
  unique : ∀ t u r, (threads t).pc.outside = some r → (threads u).pc.outside = some r → t = u
  fresh : ∀ t w r, s.allocated ≤ r → (threads t).varHolds r w = 0
  removed_allocated : ∀ t, ∀ r ∈ (threads t).removed, r < s.allocated
  removed_notMem : ∀ t, ∀ r ∈ (threads t).removed, ∀ i, r ∉ chain i
  removed_outside : ∀ t, ∀ r ∈ (threads t).removed, ∀ u, (threads u).pc.outside ≠ some r
  removed_free : ∀ t, ∀ r ∈ (threads t).removed, ∀ u w, (threads u).varHolds r w = 0

structure Sound (c : Config Thread) (chain : ℕ → List Ref) : Prop where
  chains : Chains c.shared chain
  locks : Locks c.shared c.threads
  outside : Outside c.shared c.threads chain
  knows : ∀ t, Knows c.shared chain (c.threads t).pc

/-! ## Locks -/

/-- The lists are the same, and so is what is allocated. -/
structure SameLists (s s' : Table Thread) : Prop where
  val : ∀ i, (s'.tab_ i).val = (s.tab_ i).val
  node : ∀ r, s'.node r = s.node r
  allocated : s'.allocated = s.allocated

variable {s s' : Table Thread} {T : Thread → Local} {x' : Local} {chain : ℕ → List Ref} {t : Thread} {i : ℕ} {r : Ref}
  {w : Bool}

omit [DecidableEq Thread] in
theorem SameLists.refl (s : Table Thread) : SameLists s s := ⟨fun _ => rfl,fun _ => rfl,rfl⟩

omit [DecidableEq Thread] in
theorem Chains.same (h : Chains s chain) (hs : SameLists s s') : Chains s' chain := by
  have haddr : ∀ r, (s'.vars r).addr = (s.vars r).addr := fun r => congrArg Prod.fst (hs.node r)
  have hnext : (fun r => (s'.vars r).next) = fun r => (s.vars r).next := funext fun r => congrArg Prod.snd (hs.node r)
  constructor
  · intro i
    rw [hnext, hs.val]
    exact h.links i
  · intro i r hr
    rw [haddr]
    exact h.part i r hr
  · intro i r hr
    rw [hs.allocated]
    exact h.allocated i r hr
  · intro i
    simp only [haddr]
    exact h.nodup i

/-- What a step does to the locks: mover `t` holds one more or one less, and the others what they held. -/
theorem Locks.move (h : Locks s T) (hpv : ∀ i, (s'.tab_ i).mtx.Valid) (hvv : ∀ r, (s'.vars r).mtx.Valid)
    (hpart : ∀ i w, (s'.tab_ i).mtx.holds t w = x'.pc.partHolds i w)
    (hpartOther : ∀ u, u ≠ t → ∀ i w, (s'.tab_ i).mtx.holds u w = (s.tab_ i).mtx.holds u w)
    (hvar : ∀ r w, (s'.vars r).mtx.holds t w = x'.varHolds r w)
    (hvarOther : ∀ u, u ≠ t → ∀ r w, (s'.vars r).mtx.holds u w = (s.vars r).mtx.holds u w) :
    Locks s' (Function.update T t x') where
  partValid := hpv
  varValid := hvv
  partHolds i u w := by
    rcases eq_or_ne u t with rfl | hu
    · rw [Function.update_self]
      exact hpart i w
    · rw [Function.update_of_ne hu, hpartOther u hu]
      exact h.partHolds i u w
  varHolds r u w := by
    rcases eq_or_ne u t with rfl | hu
    · rw [Function.update_self]
      exact hvar r w
    · rw [Function.update_of_ne hu, hvarOther u hu]
      exact h.varHolds r u w

/-- A step that leaves all locks alone. -/
theorem Locks.stay (h : Locks s T) (hp : ∀ i, (s'.tab_ i).mtx = (s.tab_ i).mtx) (hv : ∀ r, (s'.vars r).mtx = (s.vars r).mtx)
    (hpart : x'.pc.part = (T t).pc.part) (hvar : ∀ r w, x'.varHolds r w = (T t).varHolds r w) :
    Locks s' (Function.update T t x') := by
  refine h.move (fun i => ?_) (fun r => ?_) (fun i w => ?_) (fun u _ i w => ?_) (fun r w => ?_) fun u _ r w => ?_
  · rw [hp]
    exact h.partValid i
  · rw [hv]
    exact h.varValid r
  · rw [hp, h.partHolds, Pc.partHolds, Pc.partHolds, hpart]
  · rw [hp]
  · rw [hv, h.varHolds, hvar]
  · rw [hv]

theorem Locks.acquirePart (h : Locks s T) (he : s.acquirePart t i w = some s')
    (hpart : (T t).pc.part = none ∧ x'.pc.part = some (i,w)) (hvar : ∀ r w, x'.varHolds r w = (T t).varHolds r w) :
    Locks s' (Function.update T t x') ∧ SameLists s s' := by
  simp only [Table.acquirePart, Option.pure_def, Option.bind_eq_bind, Option.bind_eq_some_iff] at he
  obtain ⟨l,hl,he⟩ := he
  cases he
  have htab : ∀ j u v, ((s.setPart i { s.tab_ i with mtx := l }).tab_ j).mtx.holds u v =
      (s.tab_ j).mtx.holds u v + if u = t ∧ j = i ∧ v = w then 1 else 0 := by
    intro j u v
    rcases eq_or_ne j i with rfl | hj
    · simp [Table.setPart, RwLock.acquire_holds hl]
    · simp [Table.setPart, hj]
  constructor
  · refine h.move (fun j => ?_) h.varValid (fun j v => ?_) (fun u hu j v => ?_) (fun r v => ?_) fun u _ r v => rfl
    · rcases eq_or_ne j i with rfl | hj
      · simpa [Table.setPart] using RwLock.Valid.acquire hl
      · simpa [Table.setPart, hj] using h.partValid j
    · rw [htab, h.partHolds, Pc.partHolds, Pc.partHolds, hpart.1, hpart.2]
      simp [eq_comm]
    · simp [htab, hu]
    · rw [hvar]
      exact h.varHolds r t v
  · refine ⟨fun j => ?_,fun r => rfl,rfl⟩
    rcases eq_or_ne j i with rfl | hj
    · simp [Table.setPart]
    · simp [Table.setPart, hj]

theorem Locks.releasePart (h : Locks s T) (he : s.releasePart t i w = some s')
    (hpart : (T t).pc.part = some (i,w) ∧ x'.pc.part = none) (hvar : ∀ r w, x'.varHolds r w = (T t).varHolds r w) :
    Locks s' (Function.update T t x') ∧ SameLists s s' := by
  simp only [Table.releasePart, Option.pure_def, Option.bind_eq_bind, Option.bind_eq_some_iff] at he
  obtain ⟨l,hl,he⟩ := he
  cases he
  have htab : ∀ j u v, (s.tab_ j).mtx.holds u v =
      ((s.setPart i { s.tab_ i with mtx := l }).tab_ j).mtx.holds u v + if u = t ∧ j = i ∧ v = w then 1 else 0 := by
    intro j u v
    rcases eq_or_ne j i with rfl | hj
    · simp [Table.setPart, RwLock.release_holds hl]
    · simp [Table.setPart, hj]
  constructor
  · refine h.move (fun j => ?_) h.varValid (fun j v => ?_) (fun u hu j v => ?_) (fun r v => ?_) fun u _ r v => rfl
    · rcases eq_or_ne j i with rfl | hj
      · simpa [Table.setPart] using (h.partValid j).release hl
      · simpa [Table.setPart, hj] using h.partValid j
    · have hold := htab j t v
      rw [h.partHolds, Pc.partHolds, hpart.1] at hold
      rw [Pc.partHolds, hpart.2]
      simp only [Option.some.injEq, Prod.mk.injEq, true_and, eq_comm] at hold
      simp only [reduceCtorEq, ↓reduceIte]
      split_ifs at hold <;> omega
    · simp [htab, hu]
    · rw [hvar]
      exact h.varHolds r t v
  · refine ⟨fun j => ?_,fun r => rfl,rfl⟩
    rcases eq_or_ne j i with rfl | hj
    · simp [Table.setPart]
    · simp [Table.setPart, hj]

omit [DecidableEq Thread] in
/-- A variable in which only the lock changes. -/
theorem sameLists_setVar (l : RwLock Thread) (r : Ref) : SameLists s (s.setVar r { s.vars r with mtx := l }) := by
  refine ⟨fun i => rfl,fun q => ?_,rfl⟩
  rcases eq_or_ne q r with rfl | hq
  · simp [Table.setVar, Table.node]
  · simp [Table.setVar, Table.node, hq]

theorem Locks.acquireVar (h : Locks s T) (he : s.acquireVar t r w = some s') (hpart : x'.pc.part = (T t).pc.part)
    (hvar : ∀ q v, x'.varHolds q v = (T t).varHolds q v + if q = r ∧ v = w then 1 else 0) :
    Locks s' (Function.update T t x') ∧ SameLists s s' := by
  simp only [Table.acquireVar, Option.pure_def, Option.bind_eq_bind, Option.bind_eq_some_iff] at he
  obtain ⟨l,hl,he⟩ := he
  cases he
  have hvars : ∀ q u v, ((s.setVar r { s.vars r with mtx := l }).vars q).mtx.holds u v =
      (s.vars q).mtx.holds u v + if u = t ∧ q = r ∧ v = w then 1 else 0 := by
    intro q u v
    rcases eq_or_ne q r with rfl | hq
    · simp [Table.setVar, RwLock.acquire_holds hl]
    · simp [Table.setVar, hq]
  refine ⟨h.move h.partValid (fun q => ?_) (fun j v => ?_) (fun u _ j v => rfl) (fun q v => ?_) fun u hu q v => ?_,
    sameLists_setVar l r⟩
  · rcases eq_or_ne q r with rfl | hq
    · simpa [Table.setVar] using RwLock.Valid.acquire hl
    · simpa [Table.setVar, hq] using h.varValid q
  · rw [Pc.partHolds, hpart]
    exact h.partHolds j t v
  · rw [hvars, h.varHolds, hvar]
    simp
  · simp [hvars, hu]

theorem Locks.releaseVar (h : Locks s T) (x' : Local) (he : s.releaseVar t r w = some s') (hpart : x'.pc.part = (T t).pc.part)
    (hvar : ∀ q v, (T t).varHolds q v = x'.varHolds q v + if q = r ∧ v = w then 1 else 0) :
    Locks s' (Function.update T t x') ∧ SameLists s s' := by
  simp only [Table.releaseVar, Option.pure_def, Option.bind_eq_bind, Option.bind_eq_some_iff] at he
  obtain ⟨l,hl,he⟩ := he
  cases he
  have hvars : ∀ q u v, (s.vars q).mtx.holds u v =
      ((s.setVar r { s.vars r with mtx := l }).vars q).mtx.holds u v + if u = t ∧ q = r ∧ v = w then 1 else 0 := by
    intro q u v
    rcases eq_or_ne q r with rfl | hq
    · simp [Table.setVar, RwLock.release_holds hl]
    · simp [Table.setVar, hq]
  refine ⟨h.move h.partValid (fun q => ?_) (fun j v => ?_) (fun u _ j v => rfl) (fun q v => ?_) fun u hu q v => ?_,
    sameLists_setVar l r⟩
  · rcases eq_or_ne q r with rfl | hq
    · simpa [Table.setVar] using (h.varValid q).release hl
    · simpa [Table.setVar, hq] using h.varValid q
  · rw [Pc.partHolds, hpart]
    exact h.partHolds j t v
  · have hold := hvars q t v
    rw [h.varHolds, hvar] at hold
    simp only [true_and] at hold
    omega
  · simp [hvars, hu]

/-! ## Steps that leave the lists alone -/

/-- What the mover has outside does not grow, and what it gets locked was not removed. -/
theorem Outside.move (h : Outside s T chain) (hall : s'.allocated = s.allocated)
    (hout : ∀ r, x'.pc.outside = some r → (T t).pc.outside = some r)
    (hheld : ∀ r w, 0 < x'.varHolds r w → 0 < (T t).varHolds r w ∨ r < s.allocated ∧ ∀ u, r ∉ (T u).removed)
    (hrem : x'.removed = (T t).removed) : Outside s' (Function.update T t x') chain := by
  have hout' : ∀ u r, (Function.update T t x' u).pc.outside = some r → (T u).pc.outside = some r := by
    intro u r hr
    rcases eq_or_ne u t with rfl | hu
    · rw [Function.update_self] at hr
      exact hout r hr
    · rwa [Function.update_of_ne hu] at hr
  have hrem' : ∀ u, (Function.update T t x' u).removed = (T u).removed := by
    intro u
    rcases eq_or_ne u t with rfl | hu
    · rw [Function.update_self]
      exact hrem
    · rw [Function.update_of_ne hu]
  have hheld' : ∀ u r w, 0 < (Function.update T t x' u).varHolds r w →
      0 < (T u).varHolds r w ∨ r < s.allocated ∧ ∀ v, r ∉ (T v).removed := by
    intro u r w hr
    rcases eq_or_ne u t with rfl | hu
    · rw [Function.update_self] at hr
      exact hheld r w hr
    · rw [Function.update_of_ne hu] at hr
      exact Or.inl hr
  constructor
  · intro u r hr
    rw [hall]
    exact h.allocated u r (hout' u r hr)
  · intro u r hr
    exact h.notMem u r (hout' u r hr)
  · intro u v r hu hv
    exact h.unique u v r (hout' u r hu) (hout' v r hv)
  · intro u w r hr
    rw [hall] at hr
    by_contra hne
    rcases hheld' u r w (Nat.pos_of_ne_zero hne) with hpos | ⟨hlt,-⟩
    · exact hpos.ne' (h.fresh u w r hr)
    · exact Nat.not_lt.mpr hr hlt
  · intro u r hr
    rw [hrem'] at hr
    rw [hall]
    exact h.removed_allocated u r hr
  · intro u r hr
    rw [hrem'] at hr
    exact h.removed_notMem u r hr
  · intro u r hr v hv
    rw [hrem'] at hr
    exact h.removed_outside u r hr v (hout' v r hv)
  · intro u r hr v w
    rw [hrem'] at hr
    by_contra hne
    rcases hheld' v r w (Nat.pos_of_ne_zero hne) with hpos | ⟨-,hnot⟩
    · exact hpos.ne' (h.removed_free u r hr v w)
    · exact hnot u hr

/-- The threads know what they knew, the mover what it has found out. -/
theorem knows_move (hs : SameLists s s') (hk : ∀ u, Knows s chain (T u).pc) (hx : Knows s chain x'.pc) (u : Thread) :
    Knows s' chain (Function.update T t x' u).pc := by
  rcases eq_or_ne u t with rfl | hu
  · rw [Function.update_self]
    exact hx.of_nodes hs.val hs.node
  · rw [Function.update_of_ne hu]
    exact (hk u).of_nodes hs.val hs.node

/-- A step that changes locks at most. -/
theorem Sound.lock (h : Sound ⟨s,T⟩ chain) (hl : Locks s' (Function.update T t x') ∧ SameLists s s')
    (hout : ∀ r, x'.pc.outside = some r → (T t).pc.outside = some r)
    (hheld : ∀ r w, 0 < x'.varHolds r w → 0 < (T t).varHolds r w ∨ r < s.allocated ∧ ∀ u, r ∉ (T u).removed)
    (hrem : x'.removed = (T t).removed) (hx : Knows s chain x'.pc) : Sound ⟨s',Function.update T t x'⟩ chain where
  chains := h.chains.same hl.2
  locks := hl.1
  outside := h.outside.move hl.2.allocated hout hheld hrem
  knows := knows_move hl.2 h.knows hx

/-- A step that changes the thread's place only. -/
theorem Sound.place (h : Sound ⟨s,T⟩ chain) (hpart : x'.pc.part = (T t).pc.part) (hvar : x'.pc.var = (T t).pc.var)
    (hheld : x'.held = (T t).held) (hout : ∀ r, x'.pc.outside = some r → (T t).pc.outside = some r)
    (hrem : x'.removed = (T t).removed) (hx : Knows s chain x'.pc) : Sound ⟨s,Function.update T t x'⟩ chain := by
  have hholds : ∀ r w, x'.varHolds r w = (T t).varHolds r w := by
    intro r w
    rw [Local.varHolds, Local.varHolds, hvar, hheld]
  refine h.lock ⟨h.locks.stay (fun _ => rfl) (fun _ => rfl) hpart hholds,.refl s⟩ hout (fun r w hr => ?_) hrem hx
  rw [hholds] at hr
  exact Or.inl hr

/-! ## Steps that change the lists -/

/-- While a thread holds a part for writing no other one holds it. -/
theorem Locks.excludes (h : Locks s T) (ht : (T t).pc.part = some (i,true)) {u : Thread} (hu : u ≠ t) (w : Bool) :
    (T u).pc.part ≠ some (i,w) := by
  intro heq
  have htpos : 0 < (s.tab_ i).mtx.holds t true := by
    rw [h.partHolds, Pc.partHolds, if_pos ht]
    exact Nat.one_pos
  have hupos : 0 < (s.tab_ i).mtx.holds u w := by
    rw [h.partHolds, Pc.partHolds, if_pos heq]
    exact Nat.one_pos
  exact hu ((h.partValid i).alone htpos hupos).1

omit [DecidableEq Thread] in
theorem Chains.ne_allocated (h : Chains s chain) (hr : r ∈ chain i) : r ≠ s.allocated := (h.allocated i r hr).ne

/-- What gets linked was outside with the mover, and what gets outside with it was linked or is new. -/
theorem Outside.change {chain' : ℕ → List Ref} (h : Outside s T chain) (hall : s.allocated ≤ s'.allocated)
    (hchain : ∀ i r, r ∈ chain' i → (∃ j, r ∈ chain j) ∨ (T t).pc.outside = some r)
    (hout : ∀ r, x'.pc.outside = some r → r < s'.allocated ∧ (∀ i, r ∉ chain' i) ∧
      ((∃ i, r ∈ chain i) ∨ s.allocated ≤ r))
    (hheld : ∀ r w, x'.varHolds r w = (T t).varHolds r w) (hrem : x'.removed = (T t).removed) :
    Outside s' (Function.update T t x') chain' := by
  have hheld' : ∀ u r w, (Function.update T t x' u).varHolds r w = (T u).varHolds r w := by
    intro u r w
    rcases eq_or_ne u t with rfl | hu
    · rw [Function.update_self]
      exact hheld r w
    · rw [Function.update_of_ne hu]
  have hrem' : ∀ u, (Function.update T t x' u).removed = (T u).removed := by
    intro u
    rcases eq_or_ne u t with rfl | hu
    · rw [Function.update_self]
      exact hrem
    · rw [Function.update_of_ne hu]
  -- a variable that is outside with another thread is neither linked nor new
  have hother : ∀ u r, u ≠ t → (T u).pc.outside = some r → (∀ i, r ∉ chain' i) ∧ x'.pc.outside ≠ some r := by
    intro u r hu hr
    constructor
    · intro i hi
      rcases hchain i r hi with ⟨j,hj⟩ | ht
      · exact h.notMem u r hr j hj
      · exact hu (h.unique u t r hr ht)
    · intro hx
      rcases (hout r hx).2.2 with ⟨j,hj⟩ | hnew
      · exact h.notMem u r hr j hj
      · exact Nat.not_lt.mpr hnew (h.allocated u r hr)
  constructor
  · intro u r hr
    rcases eq_or_ne u t with rfl | hu
    · rw [Function.update_self] at hr
      exact (hout r hr).1
    · rw [Function.update_of_ne hu] at hr
      exact (h.allocated u r hr).trans_le hall
  · intro u r hr
    rcases eq_or_ne u t with rfl | hu
    · rw [Function.update_self] at hr
      exact (hout r hr).2.1
    · rw [Function.update_of_ne hu] at hr
      exact (hother u r hu hr).1
  · intro u v r hu hv
    rcases eq_or_ne u t with rfl | hut
    · by_contra huv
      rw [Function.update_self] at hu
      rw [Function.update_of_ne (Ne.symm huv)] at hv
      exact (hother v r (Ne.symm huv) hv).2 hu
    · rw [Function.update_of_ne hut] at hu
      rcases eq_or_ne v t with rfl | hvt
      · rw [Function.update_self] at hv
        exact absurd hv (hother u r hut hu).2
      · rw [Function.update_of_ne hvt] at hv
        exact h.unique u v r hu hv
  · intro u w r hr
    rw [hheld']
    exact h.fresh u w r (hall.trans hr)
  · intro u r hr
    rw [hrem'] at hr
    exact (h.removed_allocated u r hr).trans_le hall
  · intro u r hr i hi
    rw [hrem'] at hr
    rcases hchain i r hi with ⟨j,hj⟩ | ht
    · exact h.removed_notMem u r hr j hj
    · exact h.removed_outside u r hr t ht
  · intro u r hr v hv
    rw [hrem'] at hr
    rcases eq_or_ne v t with rfl | hvt
    · rw [Function.update_self] at hv
      rcases (hout r hv).2.2 with ⟨j,hj⟩ | hnew
      · exact h.removed_notMem u r hr j hj
      · exact Nat.not_lt.mpr hnew (h.removed_allocated u r hr)
    · rw [Function.update_of_ne hvt] at hv
      exact h.removed_outside u r hr v hv
  · intro u r hr v w
    rw [hrem'] at hr
    rw [hheld']
    exact h.removed_free u r hr v w

/-- A new variable is outside. -/
theorem Sound.create {addr : ℕ} (h : Sound ⟨s,T⟩ chain) (hpc : (T t).pc = .create addr w) :
    Sound ⟨s.alloc addr,Function.update T t { T t with pc := .linkNext addr w s.allocated }⟩ chain := by
  have hvars : ∀ r, r ≠ s.allocated → (s.alloc addr).vars r = s.vars r := by
    intro r hr
    simp [Table.alloc, Table.setVar, hr]
  have hnew : (s.alloc addr).vars s.allocated = ⟨.free,addr,false,none⟩ := by simp [Table.alloc, Table.setVar]
  have hnode : ∀ r, r ≠ s.allocated → (s.alloc addr).node r = s.node r := by
    intro r hr
    rw [Table.node, hvars r hr]
    rfl
  have hholds : ∀ r v, Local.varHolds { T t with pc := .linkNext addr w s.allocated } r v = (T t).varHolds r v := by
    intro r v
    simp [Local.varHolds, hpc, Pc.var]
  have hk := h.knows t
  have hfresh := h.outside.fresh
  dsimp only at hk hfresh
  rw [hpc] at hk
  constructor
  · constructor
    · intro i
      refine (h.chains.links i).congr fun r hr => ?_
      rw [hvars r (h.chains.ne_allocated hr)]
    · intro i r hr
      rw [hvars r (h.chains.ne_allocated hr)]
      exact h.chains.part i r hr
    · intro i r hr
      exact (h.chains.allocated i r hr).trans (Nat.lt_succ_self _)
    · intro i
      have hsame : (chain i).map (fun r => ((s.alloc addr).vars r).addr) = (chain i).map fun r => (s.vars r).addr :=
        List.map_congr_left fun r hr => by rw [hvars r (h.chains.ne_allocated hr)]
      rw [hsame]
      exact h.chains.nodup i
  · have hlock : ∀ r u v, ((s.alloc addr).vars r).mtx.holds u v = (s.vars r).mtx.holds u v := by
      intro r u v
      rcases eq_or_ne r s.allocated with rfl | hr
      · rw [hnew, RwLock.holds_free, h.locks.varHolds, hfresh u v _ le_rfl]
      · rw [hvars r hr]
    refine h.locks.move h.locks.partValid (fun r => ?_) (fun i v => ?_) (fun u _ i v => rfl) (fun r v => ?_)
      fun u _ r v => hlock r u v
    · rcases eq_or_ne r s.allocated with rfl | hr
      · rw [hnew]
        exact RwLock.valid_free
      · rw [hvars r hr]
        exact h.locks.varValid r
    · rw [show ((s.alloc addr).tab_ i).mtx = (s.tab_ i).mtx from rfl, h.locks.partHolds, Pc.partHolds, Pc.partHolds, hpc]
      rfl
    · rw [hlock, hholds]
      exact h.locks.varHolds r t v
  · refine h.outside.change (Nat.le_succ _) (fun i r hr => Or.inl ⟨i,hr⟩) (fun r hr => ?_) hholds rfl
    cases hr
    exact ⟨Nat.lt_succ_self _,fun i hi => (h.chains.allocated i _ hi).ne rfl,Or.inr le_rfl⟩
  · intro u
    rcases eq_or_ne u t with rfl | hu
    · dsimp only
      rw [Function.update_self]
      refine ⟨by rw [hnew],fun x hx => ?_⟩
      rw [hvars x (h.chains.ne_allocated hx)]
      exact hk x hx
    · dsimp only
      rw [Function.update_of_ne hu]
      refine (h.knows u).congr (fun i v _ => ⟨rfl,rfl,fun r hr => hnode r (h.chains.ne_allocated hr)⟩) fun r hr => ?_
      exact hnode r (h.outside.allocated u r hr).ne

/-- The new variable points to the first one. -/
theorem Sound.linkNext {addr : ℕ} {res : Ref} (h : Sound ⟨s,T⟩ chain) (hpc : (T t).pc = .linkNext addr w res) :
    Sound ⟨s.setVar res { s.vars res with next := (s.tab_ (PartIdx addr)).val },
      Function.update T t { T t with pc := .linkVal addr w res }⟩ chain := by
  let s' := s.setVar res { s.vars res with next := (s.tab_ (PartIdx addr)).val }
  have hres : (T t).pc.outside = some res := by rw [hpc]; rfl
  have hvars : ∀ r, r ≠ res → s'.vars r = s.vars r := by
    intro r hr
    simp [s', Table.setVar, hr]
  have hself : s'.vars res = { s.vars res with next := (s.tab_ (PartIdx addr)).val } := by simp [s', Table.setVar]
  have haddr : ∀ r, (s'.vars r).addr = (s.vars r).addr := by
    intro r
    rcases eq_or_ne r res with rfl | hr
    · rw [hself]
    · rw [hvars r hr]
  have hmtx : ∀ r, (s'.vars r).mtx = (s.vars r).mtx := by
    intro r
    rcases eq_or_ne r res with rfl | hr
    · rw [hself]
    · rw [hvars r hr]
  have hne : ∀ i, ∀ r ∈ chain i, r ≠ res := by
    rintro i r hr rfl
    exact h.outside.notMem t r hres i hr
  have hnode : ∀ r, r ≠ res → s'.node r = s.node r := by
    intro r hr
    rw [Table.node, hvars r hr]
    rfl
  have hholds : ∀ r v, Local.varHolds { T t with pc := .linkVal addr w res } r v = (T t).varHolds r v := by
    intro r v
    simp [Local.varHolds, hpc, Pc.var]
  have hk := h.knows t
  dsimp only at hk
  rw [hpc] at hk
  constructor
  · constructor
    · intro i
      refine (h.chains.links i).congr fun r hr => ?_
      exact congrArg SyncVar.next (hvars r (hne i r hr))
    · intro i r hr
      exact (congrArg PartIdx (haddr r)).trans (h.chains.part i r hr)
    · exact h.chains.allocated
    · intro i
      have hsame : (chain i).map (fun r => (s'.vars r).addr) = (chain i).map fun r => (s.vars r).addr :=
        List.map_congr_left fun r _ => haddr r
      exact hsame ▸ h.chains.nodup i
  · exact h.locks.stay (fun i => rfl) hmtx (by rw [hpc]; rfl) hholds
  · refine h.outside.move rfl (fun r hr => ?_) (fun r v hr => ?_) rfl
    · rw [hres]
      exact hr
    · rw [hholds] at hr
      exact Or.inl hr
  · intro u
    rcases eq_or_ne u t with rfl | hu
    · dsimp only
      rw [Function.update_self]
      refine ⟨(haddr res).trans hk.1,congrArg SyncVar.next hself,fun x hx => ?_⟩
      rw [haddr]
      exact hk.2 x hx
    · dsimp only
      rw [Function.update_of_ne hu]
      refine (h.knows u).congr (fun i v _ => ⟨rfl,rfl,fun r hr => hnode r (hne i r hr)⟩) fun r hr => hnode r ?_
      rintro rfl
      exact hu (h.outside.unique u t r hr hres)

/-- The part points to the new variable. -/
theorem Sound.linkVal {addr : ℕ} {res : Ref} (h : Sound ⟨s,T⟩ chain) (hpc : (T t).pc = .linkVal addr w res) :
    Sound ⟨s.setPart (PartIdx addr) { s.tab_ (PartIdx addr) with val := some res },
        Function.update T t { T t with pc := .lockAgain addr w res }⟩
      (Function.update chain (PartIdx addr) (res :: chain (PartIdx addr))) := by
  let s' := s.setPart (PartIdx addr) { s.tab_ (PartIdx addr) with val := some res }
  let chain' := Function.update chain (PartIdx addr) (res :: chain (PartIdx addr))
  have hres : (T t).pc.outside = some res := by rw [hpc]; rfl
  have htab : ∀ i, i ≠ PartIdx addr → s'.tab_ i = s.tab_ i := by
    intro i hi
    simp [s', Table.setPart, hi]
  have hself : s'.tab_ (PartIdx addr) = { s.tab_ (PartIdx addr) with val := some res } := by simp [s', Table.setPart]
  have hmem : ∀ i r, r ∈ chain' i → r ∈ chain i ∨ i = PartIdx addr ∧ r = res := by
    intro i r hr
    rcases eq_or_ne i (PartIdx addr) with rfl | hi
    · simp only [chain', Function.update_self, List.mem_cons] at hr
      tauto
    · simp only [chain', Function.update_of_ne hi] at hr
      exact Or.inl hr
  have hholds : ∀ r v, Local.varHolds { T t with pc := .lockAgain addr w res } r v = (T t).varHolds r v := by
    intro r v
    simp [Local.varHolds, hpc, Pc.var]
  have hk := h.knows t
  dsimp only at hk
  rw [hpc] at hk
  obtain ⟨ha,hnext,hnew⟩ := hk
  constructor
  · constructor
    · intro i
      rcases eq_or_ne i (PartIdx addr) with rfl | hi
      · change LinkedQueue.Links _ (s'.tab_ (PartIdx addr)).val (chain' (PartIdx addr))
        rw [hself]
        simp only [chain', Function.update_self]
        refine ⟨rfl,?_⟩
        change LinkedQueue.Links _ (s.vars res).next _
        rw [hnext]
        exact h.chains.links (PartIdx addr)
      · change LinkedQueue.Links _ (s'.tab_ i).val (chain' i)
        rw [htab i hi]
        simp only [chain', Function.update_of_ne hi]
        exact h.chains.links i
    · intro i r hr
      rcases hmem i r hr with hr | ⟨rfl,rfl⟩
      · exact h.chains.part i r hr
      · exact congrArg PartIdx ha
    · intro i r hr
      rcases hmem i r hr with hr | ⟨rfl,rfl⟩
      · exact h.chains.allocated i r hr
      · exact h.outside.allocated t r hres
    · intro i
      rcases eq_or_ne i (PartIdx addr) with rfl | hi
      · simp only [Function.update_self, List.map_cons, List.nodup_cons]
        refine ⟨fun hin => ?_,h.chains.nodup _⟩
        obtain ⟨x,hx,hxa⟩ := List.mem_map.mp hin
        exact hnew x hx (hxa.trans ha)
      · simp only [Function.update_of_ne hi]
        exact h.chains.nodup i
  · refine h.locks.stay (fun i => ?_) (fun r => rfl) (by rw [hpc]; rfl) hholds
    rcases eq_or_ne i (PartIdx addr) with rfl | hi
    · have hmtx := congrArg Part.mtx hself
      exact hmtx
    · exact congrArg Part.mtx (htab i hi)
  · refine h.outside.change le_rfl (fun i r hr => ?_) (fun r hr => by cases hr) hholds rfl
    rcases hmem i r hr with hr | ⟨-,rfl⟩
    · exact Or.inl ⟨i,hr⟩
    · exact Or.inr hres
  · intro u
    rcases eq_or_ne u t with rfl | hu
    · dsimp only
      rw [Function.update_self]
      refine ⟨?_,ha⟩
      rw [Function.update_self]
      exact List.mem_cons_self
    · dsimp only
      rw [Function.update_of_ne hu]
      refine (h.knows u).congr (fun i v hp => ?_) fun r _ => rfl
      have hi : i ≠ PartIdx addr := by
        rintro rfl
        exact h.locks.excludes (by rw [hpc]; rfl) hu v hp
      exact ⟨Function.update_of_ne hi _ _,congrArg Part.val (htab i hi),fun r _ => rfl⟩

omit [DecidableEq Thread] in
/-- The list without a variable, in its part. -/
theorem Chains.erase {l₁ l₂ : List Ref} {res : Ref} (h : Chains s chain) (hl : chain i = l₁ ++ res :: l₂)
    (hlinks : LinkedQueue.Links (fun r => (s'.vars r).next) (s'.tab_ i).val (l₁ ++ l₂))
    (hnext : ∀ j, j ≠ i → (s'.tab_ j).val = (s.tab_ j).val ∧ ∀ r ∈ chain j, (s'.vars r).next = (s.vars r).next)
    (haddr : ∀ r, (s'.vars r).addr = (s.vars r).addr) (hall : s'.allocated = s.allocated) :
    Chains s' (Function.update chain i (l₁ ++ l₂)) := by
  have hsub : ∀ j r, r ∈ Function.update chain i (l₁ ++ l₂) j → r ∈ chain j := by
    intro j r hr
    rcases eq_or_ne j i with rfl | hj
    · rw [Function.update_self] at hr
      rw [hl]
      simp only [List.mem_append, List.mem_cons] at hr ⊢
      tauto
    · rwa [Function.update_of_ne hj] at hr
  constructor
  · intro j
    rcases eq_or_ne j i with rfl | hj
    · rw [Function.update_self]
      exact hlinks
    · rw [Function.update_of_ne hj, (hnext j hj).1]
      exact (h.links j).congr (hnext j hj).2
  · intro j r hr
    rw [haddr]
    exact h.part j r (hsub j r hr)
  · intro j r hr
    rw [hall]
    exact h.allocated j r (hsub j r hr)
  · intro j
    simp only [haddr]
    rcases eq_or_ne j i with rfl | hj
    · have hnd := h.nodup j
      rw [hl, List.map_append, List.map_cons, List.nodup_middle] at hnd
      rw [Function.update_self, List.map_append]
      exact (List.nodup_cons.mp hnd).2
    · rw [Function.update_of_ne hj]
      exact h.nodup j

omit [DecidableEq Thread] in
/-- A store to the link before a variable takes it out. -/
theorem Chains.unlink {l₁ l₂ : List Ref} {prev : Option Ref} {res : Ref} (h : Chains s chain)
    (hl : chain i = l₁ ++ res :: l₂) (hprev : l₁.getLast? = prev) :
    Chains (s.store i prev (s.vars res).next) (Function.update chain i (l₁ ++ l₂)) ∧
      (∀ r, ((s.store i prev (s.vars res).next).vars r).mtx = (s.vars r).mtx) ∧
      (∀ j, ((s.store i prev (s.vars res).next).tab_ j).mtx = (s.tab_ j).mtx) ∧
      (∀ r, r ∉ chain i → (s.store i prev (s.vars res).next).node r = s.node r) ∧
      (∀ j, j ≠ i → ((s.store i prev (s.vars res).next).tab_ j).val = (s.tab_ j).val) := by
  have hlinks := h.links i
  rw [hl] at hlinks
  cases prev with
  | none =>
    obtain rfl : l₁ = [] := List.getLast?_eq_none_iff.mp hprev
    have hself : ((s.store i none (s.vars res).next).tab_ i).val = (s.vars res).next := by
      simp [Table.store, Table.setPart]
    have hother : ∀ j, j ≠ i → (s.store i none (s.vars res).next).tab_ j = s.tab_ j := by
      intro j hj
      simp [Table.store, Table.setPart, hj]
    refine ⟨h.erase hl ?_ (fun j hj => ⟨congrArg Part.val (hother j hj),fun r _ => rfl⟩) (fun r => rfl) rfl,
      fun r => rfl,fun j => ?_,fun r _ => rfl,fun j hj => congrArg Part.val (hother j hj)⟩
    · rw [hself]
      exact hlinks.2
    · rcases eq_or_ne j i with rfl | hj
      · simp [Table.store, Table.setPart]
      · exact congrArg Part.mtx (hother j hj)
  | some p =>
    obtain ⟨l,rfl⟩ : ∃ l, l₁ = l ++ [p] := by
      rcases List.eq_nil_or_concat' l₁ with rfl | ⟨l,q,rfl⟩
      · cases hprev
      · simp only [List.getLast?_append, List.getLast?_singleton, Option.some_or, Option.some.injEq] at hprev
        exact ⟨l,by rw [hprev]⟩
    have hp : p ∈ chain i := by simp [hl]
    have hvars : ∀ r, r ≠ p → (s.store i (some p) (s.vars res).next).vars r = s.vars r := by
      intro r hr
      simp [Table.store, Table.setVar, hr]
    have hself : (s.store i (some p) (s.vars res).next).vars p = { s.vars p with next := (s.vars res).next } := by
      simp [Table.store, Table.setVar]
    have hnodup : (chain i).Nodup := (h.nodup i).of_map
    rw [hl] at hnodup
    refine ⟨h.erase hl ?_ (fun j hj => ⟨rfl,fun r hr => ?_⟩) (fun r => ?_) rfl,fun r => ?_,fun j => rfl,
      fun r hr => ?_,fun j _ => rfl⟩
    · have hnext : (fun r => ((s.store i (some p) (s.vars res).next).vars r).next) =
          Function.update (fun r => (s.vars r).next) p (s.vars res).next := by
        funext r
        rcases eq_or_ne r p with rfl | hr
        · rw [hself, Function.update_self]
        · rw [hvars r hr, Function.update_of_ne hr]
      rw [hnext]
      simp only [List.append_assoc, List.singleton_append] at hlinks hnodup ⊢
      exact hlinks.remove hnodup
    · have hrp : r ≠ p := by
        rintro rfl
        exact hj ((h.part j r hr).symm.trans (h.part i r hp))
      rw [hvars r hrp]
    · rcases eq_or_ne r p with rfl | hr
      · rw [hself]
      · rw [hvars r hr]
    · rcases eq_or_ne r p with rfl | hr
      · rw [hself]
      · rw [hvars r hr]
    · have hrp : r ≠ p := by
        rintro rfl
        exact hr hp
      rw [Table.node, hvars r hrp]
      rfl

theorem Sound.unlink {addr : ℕ} {prev : Option Ref} {res : Ref} (h : Sound ⟨s,T⟩ chain)
    (hpc : (T t).pc = .unlink addr prev res) : ∃ chain',
    Sound ⟨s.store (PartIdx addr) prev (s.vars res).next,
      Function.update T t { T t with pc := .removeUnlock addr (some res) }⟩ chain' := by
  have hk := h.knows t
  dsimp only at hk
  rw [hpc] at hk
  obtain ⟨l₁,l₂,hl,hprev⟩ := hk
  obtain ⟨hchains,hmtx,htab,hnode,hval⟩ := h.chains.unlink hl hprev
  have hholds : ∀ r v, Local.varHolds { T t with pc := .removeUnlock addr (some res) } r v = (T t).varHolds r v := by
    intro r v
    simp [Local.varHolds, hpc, Pc.var]
  have hnodup : (chain (PartIdx addr)).Nodup := (h.chains.nodup (PartIdx addr)).of_map
  rw [hl] at hnodup
  have hmem : ∀ i r, r ∈ Function.update chain (PartIdx addr) (l₁ ++ l₂) i → r ∈ chain i ∧ r ≠ res := by
    intro i r hr
    rcases eq_or_ne i (PartIdx addr) with rfl | hi
    · rw [Function.update_self] at hr
      refine ⟨by rw [hl]; simp at hr ⊢; tauto,?_⟩
      rintro rfl
      exact (List.nodup_cons.mp (List.nodup_middle.mp hnodup)).1 hr
    · rw [Function.update_of_ne hi] at hr
      refine ⟨hr,?_⟩
      rintro rfl
      exact hi ((h.chains.part i r hr).symm.trans (h.chains.part _ r (by simp [hl])))
  refine ⟨Function.update chain (PartIdx addr) (l₁ ++ l₂),hchains,?_,?_,fun u => ?_⟩
  · exact h.locks.stay htab hmtx (by rw [hpc]; rfl) hholds
  · refine h.outside.change ?_ (fun i r hr => Or.inl ⟨i,(hmem i r hr).1⟩) (fun r hr => ?_) hholds rfl
    · cases prev <;> exact le_rfl
    · cases hr
      have hin : res ∈ chain (PartIdx addr) := by simp [hl]
      refine ⟨?_,fun i hi => (hmem i res hi).2 rfl,Or.inl ⟨_,hin⟩⟩
      have hlt := h.chains.allocated _ _ hin
      cases prev <;> exact hlt
  · rcases eq_or_ne u t with rfl | hu
    · dsimp only
      rw [Function.update_self]
      trivial
    · dsimp only
      rw [Function.update_of_ne hu]
      refine (h.knows u).congr (fun i v hp => ?_) fun r hr => ?_
      · have hi : i ≠ PartIdx addr := by
          rintro rfl
          exact h.locks.excludes (by rw [hpc]; rfl) hu v hp
        refine ⟨Function.update_of_ne hi _ _,hval i hi,fun r hr => hnode r fun hmem' => ?_⟩
        exact hi ((h.chains.part i r hr).symm.trans (h.chains.part _ r hmem'))
      · exact hnode r (h.outside.notMem u r hr _)

/-- A variable that was taken out is given away when no other thread holds it. -/
theorem Sound.varUnlock {addr : ℕ} {res : Ref} (h : Sound ⟨s,T⟩ chain) (hpc : (T t).pc = .varUnlock addr res)
    (he : s.releaseVar t res true = some s') :
    Sound ⟨s',Function.update T t { T t with pc := .idle, removed := res :: (T t).removed }⟩ chain := by
  let x' : Local := { T t with pc := .idle, removed := res :: (T t).removed }
  have hres : (T t).pc.outside = some res := by rw [hpc]; rfl
  have hless : ∀ q v, (T t).varHolds q v = x'.varHolds q v + if q = res ∧ v = true then 1 else 0 := by
    intro q v
    simp [x', Local.varHolds, hpc, Pc.var, eq_comm]
  obtain ⟨hlocks,hsame⟩ := h.locks.releaseVar x' he (by rw [hpc]; rfl) hless
  have hfree : ∀ u v, (Function.update T t x' u).varHolds res v = 0 := by
    intro u v
    rw [← hlocks.varHolds]
    simp only [Table.releaseVar, Option.pure_def, Option.bind_eq_bind, Option.bind_eq_some_iff] at he
    obtain ⟨l,hl,he⟩ := he
    cases he
    simpa [Table.setVar] using (h.locks.varValid res).release_write hl
  have hle : ∀ u q v, (Function.update T t x' u).varHolds q v ≤ (T u).varHolds q v := by
    intro u q v
    rcases eq_or_ne u t with rfl | hu
    · rw [Function.update_self, hless]
      exact Nat.le_add_right _ _
    · rw [Function.update_of_ne hu]
  have hout : ∀ u r, (Function.update T t x' u).pc.outside = some r → u ≠ t ∧ (T u).pc.outside = some r := by
    intro u r hr
    rcases eq_or_ne u t with rfl | hu
    · rw [Function.update_self] at hr
      cases hr
    · rw [Function.update_of_ne hu] at hr
      exact ⟨hu,hr⟩
  have hrem : ∀ u, ∀ r ∈ (Function.update T t x' u).removed, r = res ∨ ∃ v, r ∈ (T v).removed := by
    intro u r hr
    rcases eq_or_ne u t with rfl | hu
    · rw [Function.update_self] at hr
      exact (List.mem_cons.mp hr).imp id fun hr => ⟨u,hr⟩
    · rw [Function.update_of_ne hu] at hr
      exact Or.inr ⟨u,hr⟩
  constructor
  · exact h.chains.same hsame
  · exact hlocks
  · constructor
    · intro u r hr
      dsimp only
      rw [hsame.allocated]
      exact h.outside.allocated u r (hout u r hr).2
    · intro u r hr
      exact h.outside.notMem u r (hout u r hr).2
    · intro u v r hu hv
      exact h.outside.unique u v r (hout u r hu).2 (hout v r hv).2
    · intro u v r hr
      dsimp only at hr
      rw [hsame.allocated] at hr
      exact Nat.le_zero.mp ((hle u r v).trans_eq (h.outside.fresh u v r hr))
    · intro u r hr
      dsimp only
      rw [hsame.allocated]
      rcases hrem u r hr with rfl | ⟨v,hr⟩
      · exact h.outside.allocated t r hres
      · exact h.outside.removed_allocated v r hr
    · intro u r hr
      rcases hrem u r hr with rfl | ⟨v,hr⟩
      · exact h.outside.notMem t r hres
      · exact h.outside.removed_notMem v r hr
    · intro u r hr v hv
      obtain ⟨hvt,hold⟩ := hout v r hv
      rcases hrem u r hr with rfl | ⟨u,hr⟩
      · exact hvt (h.outside.unique v t r hold hres)
      · exact h.outside.removed_outside u r hr v hold
    · intro u r hr v w
      rcases hrem u r hr with rfl | ⟨u,hr⟩
      · exact hfree v w
      · exact Nat.le_zero.mp ((hle v r w).trans_eq (h.outside.removed_free u r hr v w))
  · exact knows_move hsame h.knows trivial

/-! ## All steps -/

/-- A variable that is linked is neither removed nor fresh. -/
theorem Sound.linked_live (h : Sound ⟨s,T⟩ chain) (hr : r ∈ chain i) : r < s.allocated ∧ ∀ u, r ∉ (T u).removed :=
  ⟨h.chains.allocated i r hr,fun u hmem => h.outside.removed_notMem u r hmem i hr⟩

/-- The thread gets a lock of a part, or gives it back, at the step to its next place. -/
theorem Sound.partLock (h : Sound ⟨s,T⟩ chain) (he : s.acquirePart t i w = some s')
    (hpart : (T t).pc.part = none ∧ x'.pc.part = some (i,w)) (hvar : x'.pc.var = (T t).pc.var)
    (hheld : x'.held = (T t).held) (hout : ∀ r, x'.pc.outside = some r → (T t).pc.outside = some r)
    (hrem : x'.removed = (T t).removed) (hx : Knows s chain x'.pc) : Sound ⟨s',Function.update T t x'⟩ chain := by
  have hholds : ∀ r w, x'.varHolds r w = (T t).varHolds r w := by
    intro r w
    rw [Local.varHolds, Local.varHolds, hvar, hheld]
  refine h.lock (h.locks.acquirePart he hpart hholds) hout (fun r w hr => ?_) hrem hx
  rw [hholds] at hr
  exact Or.inl hr

theorem Sound.partUnlock (h : Sound ⟨s,T⟩ chain) (he : s.releasePart t i w = some s')
    (hpart : (T t).pc.part = some (i,w) ∧ x'.pc.part = none)
    (hholds : ∀ r w, x'.varHolds r w = (T t).varHolds r w)
    (hout : ∀ r, x'.pc.outside = some r → (T t).pc.outside = some r)
    (hrem : x'.removed = (T t).removed) (hx : Knows s chain x'.pc) : Sound ⟨s',Function.update T t x'⟩ chain := by
  refine h.lock (h.locks.releasePart he hpart hholds) hout (fun r w hr => ?_) hrem hx
  rw [hholds] at hr
  exact Or.inl hr

/-- The thread gets the lock of a variable that is linked, or of the one that it has outside. -/
theorem Sound.varLock (h : Sound ⟨s,T⟩ chain) (he : s.acquireVar t r w = some s')
    (hpart : x'.pc.part = (T t).pc.part) (hvar : (T t).pc.var = none ∧ x'.pc.var = some (r,w))
    (hheld : x'.held = (T t).held) (hout : ∀ r, x'.pc.outside = some r → (T t).pc.outside = some r)
    (hrem : x'.removed = (T t).removed) (hlive : r < s.allocated ∧ ∀ u, r ∉ (T u).removed)
    (hx : Knows s chain x'.pc) : Sound ⟨s',Function.update T t x'⟩ chain := by
  have hmore : ∀ q v, x'.varHolds q v = (T t).varHolds q v + if q = r ∧ v = w then 1 else 0 := by
    intro q v
    simp [Local.varHolds, hvar, hheld, eq_comm]
  refine h.lock (h.locks.acquireVar he hpart hmore) hout (fun q v hq => ?_) hrem hx
  rw [hmore] at hq
  split_ifs at hq with heq
  · exact Or.inr (heq.1 ▸ hlive)
  · exact Or.inl hq

/-- A step of a call. -/
theorem Sound.advance (h : Sound ⟨s,T⟩ chain) (he : advance t s (T t) = some (s',x')) :
    ∃ chain', Sound ⟨s',Function.update T t x'⟩ chain' := by
  have hk := h.knows t
  have hlinks := h.chains.links
  dsimp only at hk hlinks
  cases hpc : (T t).pc with
  | idle => simp [SyncTab.advance, hpc] at he
  | partReadLock addr w =>
    simp only [SyncTab.advance, hpc, Option.pure_def, Option.bind_eq_bind, Option.bind_eq_some_iff] at he
    obtain ⟨s₁,hs,he⟩ := he
    cases he
    exact ⟨chain,h.partLock hs (by simp [hpc, Pc.part]) (by simp [hpc, Pc.var]) rfl (by simp [Pc.outside]) rfl trivial⟩
  | firstRead addr w =>
    simp only [SyncTab.advance, hpc] at he
    cases he
    refine ⟨chain,h.place (by simp [hpc, Pc.part]) (by simp [hpc, Pc.var]) rfl (by simp [Pc.outside]) rfl ?_⟩
    exact ⟨[],_,rfl,hlinks _⟩
  | find addr w res =>
    rw [hpc] at hk
    obtain ⟨l₁,l₂,hl,hlk⟩ := hk
    cases res with
    | none =>
      simp only [SyncTab.advance, hpc] at he
      cases he
      exact ⟨chain,h.place (by simp [hpc, Pc.part]) (by simp [hpc, Pc.var]) rfl (by simp [Pc.outside]) rfl trivial⟩
    | some res =>
      obtain ⟨l₃,rfl,hnext⟩ := hlk.of_some
      simp only [SyncTab.advance, hpc] at he
      split_ifs at he with ha
      · cases he
        refine ⟨chain,h.place (by simp [hpc, Pc.part]) (by simp [hpc, Pc.var]) rfl (by simp [Pc.outside]) rfl ?_⟩
        exact ⟨by simp [hl],ha⟩
      · cases he
        refine ⟨chain,h.place (by simp [hpc, Pc.part]) (by simp [hpc, Pc.var]) rfl (by simp [Pc.outside]) rfl ?_⟩
        exact ⟨l₁ ++ [res],l₃,by simp [hl],hnext⟩
  | lockFound addr w res =>
    rw [hpc] at hk
    simp only [SyncTab.advance, hpc, Option.pure_def, Option.bind_eq_bind, Option.bind_eq_some_iff] at he
    obtain ⟨s₁,hs,he⟩ := he
    cases he
    exact ⟨chain,h.varLock hs (by simp [hpc, Pc.part]) (by simp [hpc, Pc.var]) rfl (by simp [Pc.outside]) rfl
      (h.linked_live hk.1) hk⟩
  | partReadUnlock addr w res =>
    cases res with
    | none =>
      simp only [SyncTab.advance, hpc, Option.pure_def, Option.bind_eq_bind, Option.bind_eq_some_iff] at he
      obtain ⟨s₁,hs,he⟩ := he
      cases he
      exact ⟨chain,h.partUnlock hs (by simp [hpc, Pc.part]) (by simp [Local.varHolds, hpc, Pc.var]) (by simp [Pc.outside])
        rfl trivial⟩
    | some res =>
      simp only [SyncTab.advance, hpc, Option.pure_def, Option.bind_eq_bind, Option.bind_eq_some_iff] at he
      obtain ⟨s₁,hs,he⟩ := he
      cases he
      refine ⟨chain,h.partUnlock hs (by simp [hpc, Pc.part]) ?_ (by simp [Pc.outside]) rfl trivial⟩
      intro q v
      simp [Local.varHolds, hpc, Pc.var, List.count_cons]
  | partLock addr w =>
    simp only [SyncTab.advance, hpc, Option.pure_def, Option.bind_eq_bind, Option.bind_eq_some_iff] at he
    obtain ⟨s₁,hs,he⟩ := he
    cases he
    exact ⟨chain,h.partLock hs (by simp [hpc, Pc.part]) (by simp [hpc, Pc.var]) rfl (by simp [Pc.outside]) rfl trivial⟩
  | secondRead addr w =>
    simp only [SyncTab.advance, hpc] at he
    cases he
    refine ⟨chain,h.place (by simp [hpc, Pc.part]) (by simp [hpc, Pc.var]) rfl (by simp [Pc.outside]) rfl ?_⟩
    exact ⟨[],_,rfl,hlinks _,by simp⟩
  | findAgain addr w res =>
    rw [hpc] at hk
    obtain ⟨l₁,l₂,hl,hlk,hne⟩ := hk
    cases res with
    | none =>
      simp only [SyncTab.advance, hpc] at he
      cases he
      refine ⟨chain,h.place (by simp [hpc, Pc.part]) (by simp [hpc, Pc.var]) rfl (by simp [Pc.outside]) rfl ?_⟩
      intro x hx
      rw [hl, hlk.of_none, List.append_nil] at hx
      exact hne x hx
    | some res =>
      obtain ⟨l₃,rfl,hnext⟩ := hlk.of_some
      simp only [SyncTab.advance, hpc] at he
      split_ifs at he with ha
      · cases he
        refine ⟨chain,h.place (by simp [hpc, Pc.part]) (by simp [hpc, Pc.var]) rfl (by simp [Pc.outside]) rfl ?_⟩
        exact ⟨by simp [hl],ha⟩
      · cases he
        refine ⟨chain,h.place (by simp [hpc, Pc.part]) (by simp [hpc, Pc.var]) rfl (by simp [Pc.outside]) rfl ?_⟩
        refine ⟨l₁ ++ [res],l₃,by simp [hl],hnext,fun x hx => ?_⟩
        rcases List.mem_append.mp hx with hx | hx
        · exact hne x hx
        · rw [List.mem_singleton.mp hx]
          exact ha
  | create addr w =>
    simp only [SyncTab.advance, hpc] at he
    cases he
    exact ⟨chain,h.create hpc⟩
  | linkNext addr w res =>
    simp only [SyncTab.advance, hpc] at he
    cases he
    exact ⟨chain,h.linkNext hpc⟩
  | linkVal addr w res =>
    simp only [SyncTab.advance, hpc] at he
    cases he
    exact ⟨_,h.linkVal hpc⟩
  | lockAgain addr w res =>
    rw [hpc] at hk
    simp only [SyncTab.advance, hpc, Option.pure_def, Option.bind_eq_bind, Option.bind_eq_some_iff] at he
    obtain ⟨s₁,hs,he⟩ := he
    cases he
    exact ⟨chain,h.varLock hs (by simp [hpc, Pc.part]) (by simp [hpc, Pc.var]) rfl (by simp [Pc.outside]) rfl
      (h.linked_live hk.1) hk⟩
  | partUnlock addr w res =>
    simp only [SyncTab.advance, hpc, Option.pure_def, Option.bind_eq_bind, Option.bind_eq_some_iff] at he
    obtain ⟨s₁,hs,he⟩ := he
    cases he
    refine ⟨chain,h.partUnlock hs (by simp [hpc, Pc.part]) ?_ (by simp [Pc.outside]) rfl trivial⟩
    intro q v
    simp [Local.varHolds, hpc, Pc.var, List.count_cons]
  | removeLock addr =>
    simp only [SyncTab.advance, hpc, Option.pure_def, Option.bind_eq_bind, Option.bind_eq_some_iff] at he
    obtain ⟨s₁,hs,he⟩ := he
    cases he
    exact ⟨chain,h.partLock hs (by simp [hpc, Pc.part]) (by simp [hpc, Pc.var]) rfl (by simp [Pc.outside]) rfl trivial⟩
  | removeRead addr =>
    simp only [SyncTab.advance, hpc] at he
    cases he
    refine ⟨chain,h.place (by simp [hpc, Pc.part]) (by simp [hpc, Pc.var]) rfl (by simp [Pc.outside]) rfl ?_⟩
    exact ⟨[],_,rfl,hlinks _,rfl⟩
  | remove addr prev res =>
    rw [hpc] at hk
    obtain ⟨l₁,l₂,hl,hlk,hprev⟩ := hk
    cases res with
    | none =>
      simp only [SyncTab.advance, hpc] at he
      cases he
      exact ⟨chain,h.place (by simp [hpc, Pc.part]) (by simp [hpc, Pc.var]) rfl (by simp [Pc.outside]) rfl trivial⟩
    | some res =>
      obtain ⟨l₃,rfl,hnext⟩ := hlk.of_some
      simp only [SyncTab.advance, hpc] at he
      split_ifs at he with ha hinit
      · cases he
        exact ⟨chain,h.place (by simp [hpc, Pc.part]) (by simp [hpc, Pc.var]) rfl (by simp [Pc.outside]) rfl trivial⟩
      · cases he
        refine ⟨chain,h.place (by simp [hpc, Pc.part]) (by simp [hpc, Pc.var]) rfl (by simp [Pc.outside]) rfl ?_⟩
        exact ⟨l₁,l₃,hl,hprev⟩
      · cases he
        refine ⟨chain,h.place (by simp [hpc, Pc.part]) (by simp [hpc, Pc.var]) rfl (by simp [Pc.outside]) rfl ?_⟩
        exact ⟨l₁ ++ [res],l₃,by simp [hl],hnext,by simp⟩
  | unlink addr prev res =>
    simp only [SyncTab.advance, hpc] at he
    cases he
    exact h.unlink hpc
  | removeUnlock addr res =>
    simp only [SyncTab.advance, hpc, Option.pure_def, Option.bind_eq_bind, Option.bind_eq_some_iff] at he
    obtain ⟨s₁,hs,he⟩ := he
    cases he
    cases res with
    | none =>
      exact ⟨chain,h.partUnlock hs (by simp [hpc, Pc.part]) (by simp [Local.varHolds, hpc, Pc.var]) (by simp [Pc.outside])
        rfl trivial⟩
    | some res =>
      exact ⟨chain,h.partUnlock hs (by simp [hpc, Pc.part]) (by simp [Local.varHolds, hpc, Pc.var])
        (by simp [hpc, Pc.outside]) rfl trivial⟩
  | varLock addr res =>
    simp only [SyncTab.advance, hpc, Option.pure_def, Option.bind_eq_bind, Option.bind_eq_some_iff] at he
    obtain ⟨s₁,hs,he⟩ := he
    cases he
    have hres : (T t).pc.outside = some res := by rw [hpc]; rfl
    refine ⟨chain,h.varLock hs (by simp [hpc, Pc.part]) (by simp [hpc, Pc.var]) rfl (by simp [hpc, Pc.outside]) rfl ?_
      trivial⟩
    exact ⟨h.outside.allocated t res hres,fun u hmem => h.outside.removed_outside u res hmem t hres⟩
  | varUnlock addr res =>
    simp only [SyncTab.advance, hpc, Option.pure_def, Option.bind_eq_bind, Option.bind_eq_some_iff] at he
    obtain ⟨s₁,hs,he⟩ := he
    cases he
    exact ⟨chain,h.varUnlock hpc hs⟩

theorem Sound.step {c c' : Config Thread} {e : Thread × Act} (h : Sound c chain) (he : SyncTab.step c e = some c') :
    ∃ chain', Sound c' chain' := by
  obtain ⟨s,T⟩ := c
  obtain ⟨t,a⟩ := e
  obtain ⟨s',x',hn,rfl⟩ := Interleaving.step_eq_some he
  dsimp only at hn ⊢
  cases a with
  | call op =>
    simp only [next] at hn
    split_ifs at hn with hidle
    cases hn
    refine ⟨chain,?_⟩
    cases op with
    | GetAndLock addr w =>
      exact h.place (by simp [hidle, Pc.part]) (by simp [hidle, Pc.var]) rfl (by simp [Pc.outside]) rfl trivial
    | GetAndRemove addr =>
      exact h.place (by simp [hidle, Pc.part]) (by simp [hidle, Pc.var]) rfl (by simp [Pc.outside]) rfl trivial
  | step => exact h.advance hn
  | Unlock res w =>
    simp only [next] at hn
    split_ifs at hn with hheld
    obtain ⟨hidle,hmem⟩ := hheld
    simp only [Option.pure_def, Option.bind_eq_bind, Option.bind_eq_some_iff] at hn
    obtain ⟨s₁,hs,hn⟩ := hn
    cases hn
    have hless : ∀ q v, (T t).varHolds q v =
        Local.varHolds { T t with held := (T t).held.erase (res,w) } q v + if q = res ∧ v = w then 1 else 0 := by
      intro q v
      have hpos := List.count_pos_iff.mpr hmem
      by_cases heq : q = res ∧ v = w
      · obtain ⟨rfl,rfl⟩ := heq
        simp only [Local.varHolds, List.count_erase_self, and_self, ↓reduceIte]
        omega
      · have hne : (q,v) ≠ (res,w) := fun hp => heq (Prod.mk.inj hp)
        simp [Local.varHolds, List.count_erase_of_ne hne, heq]
    refine ⟨chain,h.lock (h.locks.releaseVar _ hs rfl hless) (fun r hr => hr) (fun r v hr => Or.inl ?_) rfl ?_⟩
    · rw [hless]
      exact hr.trans_le (Nat.le_add_right _ _)
    · dsimp only
      rw [hidle]
      trivial
  | setLinkerInit res b =>
    simp only [next] at hn
    split_ifs at hn with hheld
    cases hn
    have hvars : ∀ r, ((s.setVar res { s.vars res with is_linker_init := b }).vars r).mtx = (s.vars r).mtx ∧
        (s.setVar res { s.vars res with is_linker_init := b }).node r = s.node r := by
      intro r
      rcases eq_or_ne r res with rfl | hr
      · simp [Table.setVar, Table.node]
      · simp [Table.setVar, Table.node, hr]
    refine ⟨chain,h.lock ⟨h.locks.stay (fun i => rfl) (fun r => (hvars r).1) rfl fun r w => rfl,?_⟩ (fun r hr => hr)
      (fun r w hr => Or.inl hr) rfl (h.knows t)⟩
    exact ⟨fun i => rfl,fun r => (hvars r).2,rfl⟩

end Sound
end CompilerRt.Tsan.SyncTab
