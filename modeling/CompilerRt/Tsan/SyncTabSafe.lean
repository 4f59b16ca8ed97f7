import CompilerRt.Tsan.SyncTabSound
import Mathlib

/-! # What callers of the table of sync variables get

Whatever the threads do, an address has one variable, a variable that was got is locked and still in the table, and
one that was removed is nobody's and stays so.
-/
namespace CompilerRt.Tsan.SyncTab
variable {Thread : Type*} [DecidableEq Thread]

/-- Each address has at most one variable, and it is in its part. -/
def OneEach (s : Table Thread) : Prop :=
  ∀ i r, Linked s i r → i = PartIdx (s.vars r).addr ∧ ∀ j q, Linked s j q → (s.vars q).addr = (s.vars r).addr → q = r

/-- The variable was got, and nobody has removed it. -/
structure Got (c : Config Thread) (t : Thread) (addr : ℕ) (w : Bool) (res : Ref) : Prop where
  addr_eq : (c.shared.vars res).addr = addr
  linked : Linked c.shared (PartIdx addr) res
  notRemoved : ∀ u, res ∉ (c.threads u).removed
  locked : 0 < (c.shared.vars res).mtx.holds t w

/-- The variable was removed and is nobody's. -/
structure Gone (c : Config Thread) (res : Ref) : Prop where
  notLinked : ∀ i, ¬Linked c.shared i res
  free : ∀ u w, (c.shared.vars res).mtx.holds u w = 0
  notHeld : ∀ u w, (res,w) ∉ (c.threads u).held

section Reach
variable {c c' : Config Thread} {chain : ℕ → List Ref} {s s' : Table Thread} {x x' : Local} {t u : Thread} {r : Ref}

theorem Sound.init : Sound (SyncTab.init : Config Thread) fun _ => [] := by
  have hholds : ∀ (t : Thread) r w, ((SyncTab.init : Config Thread).threads t).varHolds r w = 0 := by
    intro t r w
    simp [SyncTab.init, Local.varHolds, Pc.var]
  constructor
  · exact ⟨fun i => rfl,by simp,by simp,by simp⟩
  · constructor
    · exact fun i => RwLock.valid_free
    · exact fun r => RwLock.valid_free
    · intro i t w
      simp [SyncTab.init, Pc.partHolds, Pc.part]
    · intro r t w
      rw [hholds]
      simp [SyncTab.init]
  · constructor
    · intro t r hr
      cases hr
    · intro t r hr
      cases hr
    · intro t u r hr
      cases hr
    · exact fun t w r _ => hholds t r w
    all_goals
      intro t r hr
      cases hr
  · exact fun t => trivial

theorem Sound.run {es : List (Thread × Act)} (h : Transition.run SyncTab.step SyncTab.init es = some c) : ∃ chain, Sound c chain :=
  Transition.run_inv (I := fun c => ∃ chain, Sound c chain) (fun _ _ _ ⟨_,hs⟩ he => hs.step he) ⟨_,.init⟩ h

/-! ## Reading a sound state -/

omit [DecidableEq Thread] in
theorem Chains.linked_iff (h : Chains s chain) {i : ℕ} : Linked s i r ↔ r ∈ chain i := by
  constructor
  · intro ⟨l,hl,hr⟩
    rwa [hl.unique (h.links i)] at hr
  · intro hr
    exact ⟨chain i,h.links i,hr⟩

theorem Sound.oneEach (h : Sound c chain) : OneEach c.shared := by
  intro i r hr
  rw [h.chains.linked_iff] at hr
  have hi := h.chains.part i r hr
  refine ⟨hi.symm,fun j q hq haddr => ?_⟩
  rw [h.chains.linked_iff] at hq
  have hj := h.chains.part j q hq
  obtain rfl : i = j := by rw [← hi, ← hj, haddr]
  exact List.inj_on_of_nodup_map (h.chains.nodup i) hq hr haddr

theorem Sound.gone (h : Sound c chain) (hr : r ∈ (c.threads u).removed) : Gone c r := by
  constructor
  · intro i hl
    rw [h.chains.linked_iff] at hl
    exact h.outside.removed_notMem u r hr i hl
  · intro v w
    rw [h.locks.varHolds]
    exact h.outside.removed_free u r hr v w
  · intro v w hmem
    have hzero := h.outside.removed_free u r hr v w
    have hpos := List.count_pos_iff.mpr hmem
    rw [Local.varHolds] at hzero
    omega

/-! ## The ends of calls -/

/-- A call of `GetAndLock` ends with a variable that it has locked. -/
theorem advance_got {addr : ℕ} {w : Bool} (h : advance t s x = some (s',x')) (hcall : x.pc.call = some (.GetAndLock addr w))
    (hidle : x'.pc = .idle) : ∃ res v, (x.pc = .partReadUnlock addr w (some res) ∨ x.pc = .partUnlock addr w res) ∧
      x'.held = (res,w) :: x.held ∧ s.releasePart t (PartIdx addr) v = some s' := by
  obtain ⟨pc,held,removed⟩ := x
  dsimp only at hcall ⊢
  cases pc with
  | partReadUnlock addr' w' res =>
    cases hcall
    cases res with
    | none =>
      simp only [advance, Option.pure_def, Option.bind_eq_bind, Option.bind_eq_some_iff] at h
      obtain ⟨s₁,hs,h⟩ := h
      cases h
      cases hidle
    | some res =>
      simp only [advance, Option.pure_def, Option.bind_eq_bind, Option.bind_eq_some_iff] at h
      obtain ⟨s₁,hs,h⟩ := h
      cases h
      exact ⟨res,false,Or.inl rfl,rfl,hs⟩
  | partUnlock addr' w' res =>
    cases hcall
    simp only [advance, Option.pure_def, Option.bind_eq_bind, Option.bind_eq_some_iff] at h
    obtain ⟨s₁,hs,h⟩ := h
    cases h
    exact ⟨res,true,Or.inr rfl,rfl,hs⟩
  | find addr' w' res | findAgain addr' w' res =>
    cases res with
    | none =>
      cases h
      cases hidle
    | some res =>
      simp only [advance] at h
      split_ifs at h <;> cases h <;> cases hidle
  | firstRead addr' w' | secondRead addr' w' | create addr' w' | linkNext addr' w' res | linkVal addr' w' res =>
    cases h
    cases hidle
  | partReadLock addr' w' | partLock addr' w' | lockFound addr' w' res | lockAgain addr' w' res =>
    simp only [advance, Option.pure_def, Option.bind_eq_bind, Option.bind_eq_some_iff] at h
    obtain ⟨s₁,hs,h⟩ := h
    cases h
    cases hidle
  | _ => cases hcall

/-- Only the end of a call of `GetAndRemove` removes a variable, the one that it has taken out. -/
theorem advance_removed (h : advance t s x = some (s',x')) :
    x'.removed = x.removed ∨ ∃ addr res, x.pc = .varUnlock addr res ∧ x'.removed = res :: x.removed := by
  obtain ⟨pc,held,removed⟩ := x
  cases pc with
  | idle => cases h
  | varUnlock addr res =>
    simp only [advance, Option.pure_def, Option.bind_eq_bind, Option.bind_eq_some_iff] at h
    obtain ⟨s₁,hs,h⟩ := h
    cases h
    exact Or.inr ⟨addr,res,rfl,rfl⟩
  | find addr w res | findAgain addr w res | remove addr prev res =>
    cases res with
    | none =>
      cases h
      exact Or.inl rfl
    | some res =>
      simp only [advance] at h
      split_ifs at h <;> cases h <;> exact Or.inl rfl
  | partReadUnlock addr w res =>
    cases res with
    | none | some res =>
      simp only [advance, Option.pure_def, Option.bind_eq_bind, Option.bind_eq_some_iff] at h
      obtain ⟨s₁,hs,h⟩ := h
      cases h
      exact Or.inl rfl
  | firstRead addr w | secondRead addr w | create addr w | linkNext addr w res | linkVal addr w res | removeRead addr
  | unlink addr prev res =>
    cases h
    exact Or.inl rfl
  | partReadLock addr w | partLock addr w | lockFound addr w res | lockAgain addr w res | partUnlock addr w res
  | removeLock addr | removeUnlock addr res | varLock addr res =>
    simp only [advance, Option.pure_def, Option.bind_eq_bind, Option.bind_eq_some_iff] at h
    obtain ⟨s₁,hs,h⟩ := h
    cases h
    exact Or.inl rfl

theorem Sound.got {addr : ℕ} {w : Bool} (h : Sound c chain) (he : SyncTab.step c (t,.step) = some c')
    (hcall : (c.threads t).pc.call = some (.GetAndLock addr w)) (hidle : (c'.threads t).pc = .idle) :
    ∃ res, (c'.threads t).held = (res,w) :: (c.threads t).held ∧ Got c' t addr w res := by
  obtain ⟨chain',h'⟩ := h.step he
  obtain ⟨s',x',hn,rfl⟩ := Interleaving.step_eq_some he
  dsimp only at h' hidle ⊢
  rw [Function.update_self] at hidle ⊢
  obtain ⟨res,v,hpc,hheld,hs⟩ := advance_got hn hcall hidle
  obtain ⟨hmem,haddr⟩ : res ∈ chain (PartIdx addr) ∧ (c.shared.vars res).addr = addr := by
    have hk := h.knows t
    rcases hpc with hpc | hpc
    · rw [hpc] at hk
      exact hk
    · rw [hpc] at hk
      exact hk
  -- the step releases the part and leaves the lists alone
  have hsame : SameLists c.shared s' := by
    simp only [Table.releasePart, Option.pure_def, Option.bind_eq_bind, Option.bind_eq_some_iff] at hs
    obtain ⟨l,-,hs⟩ := hs
    cases hs
    refine ⟨fun j => ?_,fun r => rfl,rfl⟩
    rcases eq_or_ne j (PartIdx addr) with rfl | hj
    · simp [Table.setPart]
    · simp [Table.setPart, hj]
  have hlinked : Linked s' (PartIdx addr) res := (h.chains.same hsame).linked_iff.mpr hmem
  refine ⟨res,hheld,(congrArg Prod.fst (hsame.node res)).trans haddr,hlinked,fun u hu => ?_,?_⟩
  · exact (h'.gone hu).notLinked _ hlinked
  · have hholds := h'.locks.varHolds res t w
    dsimp only at hholds ⊢
    rw [Function.update_self] at hholds
    rw [hholds, Local.varHolds, hheld, List.count_cons_self]
    omega

/-- What a step removes was not removed before. -/
theorem Sound.removed (h : Sound c chain) (he : SyncTab.step c (t,.step) = some c') :
    (c'.threads t).removed = (c.threads t).removed ∨
      ∃ res, (c'.threads t).removed = res :: (c.threads t).removed ∧ ∀ u, res ∉ (c.threads u).removed := by
  obtain ⟨s',x',hn,rfl⟩ := Interleaving.step_eq_some he
  dsimp only
  rw [Function.update_self]
  rcases advance_removed hn with hsame | ⟨addr,res,hpc,hrem⟩
  · exact Or.inl hsame
  · refine Or.inr ⟨res,hrem,fun u hu => h.outside.removed_outside u res hu t ?_⟩
    rw [hpc]
    rfl

/-! ## Removed variables stay removed -/

theorem next_removed {a : Act} (h : next t a s x = some (s',x')) (hr : r ∈ x.removed) : r ∈ x'.removed := by
  obtain ⟨pc,held,removed⟩ := x
  cases a with
  | call op =>
    simp only [next] at h
    split_ifs at h
    cases h
    exact hr
  | Unlock res w =>
    simp only [next] at h
    split_ifs at h
    simp only [Option.pure_def, Option.bind_eq_bind, Option.bind_eq_some_iff] at h
    obtain ⟨s₁,hs,h⟩ := h
    cases h
    exact hr
  | setLinkerInit res b =>
    simp only [next] at h
    split_ifs at h
    cases h
    exact hr
  | step =>
    rcases advance_removed h with hsame | ⟨addr,res,-,hcons⟩
    · rw [hsame]
      exact hr
    · rw [hcons]
      exact List.mem_cons_of_mem res hr

theorem run_removed {es : List (Thread × Act)} (h : Transition.run step c es = some c') (hr : r ∈ (c.threads u).removed) :
    r ∈ (c'.threads u).removed := by
  refine Transition.run_inv (I := fun c => r ∈ (c.threads u).removed) (fun c e c₁ hin he => ?_) hr h
  obtain ⟨s',x',hn,rfl⟩ := Interleaving.step_eq_some he
  dsimp only
  rcases eq_or_ne u e.1 with rfl | hu
  · rw [Function.update_self]
    exact next_removed hn hin
  · rw [Function.update_of_ne hu]
    exact hin

/-- In every state that any number of threads reach each address has one variable. A call of `GetAndLock` ends with
a variable of its address that is in the table and locked; what a call of `GetAndRemove` gives was not removed
before; and what was removed is nobody's then and after all further steps. -/
theorem sync_tab {es : List (Thread × Act)} {c : Config Thread} (hr : Transition.run step init es = some c) :
    OneEach c.shared ∧
    (∀ t addr w c', (c.threads t).pc.call = some (.GetAndLock addr w) → step c (t,.step) = some c' →
      (c'.threads t).pc = .idle →
      ∃ res, (c'.threads t).held = (res,w) :: (c.threads t).held ∧ Got c' t addr w res) ∧
    (∀ t c', step c (t,.step) = some c' → (c'.threads t).removed = (c.threads t).removed ∨
      ∃ res, (c'.threads t).removed = res :: (c.threads t).removed ∧ ∀ u, res ∉ (c.threads u).removed) ∧
    ∀ u, ∀ res ∈ (c.threads u).removed, ∀ es' c', Transition.run step c es' = some c' → Gone c' res := by
  obtain ⟨chain,h⟩ := Sound.run hr
  refine ⟨h.oneEach,?_,?_,?_⟩
  · intro t addr w c' hcall he hidle
    exact h.got he hcall hidle
  · intro t c' he
    exact h.removed he
  · intro u res hres es' c' hrun
    obtain ⟨chain',h'⟩ : ∃ chain, Sound c' chain :=
      Transition.run_inv (I := fun c => ∃ chain, Sound c chain) (fun _ _ _ ⟨_,hs⟩ he => hs.step he) ⟨chain,h⟩ hrun
    exact h'.gone (run_removed hrun hres)

end Reach

/-- The first thread gets a variable that is not there yet; the other removes it and has to wait for the first. -/
def removal (holder remover : Fin 2) : List (Fin 2 × Act) :=
  (holder,.call (.GetAndLock 64 true)) :: List.replicate 12 (holder,.step) ++
    (remover,.call (.GetAndRemove 64)) :: List.replicate 5 (remover,.step) ++
    [(holder,.Unlock 0 true),(remover,.step),(remover,.step)]

theorem sync_tab_removal : ∃ c, Transition.run step init (removal 0 1) = some c ∧ (c.threads 1).removed = [0] ∧
    Gone c 0 := by
  obtain ⟨c,hc,hrem⟩ : ∃ c, Transition.run step init (removal 0 1) = some c ∧ (c.threads 1).removed = [0] := by
    have hrun : (Transition.run step init (removal 0 1)).map (fun c => (c.threads 1).removed) = some [0] := by
      decide +kernel
    exact Option.map_eq_some_iff.mp hrun
  exact ⟨c,hc,hrem,(sync_tab hc).2.2.2 1 0 (by simp [hrem]) [] c rfl⟩

end CompilerRt.Tsan.SyncTab
