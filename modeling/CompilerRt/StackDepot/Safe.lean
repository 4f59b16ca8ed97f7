import CompilerRt.StackDepot.Put

/-! # The depot is safe

As long as no node is taken beyond the end of the current region, ids and stacks correspond, what is put is found, and
nodes do not overlap.
-/
namespace CompilerRt.StackDepot
variable {A : Arch} {Tid : Type} {d d' : Depot A} {γ γ' : Account A Tid} {t : Tid} {stack : Stack A} {id : U32}

/-! ## Writing a node -/

theorem trace_eq {s : StackDesc A} (hsize : s.size = stack.length) (h : ∀ j < stack.length, s.stack j = stack.getD j 0) :
    s.trace = stack := by
  rw [StackDesc.trace,hsize]
  refine List.ext_getElem (by rw [List.length_map,List.length_range]) fun j _ hj => ?_
  rw [List.getElem_map,List.getElem_range,h j hj]
  exact (List.getElem_eq_getD 0).symm

theorem Written.next {s : StackDesc A} {s2 : ℕ} {field field' : Field} (hne : stack ≠ [])
    (h : Written s stack id field) (hnext : field.next stack.length = some field') :
    Written (s.write stack s2 id field) stack id field' := by
  cases field with
  | id =>
    cases hnext
    rfl
  | hash =>
    cases hnext
    rw [StackDesc.write]
    exact ⟨h,rfl⟩
  | size =>
    cases hnext
    exact ⟨h.1,h.2,rfl,List.length_pos_iff.mpr hne,fun j hj => absurd hj (Nat.not_lt_zero j)⟩
  | word i =>
    obtain ⟨hid,hhash,hsize,hi,hwords⟩ := h
    have hwords' : ∀ j < i + 1, (s.write stack s2 id (.word i)).stack j = stack.getD j 0 := fun j hj => by
      dsimp only [StackDesc.write]
      by_cases he : j = i
      · rw [he,Function.update_self]
      · rw [Function.update_of_ne he]
        exact hwords j (by omega)
    simp only [Field.next] at hnext
    split at hnext
    · rename_i hlt
      cases hnext
      exact ⟨hid,hhash,hsize,hlt,hwords'⟩
    · cases hnext
      exact ⟨hid,hhash,hsize,trace_eq hsize fun j hj => hwords' j (by omega)⟩
  | link => cases hnext

theorem Written.last {s : StackDesc A} {s2 : ℕ} {field : Field} (h : Written s stack id field)
    (hnext : field.next stack.length = none) :
    (s.write stack s2 id field).id = id ∧ (s.write stack s2 id field).Holds stack ∧
      (s.write stack s2 id field).link = s2 := by
  cases field with
  | link => exact ⟨h.1,h.2,rfl⟩
  | word i =>
    simp only [Field.next] at hnext
    split at hnext <;> cases hnext
  | _ => cases hnext

/-! ## A step -/

/-- A step keeps the invariant, and what the thread and the others know. -/
def StepOk (d : Depot A) (γ : Account A Tid) (t : Tid) (d' : Depot A) (pc' : Pc A) : Prop :=
  ∃ γ', Good d' γ' ∧ Evolves t d γ d' γ' ∧ Knows d' γ' t pc'

theorem StepOk.same {pc' : Pc A} (hgood : Good d γ) (hk : Knows d γ t pc') : StepOk d γ t d pc' :=
  ⟨γ,hgood,Evolves.refl t d γ,hk⟩

theorem StepOk.put (hgood : Good d γ) (hfound : stack ≠ [] → FoundIn d.memory (γ.published (bucket stack)) stack id) :
    StepOk d γ t (d.put stack id) .idle :=
  ⟨γ,hgood.put hfound,(Evolves.refl t d γ).put stack id,trivial⟩

theorem StepOk.get {since : ℕ} {r : Option (Stack A)} (hgood : Good d γ) (hsince : since ≤ d.returned.length)
    (hr : ∀ stack, stack ≠ [] → (stack,id) ∈ d.returned.take since → r = some stack) :
    StepOk d γ t (d.get id since r) .idle :=
  ⟨γ,hgood.get hsince hr,{ Evolves.refl t d γ with },trivial⟩

theorem StepOk.die (hgood : Good d γ) : StepOk d γ t { d with died := true } .idle :=
  ⟨γ,⟨hgood.lists,hgood.space,hgood.returns,fun h => nomatch h⟩,{ Evolves.refl t d γ with },trivial⟩

theorem stepOf_ok {pc pc' : Pc A} (hlive : d.died = false) (hgood : Good d γ) (hk : Knows d γ t pc)
    (h : stepOf d pc = some (d',pc')) : StepOk d γ t d' pc' := by
  cases pc with
  | idle => cases h
  | alloc stack s2 id pc => cases h
  | load stack =>
    cases h
    exact StepOk.same hgood ⟨hk,Searching.start hgood⟩
  | find stack head s =>
    obtain ⟨hne,hsearching⟩ := hk
    simp only [stepOf] at h
    split at h
    · rename_i hs
      cases h
      subst hs
      exact StepOk.same hgood ⟨hne,hsearching.finish⟩
    · rename_i hs
      split at h
      · rename_i hholds
        cases h
        exact StepOk.put hgood fun _ => hsearching.found hs hholds
      · rename_i hnot
        cases h
        exact StepOk.same hgood ⟨hne,hsearching.next hs hnot⟩
  | lockLoad stack head =>
    simp only [stepOf] at h
    split at h
    · rename_i heven
      cases h
      exact StepOk.same hgood ⟨hk.1,hk.2,heven⟩
    · cases h
      exact StepOk.same hgood hk
  | lockCas stack head cmp =>
    obtain ⟨hne,hsearched,heven⟩ := hk
    simp only [stepOf] at h
    split at h
    · rename_i htab
      have hinserting := hgood.lists.inserting _ (hgood.holder_eq_none (htab.symm ▸ heven))
      have hevolves := Evolves.acquire (t := t) hgood htab heven
      have hlock := HasLock.of_acquire (d := d) (γ := γ) (t := t) (b := bucket stack) heven
      have hgood' := hgood.acquire (t := t) htab heven
      split at h
      · -- the list is still the one that was searched
        rename_i hhead
        cases h
        subst hhead
        exact ⟨_,hgood',hevolves,hne,hlock,hinserting,(hsearched.stable hevolves).absent (hlock.chain hgood')⟩
      · cases h
        refine ⟨_,hgood',hevolves,hne,hlock,hinserting,?_⟩
        have hchain := hlock.chain hgood'
        exact ⟨[],_,hchain,hchain,List.suffix_rfl,fun a ha => absurd ha List.not_mem_nil⟩
    · cases h
      exact StepOk.same hgood ⟨hne,hsearched⟩
  | findAgain stack s2 s =>
    obtain ⟨hne,hlock,hinserting,hsearching⟩ := hk
    simp only [stepOf] at h
    split at h
    · rename_i hs
      cases h
      subst hs
      exact StepOk.same hgood ⟨hne,hlock,hinserting,hsearching.finish.absent (hlock.chain hgood)⟩
    · rename_i hs
      split at h
      · rename_i hholds
        cases h
        exact StepOk.same hgood ⟨hlock,hinserting,hsearching.found hs hholds⟩
      · rename_i hnot
        cases h
        exact StepOk.same hgood ⟨hne,hlock,hinserting,hsearching.next hs hnot⟩
  | unlockFound stack s2 id =>
    obtain ⟨hlock,hinserting,hfound⟩ := hk
    cases h
    exact ⟨_,(hgood.release hlock hinserting).put fun _ => hfound,(Evolves.release hlock).put stack id,trivial⟩
  | fetchAdd stack s2 =>
    obtain ⟨hne,hlock,hinserting,habsent⟩ := hk
    simp only [stepOf] at h
    split at h
    · rename_i hcheck
      cases h
      refine ⟨_,hgood.issue hlive hne hlock hinserting habsent rfl hcheck.1,Evolves.issue hlock,?_,fun h => nomatch h⟩
      exact ⟨hne,hlock,Function.update_self ..,habsent⟩
    · cases h
      exact ⟨γ,hgood.die hlive rfl,{ Evolves.refl t d γ with },trivial⟩
  | write stack s2 id s field =>
    obtain ⟨hinserts,hnode,hwritten⟩ := hk
    have hgood' := hgood.write hnode ((d.memory s).write stack s2 id field)
    have hevolves := Evolves.write hgood hinserts.lock hnode ((d.memory s).write stack s2 id field)
    have habsent : AbsentIn (Function.update d.memory s ((d.memory s).write stack s2 id field))
        (γ.published (bucket stack)) stack := hevolves.absent List.suffix_rfl hinserts.absent
    have hinserts' : Inserts { d with memory := Function.update d.memory s ((d.memory s).write stack s2 id field) } γ t
        stack s2 id := ⟨hinserts.nonempty,hinserts.lock,hinserts.inserting,habsent⟩
    simp only [stepOf] at h
    split at h
    · rename_i field' hnext
      cases h
      refine ⟨γ,hgood',hevolves,hinserts',hnode,?_⟩
      dsimp only
      rw [Function.update_self]
      exact hwritten.next hinserts.nonempty hnext
    · rename_i hnext
      cases h
      refine ⟨γ,hgood',hevolves,hinserts',hnode,?_⟩
      dsimp only
      rw [Function.update_self]
      exact hwritten.last hnext
  | unlock stack s2 id s =>
    obtain ⟨hinserts,hnode,hid,hholds,hlink⟩ := hk
    cases h
    exact ⟨_,hgood.publish hinserts hnode hid hholds hlink,Evolves.publish hinserts,trivial⟩
  | get id since i =>
    obtain ⟨hi,hahead⟩ := hk
    simp only [stepOf] at h
    split at h
    · rename_i he
      cases h
      subst he
      exact StepOk.get hgood hahead.1 fun stack hne hmem => absurd hmem (hahead.finish hgood hne)
    · rename_i he
      split at h
      · cases h
        refine StepOk.same hgood ⟨by omega,hahead,_,hgood.lists.chain _,List.suffix_rfl,fun stack hne hmem hb => ?_⟩
        have hfound := (hahead.2 stack hne hmem).2
        rwa [hb] at hfound
      · cases h
        exact StepOk.die hgood
  | getFind id since i s =>
    obtain ⟨hi,hahead,rest,hchain,hsub,hrest⟩ := hk
    simp only [stepOf] at h
    split at h
    · rename_i hs
      cases h
      subst hs
      refine StepOk.same hgood ⟨hi,hahead.1,fun stack hne hmem => ?_⟩
      obtain ⟨hle,hfound⟩ := hahead.2 stack hne hmem
      refine ⟨Nat.lt_of_le_of_ne hle fun hb => ?_,hfound⟩
      obtain ⟨a,ha,-⟩ := hrest stack hne hmem hb.symm
      rw [hchain.eq_nil] at ha
      cases ha
    · rename_i hs
      obtain ⟨rest',rfl,hchain'⟩ := hchain.tail hs
      split at h
      · rename_i hid
        cases h
        refine StepOk.get hgood hahead.1 fun stack hne hmem => congrArg some ?_
        have hissued := (hgood.issued_of_found (hahead.2 stack hne hmem).2).1
        exact hgood.trace_eq (hsub.subset List.mem_cons_self) hid hissued
      · rename_i hid
        cases h
        refine StepOk.same hgood ⟨hi,hahead,rest',hchain',(List.suffix_cons s rest').trans hsub,
          fun stack hne hmem hb => ?_⟩
        obtain ⟨a,ha,hholds,haid⟩ := hrest stack hne hmem hb
        rcases List.mem_cons.mp ha with rfl | ha
        · exact absurd haid hid
        · exact ⟨a,ha,hholds,haid⟩

theorem next_ok {a : Action A} {pc pc' : Pc A} (hgood : Good d γ) (hk : Knows d γ t pc)
    (hfit : ∀ stack s2 id locked cmp last, pc = .alloc stack s2 id (.tryCas locked cmp last) → a = .step →
      d.regionPos = cmp → cmp + descBytes A stack.length ≤ d.regionEnd)
    (h : next t a d pc = some (d',pc')) : StepOk d γ t d' pc' := by
  unfold next at h
  split at h
  · cases h
  rename_i hdied
  have hlive : d.died = false := Bool.eq_false_of_not_eq_true hdied
  split at h
  · rename_i stack
    split at h
    · cases h
      exact StepOk.put hgood fun hne => absurd rfl hne
    · rename_i hne
      cases h
      exact StepOk.same hgood hne
  · rename_i id
    split at h
    · cases h
      refine StepOk.get hgood (Nat.le_refl _) fun stack hne hmem => ?_
      -- no stack is put with the id zero
      rw [List.take_length] at hmem
      obtain ⟨n,hpos,hmax,-,hid⟩ := hgood.lists.form _ (hgood.issued_of_found (hgood.returns.put _ hmem hne)).1
      exact absurd hid.symm (idOf_ne_zero (partOf_lt (bucket_lt _)) hmax hpos)
    · split at h
      · cases h
        have hahead := hgood.ahead id
        rw [← Nat.add_zero (base id)] at hahead
        exact StepOk.same hgood ⟨Nat.zero_le _,hahead⟩
      · cases h
        exact StepOk.die hgood
  · rename_i a stack s2 id pc
    obtain ⟨⟨d₁,r⟩,hr,heq⟩ := Option.map_eq_some_iff.mp h
    obtain ⟨hinserts,halloc⟩ := hk
    obtain ⟨γ',hgood',hevolves,hinserts',hpc,hnode⟩ := allocDesc_step hgood halloc
      (fun locked cmp last he => hfit stack s2 id locked cmp last (he ▸ rfl)) hr
    cases heq
    refine ⟨γ',hgood',hevolves,?_⟩
    cases r with
    | inl pc' => exact ⟨hinserts' _ _ _ hinserts,hpc pc' rfl⟩
    | inr s => exact ⟨hinserts' _ _ _ hinserts,hnode s rfl,trivial⟩
  · cases h
    exact StepOk.same hgood ⟨hk.1,hk.2.1⟩
  · exact stepOf_ok hlive hgood hk h
  · cases h

/-! ## Runs -/

section Runs
variable [DecidableEq Tid] {c c' : Threads A Tid}

/-- Published nodes stay, in the order they are in. -/
def Kept (c c' : Threads A Tid) : Prop :=
  ∀ b l, Chain (links c.shared.memory) (pointer (c.shared.tab b)) l →
    (∃ new, Chain (links c'.shared.memory) (pointer (c'.shared.tab b)) (new ++ l)) ∧
      ∀ a ∈ l, c'.shared.memory a = c.shared.memory a

def Invariant (c : Threads A Tid) (γ : Account A Tid) : Prop := Good c.shared γ ∧ ∀ t, Knows c.shared γ t (c.threads t)

/-- What was published is published later on, and has not changed. -/
def Grows (c : Threads A Tid) (γ : Account A Tid) (c' : Threads A Tid) (γ' : Account A Tid) : Prop :=
  ∀ b, γ.published b <:+ γ'.published b ∧ ∀ a ∈ γ.published b, c'.shared.memory a = c.shared.memory a

theorem step_ok {e : Tid × Action A} (hinv : Invariant c γ) (hfit : NotStale c e) (h : step c e = some c') :
    ∃ γ', Invariant c' γ' ∧ Grows c γ c' γ' := by
  obtain ⟨d',pc',hnext,rfl⟩ := Interleaving.step_eq_some h
  obtain ⟨hgood,hknows⟩ := hinv
  obtain ⟨γ',hgood',hevolves,hknows'⟩ := next_ok hgood (hknows e.1)
    (fun stack s2 id locked cmp last hpc ha => by
      rw [NotStale,hpc,ha] at hfit
      exact hfit) hnext
  refine ⟨γ',⟨hgood',fun u => ?_⟩,fun b => ⟨hevolves.published b,hevolves.memory b⟩⟩
  dsimp only
  by_cases hu : u = e.1
  · subst hu
    rw [Function.update_self]
    exact hknows'
  · rw [Function.update_of_ne hu]
    exact (hknows u).stable hevolves hu

theorem run_ok {es : List (Tid × Action A)} (hinv : Invariant c γ) (hfit : Transition.AllSteps step NotStale c es)
    (h : Transition.run step c es = some c') : ∃ γ', Invariant c' γ' ∧ Grows c γ c' γ' := by
  induction es generalizing c γ with
  | nil =>
    cases h
    exact ⟨γ,hinv,fun b => ⟨List.suffix_rfl,fun _ _ => rfl⟩⟩
  | cons e es ih =>
    rw [Transition.run_cons,Option.bind_eq_some_iff] at h
    obtain ⟨c₁,hstep,h⟩ := h
    obtain ⟨hfirst,hrest⟩ := hfit c₁ hstep
    obtain ⟨γ₁,hinv₁,hgrows₁⟩ := step_ok hinv hfirst hstep
    obtain ⟨γ₂,hinv₂,hgrows₂⟩ := ih hinv₁ hrest h
    refine ⟨γ₂,hinv₂,fun b => ⟨(hgrows₁ b).1.trans (hgrows₂ b).1,fun a ha => ?_⟩⟩
    rw [(hgrows₂ b).2 a ((hgrows₁ b).1.subset ha),(hgrows₁ b).2 a ha]

/-- Nothing is published at first. -/
def noAccount : Account A Tid := ⟨fun _ => [],fun _ => none,fun _ => none,[],fun _ => none,none⟩

omit [DecidableEq Tid] in
theorem start_ok (memory : ℕ → StackDesc A) : Invariant (start memory : Threads A Tid) noAccount := by
  refine ⟨⟨⟨fun _ => rfl,fun _ => iff_of_false (fun h => nomatch h) (fun h => nomatch h),fun _ _ => rfl,
    fun _ _ ha => (nomatch ha),fun _ _ ha => (nomatch ha),fun _ he => (nomatch he),fun _ _ he => (nomatch he),
    List.nodup_nil,List.nodup_nil,fun _ he => (nomatch he),fun _ he => nomatch he⟩,⟨rfl,fun _ _ h => (nomatch h),
    fun _ hx => (nomatch hx),List.Pairwise.nil,fun _ hr => (nomatch hr),fun h => absurd rfl h⟩,
    ⟨fun _ he => (nomatch he),fun _ hg => nomatch hg⟩,fun _ _ => (by decide : 0 < kMaxId)⟩,fun _ => trivial⟩

/-- What the callers of the depot rely on. -/
structure Safe (d : Depot A) : Prop where
  same : ∀ e ∈ d.returned, ∀ e' ∈ d.returned, e.1 ≠ [] → e'.1 ≠ [] → (e.2 = e'.2 ↔ e.1 = e'.1)
  id : ∀ e ∈ d.returned, e.1 ≠ [] → e.2 ≠ 0 ∧ e.2 &&& (1 <<< 31) = 0
  get : ∀ g ∈ d.got, ∀ stack, stack ≠ [] → (stack,g.id) ∈ d.returned.take g.since → g.result = some stack
  apart : d.allocated.Pairwise Apart

omit [DecidableEq Tid] in
theorem Good.safe (hgood : Good d γ) : Safe d := by
  have hissued : ∀ e ∈ d.returned, e.1 ≠ [] → e ∈ γ.issued := fun e he hne =>
    (hgood.issued_of_found (hgood.returns.put e he hne)).1
  refine ⟨fun e he e' he' hne hne' => ⟨fun h => ?_,fun h => ?_⟩,fun e he hne => ?_,
    fun g hg => (hgood.returns.get g hg).2,hgood.space.apart⟩
  · rw [List.inj_on_of_nodup_map hgood.lists.distinctIds (hissued e he hne) (hissued e' he' hne') h]
  · rw [List.inj_on_of_nodup_map hgood.lists.distinctStacks (hissued e he hne) (hissued e' he' hne') h]
  · obtain ⟨n,hpos,hmax,-,hid⟩ := hgood.lists.form e (hissued e he hne)
    rw [hid]
    exact ⟨idOf_ne_zero (partOf_lt (bucket_lt _)) hmax hpos,idOf_and (partOf_lt (bucket_lt _)) hmax⟩

omit [DecidableEq Tid] in
theorem Grows.kept {γ γ' : Account A Tid} (h : Grows c γ c' γ') (hinv : Invariant c γ) (hinv' : Invariant c' γ') :
    Kept c c' := by
  intro b l hl
  have hpublished : l = γ.published b := hl.unique (hinv.1.lists.chain b)
  subst hpublished
  obtain ⟨new,hnew⟩ := (h b).1
  refine ⟨⟨new,?_⟩,(h b).2⟩
  rw [hnew]
  exact hinv'.1.lists.chain b

/-- In every run in which no node is taken beyond the end of the current region, the depot is safe in every state, and
what was published in a state is still there in every later one. -/
theorem safe_of_run (memory : ℕ → StackDesc A) {es₁ es₂ : List (Tid × Action A)} {c₁ c₂ : Threads A Tid}
    (hfit₁ : Transition.AllSteps step NotStale (start memory) es₁) (hrun₁ : Transition.run step (start memory) es₁ = some c₁)
    (hfit₂ : Transition.AllSteps step NotStale c₁ es₂) (hrun₂ : Transition.run step c₁ es₂ = some c₂) :
    Safe c₁.shared ∧ Safe c₂.shared ∧ Kept c₁ c₂ := by
  obtain ⟨γ₁,hinv₁,-⟩ := run_ok (start_ok memory) hfit₁ hrun₁
  obtain ⟨γ₂,hinv₂,hgrows⟩ := run_ok hinv₁ hfit₂ hrun₂
  exact ⟨hinv₁.1.safe,hinv₂.1.safe,hgrows.kept hinv₁ hinv₂⟩

end Runs
def noNode : StackDesc .bits64 := ⟨0,0,0,0,fun _ => 0⟩

def steps (t n : ℕ) : List (ℕ × Action .bits64) := List.replicate n (t,.step)

/-- Two threads put the same stack. -/
def putTwice : List (ℕ × Action .bits64) :=
  [(0,.put [932]),(1,.put [932])] ++ steps 0 11 ++ [(0,.map 65536)] ++ steps 0 12 ++ steps 1 2

/-- Its id is looked up. -/
def lookUp : List (ℕ × Action .bits64) := (2,.get 436207617) :: steps 2 6

theorem putTwice_notStale : Transition.AllSteps step NotStale (start fun _ => noNode) putTwice := by
  decide +kernel

theorem lookUp_run : ((Transition.run step (start fun _ => noNode) putTwice).bind fun c =>
    (Transition.run step c lookUp).map fun _ => decide (Transition.AllSteps step NotStale c lookUp)) = some true := by
  decide +kernel

theorem safe_lookUp : ∃ c₁ c₂, Transition.run step (start fun _ => noNode) putTwice = some c₁ ∧
    Transition.run step c₁ lookUp = some c₂ ∧ Safe c₁.shared ∧ Safe c₂.shared ∧ Kept c₁ c₂ := by
  obtain ⟨c₁,hrun₁,h⟩ := Option.bind_eq_some_iff.mp lookUp_run
  obtain ⟨c₂,hrun₂,heq⟩ := Option.map_eq_some_iff.mp h
  have hfit : Transition.AllSteps step NotStale c₁ lookUp := of_decide_eq_true heq
  exact ⟨c₁,c₂,hrun₁,hrun₂,safe_of_run (fun _ => noNode) putTwice_notStale hrun₁ hfit hrun₂⟩

/-! ## A node in the place of another -/

/-- Thread 0 reads the position and the end of a region while it is empty. Thread 1 takes the first node there. A region
is mapped right below and filled by one node of thread 2, so that the position is what thread 0 expects. -/
def refilled : List (ℕ × Action .bits64) :=
  [(0,.put [1])] ++ steps 0 5 ++ [(1,.put [2])] ++ steps 1 11 ++ [(1,.map 131072)] ++ steps 1 2 ++ steps 0 2 ++
    steps 1 4 ++ [(2,.put (List.replicate 8189 0))] ++ steps 2 11 ++ [(2,.map 65536)] ++ steps 2 5 ++ steps 0 1

theorem refilled_run : ((Transition.run step (start fun _ => noNode) refilled).map fun c => c.shared.allocated) =
    some [(131072,32),(65536,65536),(131072,32)] := by
  decide +kernel

/-- Two nodes at one address. -/
theorem not_safe_refilled : ∃ c, Transition.run step (start fun _ => noNode) refilled = some c ∧
    c.shared.allocated = [(131072,32),(65536,65536),(131072,32)] ∧ ¬Safe c.shared := by
  obtain ⟨c,hrun,hallocated⟩ := Option.map_eq_some_iff.mp refilled_run
  refine ⟨c,hrun,hallocated,fun hsafe => ?_⟩
  have hapart := hsafe.apart
  rw [hallocated] at hapart
  have hoverlap := List.rel_of_pairwise_cons hapart (List.mem_cons_of_mem _ List.mem_cons_self)
  dsimp only [Apart] at hoverlap
  omega

end CompilerRt.StackDepot
