import CompilerRt.Tsan.Scan
import CompilerRt.Tsan.Stamps

/-! # No false race

Every word in the shadow is the record of an access of the trace. When an access is reported to race with
such a word, neither of the two accesses happens before the other.
-/
namespace CompilerRt.Tsan
open FastState Shadow VectorClock

/-- The word `x` of a cell is the record of the event `e`. -/
def Records (cell : ℕ) (x : u64) (e : Event) : Prop :=
  ∃ addr n w, e.kind = .access addr n w (epoch x) ∧ addr / kShadowCell = cell ∧
    IsWord x e.thread.1 (epoch x) w n (addr % 8)

/-- Every word is the record of an access, whose epoch is the time of its thread in the stamp. -/
structure Recorded (M : Monitor) (vc : ℕ → ℕ → ℕ) : Prop where
  word : ∀ cell i, M.state.shadow cell i ≠ 0 →
    ∃ (p : ℕ) (e : Event), M.trace[p]? = some e ∧ Records cell (M.state.shadow cell i) e
  epoch : ∀ (p : ℕ) (e : Event) addr n w ep, M.trace[p]? = some e → e.kind = .access addr n w ep → vc p e.thread.1 = ep

section
variable {cfg : Config} {isMutex : ℕ → Bool} {M M' : Monitor} {c : Clocks ℕ Obj} {vc : ℕ → ℕ → ℕ} {t : ℕ}

theorem Recorded.step (h : Recorded M vc) (hst : Stamped isMutex M c vc) {a : Act}
    (hM : a.monitor cfg isMutex M t = some M') :
    Recorded M' (Function.update vc M.trace.length ((run c (a.actions M.state t)).thread t)) := by
  obtain ⟨s',m',k,he,hk,rfl⟩ := Act.monitor_eq_some hM
  have htimes := hst.times.exec he
  have hsub : ∀ {p : ℕ} {e : Event}, M.trace[p]? = some e →
      (M.trace ++ [⟨M.state.threadId t,k⟩])[p]? = some e := fun hp => getElem?_concat_eq_some.mpr (Or.inl hp)
  constructor
  · intro cell i hne
    dsimp only at hne ⊢
    have hkept : s'.shadow cell i = M.state.shadow cell i →
        ∃ (p : ℕ) (e : Event), (M.trace ++ [⟨M.state.threadId t,k⟩])[p]? = some e ∧ Records cell (s'.shadow cell i) e := by
      intro heq
      rw [heq] at hne ⊢
      obtain ⟨p,e,hp,hr⟩ := h.word cell i hne
      exact ⟨p,e,hsub hp,hr⟩
    by_cases ha : ∃ addr n w, a = .access addr n w
    · obtain ⟨addr,n,w,rfl⟩ := ha
      have hexec := he
      simp only [Act.exec, Option.pure_def, Option.bind_eq_bind, Option.bind_eq_some_iff] at he
      obtain ⟨⟨s₁,race⟩,he,h₁⟩ := he
      cases h₁
      obtain ⟨thr,thr',cur,-,hthr',-,-,hword,hsh,-⟩ := access_shadow hst.times.toSim he
      rcases hsh cell i with heq | hzero | ⟨rfl,heq⟩
      · exact hkept heq
      · exact absurd hzero hne
      · cases hk with
        | access =>
          refine ⟨_,_,getElem?_concat_eq_some.mpr (Or.inr ⟨rfl,rfl⟩),addr,n,w,?_,rfl,?_⟩
          · dsimp only
            rw [heq, hword.epoch, State.accessKind, hthr', Option.map_some, Option.getD_some,
              (htimes.time t thr' hthr').isWord.epoch]
            simp [Act.actions, Action.apply]
          · rw [heq, hword.epoch]
            exact hword
        | writeUnlock _ _ _ ha => rcases ha with ha | ha <;> cases ha
        | readUnlock _ _ _ ha => rcases ha with ha | ha <;> cases ha
    · have ha' : ∀ addr n w, a ≠ .access addr n w := fun addr n w heq => ha ⟨addr,n,w,heq⟩
      rcases exec_shadow hst.times.toSim ha' he cell i with heq | hzero
      · exact hkept heq
      · exact absurd hzero hne
  · intro p e addr n w ep hp hkind
    rcases getElem?_concat_eq_some.mp hp with hp | ⟨rfl,rfl⟩
    · rw [Function.update_of_ne (lt_length_of_getElem? hp).ne]
      exact h.epoch p e addr n w ep hp hkind
    · rw [Function.update_self]
      cases hk with
      | access addr' n' w' =>
        simp only [Act.exec, Option.pure_def, Option.bind_eq_bind, Option.bind_eq_some_iff] at he
        obtain ⟨⟨s₁,race⟩,he,h₁⟩ := he
        cases h₁
        obtain ⟨thr,thr',cur,-,hthr',-⟩ := access_shadow hst.times.toSim he
        dsimp only at hkind
        rw [State.accessKind, hthr', Option.map_some, Option.getD_some,
          (htimes.time t thr' hthr').isWord.epoch] at hkind
        cases hkind
        rfl
      | _ => cases hkind

theorem shadow_init {l : StackAndTls} {s : State} (h : Initialize cfg l = some s) (cell i : ℕ) :
    s.shadow cell i = 0 := by
  obtain ⟨tctx,x,-,-,-,-,-,-,hsh,-⟩ := ThreadStart_eq_some (Initialize_eq_some h)
  rw [hsh, if_neg (not_not.mpr rfl)]
  rfl

theorem Reachable.recorded (h : Reachable cfg isMutex M) : ∃ c vc, Stamped isMutex M c vc ∧ Recorded M vc := by
  refine h.parts (P := fun M => ∃ c vc, Stamped isMutex M c vc ∧ Recorded M vc) (fun l s hl => ?_)
    fun M M' t a hM ha => ?_
  · obtain ⟨c,hc⟩ := stamped_init hl
    refine ⟨c,_,hc,fun cell i hne => absurd (shadow_init hl cell i) hne,fun p e addr n w ep hp => ?_⟩
    cases hp
  · obtain ⟨c,vc,hc,hr⟩ := hM
    exact ⟨_,_,hc.step ha,hr.step hc ha⟩

/-- If an access is reported to race with an old word, the word is the record of an access by another thread to
an overlapping range, one of the two is a write, and neither happens before the other. -/
theorem no_false_race (h : Reachable cfg isMutex M) {addr n : ℕ} {w : Bool} {s' : State} {old : u64}
    (he : MemoryAccess cfg M.state t addr n w = some (s',some old)) :
    ∃ (i : ℕ) (e : Event) (addr' n' : ℕ) (w' : Bool), M.trace[i]? = some e ∧ e.kind = .access addr' n' w' (epoch old) ∧ e.thread.1 = tid old ∧
      e.thread ≠ M.state.threadId t ∧ addr' < addr + 2^n ∧ addr < addr' + 2^n' ∧ (w = true ∨ w' = true) ∧
      ¬ Precedes (M.trace ++ [⟨M.state.threadId t,s'.accessKind t addr n w⟩]) i M.trace.length ∧
      ¬ Precedes (M.trace ++ [⟨M.state.threadId t,s'.accessKind t addr n w⟩]) M.trace.length i := by
  obtain ⟨c,vc,hst,hrec⟩ := h.recorded
  obtain ⟨thr,thr',cur,hthr,-,hclock,-,hword,-,hrace⟩ := access_shadow hst.times.toSim he
  obtain ⟨hr,slot,hslot⟩ := hrace old rfl
  have hne : M.state.shadow (addr / kShadowCell) slot ≠ 0 := by
    rw [hslot]
    intro h0
    have hz := hr.not_zero
    rw [h0] at hz
    cases hz
  obtain ⟨p,e,hp,addr',n',w',hkind,hcell,hold⟩ := hrec.word _ slot hne
  rw [hslot] at hkind hold
  have htid : e.thread.1 ≠ t := by
    have htids := hr.tids
    rwa [Bool.eq_false_iff, Ne, TidsAreEqual_iff, hold.tid, hword.tid] at htids
  have hrange : addr' < addr + 2^n ∧ addr < addr' + 2^n' := by
    have hpos := Nat.two_pow_pos n
    have hdiv := Nat.div_add_mod addr kShadowCell
    have hdiv' := Nat.div_add_mod addr' kShadowCell
    rw [hcell] at hdiv'
    rcases hr.overlap with heq | hint
    · obtain ⟨hoff,rfl⟩ := (Addr0AndSizeAreEqual_iff hword hold).mp heq
      change addr % kShadowCell = addr' % kShadowCell at hoff
      omega
    · have hsize := hword.toNat_size
      rw [Shadow.size, hword.size_log] at hsize
      have hoff := (TwoRangesIntersect_iff hold hword hsize).mp hint
      change addr' % kShadowCell < addr % kShadowCell + _ ∧ addr % kShadowCell < addr' % kShadowCell + _ at hoff
      omega
  have hwrite : w = true ∨ w' = true := by
    have hreads := hr.not_reads
    rw [BothReads, hold.is_write] at hreads
    cases w
    · exact Or.inr (by simpa using hreads)
    · exact Or.inl rfl
  refine ⟨p,e,addr',n',w',hp,hkind,hold.tid.symm,fun heq => htid (congrArg Prod.fst heq),hrange.1,hrange.2,hwrite,?_,?_⟩
  · intro hpre
    have hM : (Act.access addr n w).monitor cfg isMutex M t =
        some ⟨s',M.mutexes,M.trace ++ [⟨M.state.threadId t,s'.accessKind t addr n w⟩]⟩ := by
      rw [Act.monitor, Act.exec, he]
      rfl
    have hle := (hst.step hM).le_of_precedes hpre e.thread.1
    have hknown : thr'.clock.get e.thread.1 = c.thread t e.thread.1 := by
      rw [hclock]
      exact hst.times.thread t thr hthr _ htid
    have hbefore := hr.not_before
    rw [HappensBefore, hold.tid, hknown, decide_eq_false_iff_not] at hbefore
    rw [Function.update_of_ne (lt_length_of_getElem? hp).ne, Function.update_self,
      hrec.epoch p e addr' n' w' _ hp hkind] at hle
    simp only [Act.actions, run_cons, run_nil, Action.apply, Clocks.setThread_thread_self,
      Action.own_of_ne _ _ htid] at hle
    exact hbefore hle
  · intro hpre
    exact absurd hpre.lt (lt_length_of_getElem? hp).not_gt

/-- A thread is created and writes, and then its creator writes to the same place. -/
def twoWrites (cfg : Config) : Option (Monitor × State × u64) := do
  let l : StackAndTls := ⟨0,0,0,0,0,0⟩
  let s ← Initialize cfg l
  let M ← Op.monitors cfg (fun _ => false) ⟨s,fun _ => .free,[]⟩
    [(0,.ThreadCreate false),(1,.ThreadStart l),(1,.MemoryAccess 64 3 true)]
  let (s',race) ← MemoryAccess cfg M.state 0 64 3 true
  return (M,s',← race)

theorem twoWrites_isSome : (twoWrites fourSlots).isSome = true := by decide +kernel

theorem no_false_race_twoWrites : ∃ (M : Monitor) (s' : State) (old : u64),
    Reachable fourSlots (fun _ => false) M ∧ MemoryAccess fourSlots M.state 0 64 3 true = some (s',some old) ∧
    ∃ (i : ℕ) (e : Event) (addr' n' : ℕ) (w' : Bool), M.trace[i]? = some e ∧
      e.kind = .access addr' n' w' (epoch old) ∧ e.thread.1 = tid old ∧
      e.thread ≠ M.state.threadId 0 ∧ addr' < 64 + 2^3 ∧ 64 < addr' + 2^n' ∧ (true = true ∨ w' = true) ∧
      ¬ Precedes (M.trace ++ [⟨M.state.threadId 0,s'.accessKind 0 64 3 true⟩]) i M.trace.length ∧
      ¬ Precedes (M.trace ++ [⟨M.state.threadId 0,s'.accessKind 0 64 3 true⟩]) M.trace.length i := by
  obtain ⟨⟨M,s',old⟩,h⟩ := Option.isSome_iff_exists.mp twoWrites_isSome
  simp only [twoWrites, Option.pure_def, Option.bind_eq_bind, Option.bind_eq_some_iff] at h
  obtain ⟨s,hs,M₁,hM,⟨s₁,race⟩,he,x,hx,h⟩ := h
  cases h
  dsimp only at hx
  subst hx
  have hreach : Reachable fourSlots (fun _ => false) _ := (Reachable.init hs).ops hM
  exact ⟨_,_,_,hreach,he,no_false_race hreach he⟩

end
end CompilerRt.Tsan
