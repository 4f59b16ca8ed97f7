import CompilerRt.Tsan.Clocks

/-! # What a step leaves in the shadow

A slot keeps its word, is cleared, or gets the word of the access. The word that a race is reported against
was in the cell before the access.
-/
namespace CompilerRt.Tsan
open FastState Shadow VectorClock

/-- The old word is that of an access with which the access of `cur` races. -/
structure Races (thr : ThreadState) (kAccessSizeLog : ℕ) (kAccessIsWrite : Bool) (cur old : u64) : Prop where
  not_zero : IsZero old = false
  tids : TidsAreEqual old cur = false
  not_before : HappensBefore old thr = false
  not_reads : BothReads old kAccessIsWrite = false
  overlap : Addr0AndSizeAreEqual cur old = true ∨
    TwoRangesIntersect old cur ((1 : u64) <<< kAccessSizeLog) = true

/-- The row after one slot, in which the word may have been stored. -/
def Scan.row : Scan → Row
  | next row _ | same row | race row _ => row

section Scan
variable {cfg : Config} {thr : ThreadState} {n : ℕ} {w : Bool} {cur : u64}

theorem update_shadow_word_row (cfg : Config) (thr : ThreadState) (n : ℕ) (w : Bool) (cur : u64) (idx : ℕ) (row : Row) (word : u64) (i : ℕ) :
    (update_shadow_word cfg thr n w cur idx row word).row i = row i ∨
      (update_shadow_word cfg thr n w cur idx row word).row i = word := by
  have hstore : ∀ sp, (StoreIfNotYetStored row sp word).1 i = row i ∨ (StoreIfNotYetStored row sp word).1 i = word := by
    intro sp
    rcases eq_or_ne i sp with rfl | hi
    · exact Or.inr (Function.update_self ..)
    · exact Or.inl (Function.update_of_ne hi ..)
  unfold update_shadow_word
  dsimp only
  split_ifs <;> first | exact hstore _ | exact Or.inl rfl

theorem update_shadow_word_next {idx : ℕ} {row row' : Row} {word word' : u64}
    (h : update_shadow_word cfg thr n w cur idx row word = .next row' word') : word' = word ∨ word' = 0 := by
  unfold update_shadow_word at h
  dsimp only at h
  split_ifs at h <;> cases h <;> first | exact Or.inl rfl | exact Or.inr rfl

theorem update_shadow_word_race {idx : ℕ} {row row' : Row} {word old : u64}
    (h : update_shadow_word cfg thr n w cur idx row word = .race row' old) :
    Races thr n w cur old ∧ ∃ i, old = row i := by
  unfold update_shadow_word at h
  dsimp only at h
  split_ifs at h with h0 h1 h2 h3 h4 h5 h6 h7 h8 h9 h10 h11
  all_goals
    cases h
    simp only [Bool.not_eq_true] at *
  · exact ⟨⟨by assumption,by assumption,by assumption,by assumption,Or.inl (by assumption)⟩,_,rfl⟩
  · exact ⟨⟨by assumption,by assumption,by assumption,by assumption,Or.inr (by assumption)⟩,_,rfl⟩

theorem scan_row (idxs : List ℕ) (row : Row) {word : u64} (hw : word = cur ∨ word = 0) (i : ℕ) :
    (scan cfg thr n w cur idxs row word).1 i = row i ∨ (scan cfg thr n w cur idxs row word).1 i = cur ∨
      (scan cfg thr n w cur idxs row word).1 i = 0 := by
  induction idxs generalizing row word with
  | nil =>
    unfold scan
    split_ifs
    · exact Or.inl rfl
    · dsimp only
      rcases eq_or_ne i (epoch cur % cfg.kShadowCnt) with rfl | hi
      · rw [Function.update_self]
        exact Or.inr hw
      · exact Or.inl (Function.update_of_ne hi ..)
  | cons idx idxs ih =>
    have hrow := update_shadow_word_row cfg thr n w cur idx row word i
    unfold scan
    cases hu : update_shadow_word cfg thr n w cur idx row word with
    | next row' word' =>
      rw [hu] at hrow
      dsimp only [Scan.row] at hrow ⊢
      have hw' : word' = cur ∨ word' = 0 := by
        rcases update_shadow_word_next hu with rfl | rfl
        · exact hw
        · exact Or.inr rfl
      rcases ih row' hw' with hi | hi
      · rw [hi]
        rcases hrow with hrow | hrow
        · exact Or.inl hrow
        · exact Or.inr (hrow ▸ hw)
      · exact Or.inr hi
    | same row' =>
      rw [hu] at hrow
      dsimp only [Scan.row] at hrow ⊢
      rcases hrow with hrow | hrow
      · exact Or.inl hrow
      · exact Or.inr (hrow ▸ hw)
    | race row' old =>
      rw [hu] at hrow
      dsimp only [Scan.row] at hrow ⊢
      rcases hrow with hrow | hrow
      · exact Or.inl hrow
      · exact Or.inr (hrow ▸ hw)

theorem Races.ne_cur {old : u64} (h : Races thr n w cur old) : old ≠ cur := by
  rintro rfl
  have htids := h.tids
  rw [Bool.eq_false_iff, Ne, TidsAreEqual_iff] at htids
  exact htids rfl

theorem scan_race (idxs : List ℕ) {row : Row} {word old : u64} (hw : word = cur ∨ word = 0)
    (h : (scan cfg thr n w cur idxs row word).2 = some old) : Races thr n w cur old ∧ ∃ i, old = row i := by
  induction idxs generalizing row word with
  | nil =>
    unfold scan at h
    split_ifs at h
  | cons idx idxs ih =>
    have hrow := update_shadow_word_row cfg thr n w cur idx row word
    unfold scan at h
    cases hu : update_shadow_word cfg thr n w cur idx row word with
    | next row' word' =>
      rw [hu] at h hrow
      have hw' : word' = cur ∨ word' = 0 := by
        rcases update_shadow_word_next hu with rfl | rfl
        · exact hw
        · exact Or.inr rfl
      obtain ⟨hrace,i,hi⟩ := ih hw' h
      refine ⟨hrace,i,?_⟩
      -- a word that was stored on the way is of the thread itself, or zero
      rcases hrow i with hrow | hrow
      · exact hi.trans hrow
      · have hold : old = cur ∨ old = 0 := (hi.trans hrow) ▸ hw
        rcases hold with hold | hold
        · exact absurd hold hrace.ne_cur
        · have hz := hrace.not_zero
          rw [hold] at hz
          cases hz
    | same row' =>
      rw [hu] at h
      cases h
    | race row' old' =>
      rw [hu] at h
      cases h
      exact update_shadow_word_race hu

end Scan

/-! ## Steps -/

section Step
variable {cfg : Config} {s s' : State} {c : Clocks ℕ Obj} {t : ℕ}

theorem MemoryRangeSet_zero (shadow : ℕ → Row) (addr size cell i : ℕ) :
    MemoryRangeSet cfg shadow addr size 0 cell i = shadow cell i ∨ MemoryRangeSet cfg shadow addr size 0 cell i = 0 := by
  unfold MemoryRangeSet
  dsimp only
  split_ifs
  all_goals first | exact Or.inl rfl | skip
  all_goals
    dsimp only
    split_ifs
    all_goals first | exact Or.inl rfl | exact Or.inr (ite_self _)

theorem resetStackAndTls_shadow (s : State) (l : StackAndTls) (cell i : ℕ) :
    (resetStackAndTls cfg s l).shadow cell i = s.shadow cell i ∨ (resetStackAndTls cfg s l).shadow cell i = 0 := by
  have htrans : ∀ {f g h : ℕ → Row}, (f cell i = g cell i ∨ f cell i = 0) → (h cell i = f cell i ∨ h cell i = 0) →
      h cell i = g cell i ∨ h cell i = 0 := by
    intro f g h hf hh
    rcases hh with hh | hh
    · rw [hh]
      exact hf
    · exact Or.inr hh
  unfold resetStackAndTls MemoryResetRange
  dsimp only
  split_ifs
  · exact htrans (htrans (MemoryRangeSet_zero _ _ _ _ _) (MemoryRangeSet_zero _ _ _ _ _)) (MemoryRangeSet_zero _ _ _ _ _)
  · exact htrans (MemoryRangeSet_zero _ _ _ _ _) (MemoryRangeSet_zero _ _ _ _ _)
  · exact MemoryRangeSet_zero _ _ _ _ _
  · exact Or.inl rfl

/-- A part that is no access only clears slots. -/
theorem exec_shadow (h : Sim s c) {a : Act} (ha : ∀ addr n w, a ≠ .access addr n w) (he : a.exec cfg s t = some s')
    (cell i : ℕ) : s'.shadow cell i = s.shadow cell i ∨ s'.shadow cell i = 0 := by
  cases a with
  | access addr n w => exact absurd rfl (ha addr n w)
  | lock addr =>
    obtain ⟨thr,thr',v,-,-,-,rfl⟩ := lockSyncVar_eq_some he
    exact Or.inl rfl
  | unlock addr =>
    obtain ⟨thr,thr',-,-,⟨-,-,rfl⟩ | ⟨-,v,rfl,-⟩⟩ := unlockSyncVar_eq_some he
    · exact Or.inl rfl
    · exact Or.inl rfl
  | readLock addr =>
    obtain ⟨thr,thr',-,-,rfl⟩ := readLockSyncVar_eq_some he
    exact Or.inl rfl
  | readUnlock addr =>
    obtain ⟨thr,thr',-,-,rfl⟩ := readUnlockSyncVar_eq_some he
    exact Or.inl rfl
  | readOrWriteUnlock addr =>
    obtain ⟨thr,-,⟨-,he⟩ | ⟨-,-,he⟩ | ⟨-,-,v,rfl,-⟩⟩ := readOrWriteUnlockSyncVar_eq_some he
    · obtain ⟨thr,thr',-,-,rfl⟩ := readUnlockSyncVar_eq_some he
      exact Or.inl rfl
    · obtain ⟨thr,thr',-,-,⟨-,-,rfl⟩ | ⟨-,v,rfl,-⟩⟩ := unlockSyncVar_eq_some he
      · exact Or.inl rfl
      · exact Or.inl rfl
    · exact Or.inl rfl
  | acquire addr =>
    obtain ⟨thr,-,rfl⟩ := Acquire_eq_some he
    exact Or.inl rfl
  | acquireGlobal =>
    obtain ⟨thr,thr',-,-,-,-,-,rfl⟩ := AcquireGlobal_eq_some he
    exact Or.inl rfl
  | release addr =>
    obtain ⟨thr,-,rfl⟩ := Release_eq_some he
    exact Or.inl rfl
  | releaseStore addr =>
    obtain ⟨thr,-,rfl⟩ := ReleaseStore_eq_some he
    exact Or.inl rfl
  | create detached =>
    simp only [Act.exec, Option.pure_def, Option.bind_eq_bind, Option.bind_eq_some_iff] at he
    obtain ⟨⟨s₂,tid⟩,he,h₂⟩ := he
    cases h₂
    obtain ⟨s₁,tctx,thr,thr',-,-,-,-,-,-,-,-,-,hsh,-⟩ := pthread_create_eq_some he
    exact Or.inl (congrFun (congrFun hsh cell) i)
  | start l =>
    obtain ⟨tctx,x,-,-,-,-,-,-,hsh,-⟩ := ThreadStart_eq_some he
    rw [hsh]
    split_ifs
    · exact resetStackAndTls_shadow s l cell i
    · exact Or.inl rfl
  | finish =>
    obtain ⟨thr,tctx,-,-,-,-,-,hsh,-⟩ := ThreadFinish_eq_some he
    rw [hsh]
    exact resetStackAndTls_shadow s thr.layout cell i
  | join v =>
    obtain ⟨thr,tctx,-,-,hcore,⟨-,rfl⟩ | ⟨-,-,himp⟩⟩ := ThreadJoin_eq_some he
    · exact Or.inl rfl
    · obtain ⟨-,-,-,hsh,-⟩ := himp (h.context_tid v tctx hcore).1
      exact Or.inl (congrFun (congrFun hsh cell) i)
  | detach v =>
    obtain ⟨thr,tctx,-,-,hcore,⟨-,rfl⟩ | ⟨-,himp⟩ | ⟨-,-,-,-,hsh,-⟩⟩ := ThreadDetach_eq_some he
    · exact Or.inl rfl
    · obtain ⟨-,-,-,hsh,-⟩ := himp (h.context_tid v tctx hcore).1
      exact Or.inl (congrFun (congrFun hsh cell) i)
    · exact Or.inl (congrFun (congrFun hsh cell) i)

/-- An access puts at most its own word into the cell, and races with a word that was there. -/
theorem access_shadow (h : Sim s c) {addr n : ℕ} {w : Bool} {race : Option u64}
    (he : MemoryAccess cfg s t addr n w = some (s',race)) :
    ∃ thr thr' cur, s.thr t = some thr ∧ s'.thr t = some thr' ∧ thr'.clock = thr.clock ∧
      thr'.fast_synch_epoch = thr.fast_synch_epoch ∧
      IsWord cur t (c.thread t t + 1) w n (addr % 8) ∧
      (∀ cell i, s'.shadow cell i = s.shadow cell i ∨ s'.shadow cell i = 0 ∨
        cell = addr / kShadowCell ∧ s'.shadow cell i = cur) ∧
      ∀ old, race = some old → Races thr' n w cur old ∧ ∃ i, s.shadow (addr / kShadowCell) i = old := by
  obtain ⟨thr,hthr,⟨hb,-,-⟩ | ⟨thr',cur,cur',hi,hs,hw,rfl,hrace⟩⟩ := MemoryAccess_eq_some he
  · rw [(h.time t thr hthr).not_ignore] at hb
    cases hb
  obtain ⟨x,hx,rfl⟩ := incrementEpoch_eq_some hi
  have hfast := (h.time t thr hthr).incrementEpoch hx
  have hn : n ≤ 3 := by
    unfold SetAddr0AndSizeLog at hs
    split_ifs at hs with hc
    exact hc.2.2
  obtain ⟨y,z,hy,hz,hword⟩ := setAddr0AndSizeLog_setWrite hfast (Nat.lt_succ_iff.mp (Nat.mod_lt addr (by decide))) hn w
  rw [hs, Option.some.injEq] at hy
  subst hy
  rw [hw, Option.some.injEq] at hz
  subst hz
  refine ⟨thr,_,cur,hthr,State.thr_setThr_self _ hthr,rfl,rfl,hword,fun cell i => ?_,fun old hold => ?_⟩
  · rcases eq_or_ne cell (addr / kShadowCell) with rfl | hcell
    · change Function.update s.shadow _ _ _ i = _ ∨ Function.update s.shadow _ _ _ i = _ ∨
        _ ∧ Function.update s.shadow _ _ _ i = _
      rw [Function.update_self]
      rcases scan_row (List.range cfg.kShadowCnt) (s.shadow (addr / kShadowCell)) (Or.inl rfl) i with hr | hr | hr
      · exact Or.inl hr
      · exact Or.inr (Or.inr ⟨rfl,hr⟩)
      · exact Or.inr (Or.inl hr)
    · exact Or.inl (congrFun (Function.update_of_ne hcell _ s.shadow) i)
  · rw [hrace] at hold
    obtain ⟨hr,i,hi⟩ := scan_race _ (Or.inl rfl) hold
    exact ⟨hr,i,hi.symm⟩

end Step
end CompilerRt.Tsan
