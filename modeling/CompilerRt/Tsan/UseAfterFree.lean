import CompilerRt.Tsan.Freed

/-! # Accesses to freed cells

A freed cell holds one word, whose id is that of no thread and which no clock knows. Every access that looks
at the cell finds it, and no way out of the scan is open.
-/
namespace CompilerRt.Tsan
open FastState Shadow

/-- `x` is the word of a free by thread `u` at epoch `e`. -/
def IsFreed (x : u64) (u e : ℕ) : Prop := u < kMaxTid ∧ 0 < e ∧ e < 2^kClkBits ∧ x.toNat = packed u e true 3 0 + 2^63

section Word
variable {x cur : u64} {u e t e' n off : ℕ} {w : Bool} {thr : ThreadState}

theorem isFreed_freedWord (h : IsFast x u e) (h0 : 0 < e) : IsFreed (Freed.freedWord x) u e := by
  have hword := Release.isWord_access h (Nat.zero_le 7) (le_refl 3) true
  refine ⟨h.1,h0,h.2.1,?_⟩
  rw [Freed.freedWord, Release.markAsFreed_comm, Release.toNat_markAsFreed hword.lt, hword.2.2.2.2]

theorem IsFreed.tid (h : IsFreed x u e) : FastState.tid x = kMaxTid + u := by
  obtain ⟨hu,-,he,hx⟩ := h
  change u < 2^13 at hu
  change e < 2^43 at he
  unfold packed at hx
  simp only [Bool.toNat_true] at hx
  rw [tid_eq]
  change _ = 2^13 + u
  omega

theorem IsFreed.epoch (h : IsFreed x u e) : FastState.epoch x = e := by
  obtain ⟨hu,-,he,hx⟩ := h
  change u < 2^13 at hu
  change e < 2^43 at he
  unfold packed at hx
  simp only [Bool.toNat_true] at hx
  rw [epoch_eq]
  omega

theorem IsFreed.is_write (h : IsFreed x u e) : Shadow.is_write x = true := by
  obtain ⟨-,-,-,hx⟩ := h
  unfold packed at hx
  simp only [Bool.toNat_true] at hx
  rw [is_write_eq, decide_eq_true_eq]
  omega

/-- The freed bit does not matter to the comparison of the ranges. -/
theorem TwoRangesIntersect_congr {x y : u64} (h : x.toNat % 32 = y.toNat % 32) (cur kS2AccessSize : u64) :
    TwoRangesIntersect x cur kS2AccessSize = TwoRangesIntersect y cur kS2AccessSize := by
  have haddr : addr0 x = addr0 y := by
    refine BitVec.eq_of_toNat_eq ?_
    rw [toNat_addr0, toNat_addr0]
    omega
  have hsize : size x = size y := by
    have hlog : size_log x = size_log y := by
      rw [size_log_eq, size_log_eq]
      omega
    rw [size, size, hlog]
  rw [TwoRangesIntersect, TwoRangesIntersect, haddr, hsize]

/-- The word of a free is about the whole cell, so that it intersects with every access. -/
theorem IsFreed.intersects (h : IsFreed x u e) (hcur : IsWord cur t e' w n off) :
    TwoRangesIntersect x cur ((1 : u64) <<< n) = true := by
  have hn := hcur.2.2.1
  have ho := hcur.2.2.2.1
  have hsize : ((1 : u64) <<< n).toNat = 2^n := by
    interval_cases n <;> rfl
  -- a word with the same low bits and no freed bit
  let y : u64 := BitVec.ofNat 64 (packed 0 0 true 3 0)
  have hy : IsWord y 0 0 true 3 0 := ⟨by decide,by decide,le_rfl,Nat.zero_le 7,rfl⟩
  have hlow : x.toNat % 32 = y.toNat % 32 := by
    rw [h.2.2.2, hy.2.2.2.2]
    unfold packed
    simp only [Bool.toNat_true]
    omega
  rw [TwoRangesIntersect_congr hlow, TwoRangesIntersect_iff hy hcur hsize]
  have hp := Nat.two_pow_pos n
  omega

/-- Whatever the clock knows of the threads, the access races with the free. -/
theorem IsFreed.races (h : IsFreed x u e) (hcur : IsWord cur t e' w n off) (hclk : HighZero thr.clock.clk_) :
    Races thr n w cur x where
  not_zero := by
    rw [IsZero, beq_eq_false_iff_ne]
    rintro rfl
    have h0 := h.2.2.2
    change 0 = _ at h0
    omega
  tids := by
    rw [Bool.eq_false_iff, Ne, TidsAreEqual_iff, h.tid, hcur.tid]
    have := hcur.1
    omega
  not_before := by
    have h0 := h.2.1
    rw [HappensBefore, h.epoch, h.tid, ThreadClock.get, hclk _ (Nat.le_add_right _ _), decide_eq_false_iff_not]
    omega
  not_reads := by
    rw [BothReads, h.is_write]
    exact Bool.and_false _
  overlap := Or.inr (h.intersects hcur)

end Word

/-! ## The scan of a freed cell -/

section Scan
variable {cfg : Config} {thr : ThreadState} {n : ℕ} {w : Bool} {cur old : u64}

theorem Races.update_shadow_word (h : Races thr n w cur old) {idx : ℕ} {row : Row}
    (hrow : row ((idx + ComputeSearchOffset cur) % cfg.kShadowCnt) = old) (store_word : u64) :
    Tsan.update_shadow_word cfg thr n w cur idx row store_word = .race row old := by
  subst hrow
  unfold Tsan.update_shadow_word
  dsimp only
  rw [h.not_zero, h.tids, h.not_before, h.not_reads]
  rcases h.overlap with hov | hov
  · rw [hov]
    rfl
  · rw [hov]
    cases Addr0AndSizeAreEqual cur (row ((idx + ComputeSearchOffset cur) % cfg.kShadowCnt)) <;> rfl

/-- An empty slot may take the word, and the scan goes on. -/
theorem update_shadow_word_zero {idx : ℕ} {row : Row}
    (hrow : row ((idx + ComputeSearchOffset cur) % cfg.kShadowCnt) = 0) (store_word : u64) :
    ∃ row' word', update_shadow_word cfg thr n w cur idx row store_word = .next row' word' ∧
      ∀ i, i ≠ (idx + ComputeSearchOffset cur) % cfg.kShadowCnt → row' i = row i := by
  unfold update_shadow_word
  dsimp only
  have hz : IsZero (0 : u64) = true := rfl
  rw [hrow, hz, if_pos rfl]
  split_ifs
  · exact ⟨_,_,rfl,fun i hi => Function.update_of_ne hi _ _⟩
  · exact ⟨_,_,rfl,fun _ _ => rfl⟩

/-- The scan passes the empty slots until it comes to the slot with the word. -/
theorem scan_single (h : Races thr n w cur old) {idxs : List ℕ} {row : Row} (store_word : u64) (h0 : row 0 = old)
    (hzero : ∀ idx ∈ idxs, (idx + ComputeSearchOffset cur) % cfg.kShadowCnt ≠ 0 →
      row ((idx + ComputeSearchOffset cur) % cfg.kShadowCnt) = 0)
    (hnodup : (idxs.map fun idx => (idx + ComputeSearchOffset cur) % cfg.kShadowCnt).Nodup)
    (hmem : ∃ idx ∈ idxs, (idx + ComputeSearchOffset cur) % cfg.kShadowCnt = 0) :
    (scan cfg thr n w cur idxs row store_word).2 = some old := by
  induction idxs generalizing row store_word with
  | nil =>
    obtain ⟨idx,hidx,-⟩ := hmem
    cases hidx
  | cons idx idxs ih =>
    rw [List.map_cons, List.nodup_cons] at hnodup
    unfold scan
    by_cases hsp : (idx + ComputeSearchOffset cur) % cfg.kShadowCnt = 0
    · rw [h.update_shadow_word (by rw [hsp, h0])]
    · obtain ⟨row',word',hnext,hother⟩ := @update_shadow_word_zero cfg thr n w cur idx row
        (hzero idx List.mem_cons_self hsp) store_word
      rw [hnext]
      refine ih word' ((hother 0 (Ne.symm hsp)).trans h0) (fun j hj hne => ?_) hnodup.2 ?_
      · -- the slots of the rest are others than the one that may have been filled
        have hj' : (j + ComputeSearchOffset cur) % cfg.kShadowCnt ≠ (idx + ComputeSearchOffset cur) % cfg.kShadowCnt :=
          fun he => hnodup.1 (List.mem_map.mpr ⟨j,hj,he⟩)
        rw [hother _ hj']
        exact hzero j (List.mem_cons_of_mem _ hj) hne
      · obtain ⟨j,hj,hjz⟩ := hmem
        rcases List.mem_cons.mp hj with rfl | hj
        · exact absurd hjz hsp
        · exact ⟨j,hj,hjz⟩

theorem slots_nodup (cfg : Config) (off : ℕ) :
    ((List.range cfg.kShadowCnt).map fun idx => (idx + off) % cfg.kShadowCnt).Nodup := by
  refine List.Nodup.map_on (fun i hi j hj he => ?_) List.nodup_range
  rw [List.mem_range] at hi hj
  rcases cfg.kShadowCnt_eq with h | h | h
  all_goals
    rw [h] at hi hj he
    omega

theorem slots_zero (cfg : Config) (off : ℕ) : ∃ idx ∈ List.range cfg.kShadowCnt, (idx + off) % cfg.kShadowCnt = 0 := by
  refine ⟨(cfg.kShadowCnt - off % cfg.kShadowCnt) % cfg.kShadowCnt,?_,?_⟩
  · rw [List.mem_range]
    rcases cfg.kShadowCnt_eq with h | h | h
    all_goals
      rw [h]
      omega
  · rcases cfg.kShadowCnt_eq with h | h | h
    all_goals
      rw [h]
      omega

/-- An access to a cell with one word that it races with finds this word. -/
theorem MemoryAccessImpl_single (h : Races thr n w cur old) {row : Row} (hrow : row = fun i => if i = 0 then old else 0) :
    (MemoryAccessImpl cfg thr n w cur row).2 = some old := by
  subst hrow
  refine scan_single h cur (if_pos rfl) (fun idx _ hne => if_neg hne) (slots_nodup cfg _) (slots_zero cfg _)

end Scan

/-! ## Runs -/

namespace Freed
variable {cfg : Config}

/-- A range freed by a thread that does not ignore accesses has the word of the free in its cells. -/
theorem freed_row {S S' : State} (h : S.base.Bounded) {u addr size cell : ℕ} (hign : ¬ S.base.Ignores u)
    (he : step cfg S (u,.MemoryRangeFreed addr size) = some S') (hcell : Sets cfg addr size cell) :
    ∃ x e, IsFreed x u e ∧ S'.base.shadow cell = fun i => if i = 0 then x else 0 := by
  obtain ⟨b,hb,rfl⟩ := Option.map_eq_some_iff.mp he
  obtain ⟨s₁,thr₁,hs₁,hthr₁,rfl⟩ := MemoryRangeFreed_eq_some hb
  obtain ⟨thr,hthr,⟨hno,-⟩ | ⟨-,hclear,thr',hi,rfl⟩⟩ := MemoryAccessRange_eq_some hs₁
  · rcases hno with hno | hno
    · exact absurd hno hcell.size_ne_zero
    · exact absurd ⟨thr,hthr,hno⟩ hign
  have hself : (S.base.setThr u thr').thr u = some thr' := State.thr_setThr_self _ hthr
  have heq : thr₁ = thr' := Option.some.inj (hthr₁.symm.trans hself)
  subst heq
  obtain ⟨x,hx,rfl⟩ := incrementEpoch_eq_some hi
  obtain ⟨e,hword⟩ := (h.running hthr).word
  have hfast := (hword.isFast hclear).incrementEpoch hx
  exact ⟨_,e + 1,isFreed_freedWord hfast (Nat.succ_pos e),(rangeSet_eq cfg _ addr size _ cell).trans (if_pos hcell)⟩

/-- What an access by a thread that does not ignore accesses does to a freed cell. -/
theorem access_freed {s : Tsan.State} (h : s.Bounded) {t addr n : ℕ} {w : Bool} {thr : ThreadState} {x : u64} {u e : ℕ}
    (hthr : s.thr t = some thr) (hclear : GetIgnoreBit thr.fast_state = false) (hn : n ≤ 3) (hx : IsFreed x u e)
    (hrow : s.shadow (addr / kShadowCell) = fun i => if i = 0 then x else 0) :
    (∀ r, MemoryAccess cfg s t addr n w = some r → r.2 = some x) ∧
      (epoch thr.fast_state + 1 < 2^kClkBits → ∃ s', MemoryAccess cfg s t addr n w = some (s',some x)) := by
  have hb := h.running hthr
  obtain ⟨e',hword⟩ := hb.word
  have hfast := hword.isFast hclear
  have hrace : ∀ y cur, IsWord cur t (e' + 1) w n (addr % 8) →
      (MemoryAccessImpl cfg { thr with fast_state := y } n w cur (s.shadow (addr / kShadowCell))).2 = some x := by
    intro y cur hcur
    have hr : Races { thr with fast_state := y } n w cur x := hx.races hcur hb.clock
    exact MemoryAccessImpl_single hr hrow
  have hoff : addr % 8 ≤ 7 := Nat.lt_succ_iff.mp (Nat.mod_lt addr (by decide))
  have hsome : ∀ y, IncrementEpoch thr.fast_state = some y → ∃ s', MemoryAccess cfg s t addr n w = some (s',some x) := by
    intro y hy
    obtain ⟨z,cur,hz,hcur,hisword⟩ := setAddr0AndSizeLog_setWrite (hfast.incrementEpoch hy) hoff hn w
    refine ⟨(s.setThr t { thr with fast_state := y }).setRow (addr / kShadowCell)
      (MemoryAccessImpl cfg { thr with fast_state := y } n w cur (s.shadow (addr / kShadowCell))).1,?_⟩
    rw [← hrace y cur hisword]
    simp only [MemoryAccess, hthr, hclear, hy, hz, hcur, Option.bind_eq_bind, Option.bind_some, Option.pure_def,
      Bool.false_eq_true, if_false]
  refine ⟨fun r hr => ?_,fun hlt => ?_⟩
  · obtain ⟨s',race⟩ := r
    obtain ⟨thr₀,hthr₀,⟨hbit,-⟩ | ⟨thr',-,-,hi,-⟩⟩ := MemoryAccess_eq_some hr
    · rw [hthr, Option.some.injEq] at hthr₀
      rw [← hthr₀, hclear] at hbit
      cases hbit
    · rw [hthr, Option.some.injEq] at hthr₀
      subst hthr₀
      obtain ⟨y,hy,-⟩ := incrementEpoch_eq_some hi
      obtain ⟨s₂,hs₂⟩ := hsome y hy
      rw [hr, Option.some.injEq] at hs₂
      rw [hs₂]
  · rw [hword.epoch] at hlt
    obtain ⟨y,hy⟩ := hfast.incrementEpoch_isSome hlt
    exact hsome y hy

/-- In every run from `Initialize`, a cell that a thread has freed while it did not ignore accesses keeps the word of
the free until it is touched, and the next access to it by a thread that does not ignore accesses, of any size and with
any clock, races with this word. -/
theorem use_after_free {l : StackAndTls} {S₀ S₁ S₂ S₃ : State} {ops ops' : List (ℕ × Op)} {u addr size cell : ℕ}
    (hinit : init cfg l = some S₀) (hrun : Transition.run (step cfg) S₀ ops = some S₁) (hign : ¬ S₁.base.Ignores u)
    (hfree : step cfg S₁ (u,.MemoryRangeFreed addr size) = some S₂) (hcell : Sets cfg addr size cell)
    (hrun' : Transition.run (step cfg) S₂ ops' = some S₃)
    (hno : Transition.AllSteps (step cfg) (fun S op => ¬ Touches cfg S op cell) S₂ ops') :
    ∃ x e, IsFreed x u e ∧ S₂.base.shadow cell 0 = x ∧
      ∀ t thr addr' n w, S₃.base.thr t = some thr → GetIgnoreBit thr.fast_state = false → addr' / kShadowCell = cell →
        n ≤ 3 →
        (∀ r, MemoryAccess cfg S₃.base t addr' n w = some r → r.2 = some x) ∧
          (epoch thr.fast_state + 1 < 2^kClkBits → ∃ s, MemoryAccess cfg S₃.base t addr' n w = some (s,some x)) := by
  have hb₁ := bounded_run hinit hrun
  have hb₂ := bounded_step hb₁ hfree
  have hb₃ : S₃.base.Bounded :=
    Transition.run_inv (I := fun S => S.base.Bounded) (fun _ _ _ h he => bounded_step h he) hb₂ hrun'
  obtain ⟨x,e,hx,hrow⟩ := freed_row hb₁ hign hfree hcell
  have hkept := run_shadow_eq hb₂ hno hrun'
  refine ⟨x,e,hx,congrFun hrow 0,fun t thr addr' n w hthr hclear haddr hn => ?_⟩
  exact access_freed hb₃ hthr hclear hn hx (by rw [haddr, hkept, hrow])

/-- Thread 0 ignores accesses for a while, frees two cells and writes to the first one. -/
def freeTwo (cfg : Config) : Option (State × State × State × State × ThreadState × ThreadState) := do
  let S₀ ← init cfg ⟨0,0,0,0,0,0⟩
  let S₁ ← Transition.run (step cfg) S₀ [(0,.IgnoreCtl true),(0,.MemoryAccessRange 64 8 false),(0,.IgnoreCtl false)]
  let thr₁ ← S₁.base.thr 0
  let S₂ ← step cfg S₁ (0,.MemoryRangeFreed 64 8)
  let S₃ ← Transition.run (step cfg) S₂ [(0,.MemoryRangeFreed 128 8)]
  let thr₃ ← S₃.base.thr 0
  if GetIgnoreBit thr₁.fast_state = false ∧ GetIgnoreBit thr₃.fast_state = false ∧
      epoch thr₃.fast_state + 1 < 2^kClkBits then some (S₀,S₁,S₂,S₃,thr₁,thr₃)
  else none

theorem freeTwo_isSome : (freeTwo fourSlots).isSome = true := by decide +kernel

theorem use_after_free_freeTwo : ∃ S₃ x e s, IsFreed x 0 e ∧
    MemoryAccess fourSlots (State.base S₃) 0 64 3 true = some (s,some x) := by
  obtain ⟨r,h⟩ := Option.isSome_iff_exists.mp freeTwo_isSome
  simp only [freeTwo, Option.bind_eq_bind, Option.bind_eq_some_iff] at h
  obtain ⟨S₀,hinit,S₁,hrun,thr₁,hthr₁,S₂,hfree,S₃,hrun',thr₃,hthr₃,h⟩ := h
  split_ifs at h with hbits
  have hign : ¬ S₁.base.Ignores 0 := by
    rintro ⟨thr,hthr,hset⟩
    rw [hthr₁, Option.some.injEq] at hthr
    rw [← hthr, hbits.1] at hset
    cases hset
  have hno : Transition.AllSteps (step fourSlots) (fun S op => ¬ Touches fourSlots S op 8) S₂
      [(0,.MemoryRangeFreed 128 8)] := by
    refine fun S' _ => ⟨?_,trivial⟩
    rintro (⟨-,a,h₁,h₂,h₃⟩ | hsets)
    · change a / 8 = 8 at h₃
      omega
    · exact absurd hsets (by decide)
  obtain ⟨x,e,hx,-,hall⟩ := use_after_free hinit hrun hign hfree (by decide) hrun' hno
  obtain ⟨-,hsome⟩ := hall 0 thr₃ 64 3 true hthr₃ hbits.2.1 rfl le_rfl
  obtain ⟨s,hs⟩ := hsome hbits.2.2
  exact ⟨S₃,x,e,s,hx,hs⟩

end Freed
end CompilerRt.Tsan
