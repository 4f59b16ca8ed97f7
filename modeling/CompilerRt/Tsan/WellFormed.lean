import CompilerRt.Tsan.Release

/-! # Words in the shadow are well formed

A word lies in its cell and tells which thread stored it, when, and for which place. This fails for a thread
that ignores accesses and still marks memory as written or freed, since its ignore bit then becomes a part of
the address.
-/
namespace CompilerRt.Tsan.Release
open FastState Shadow

/-- Who put a word into its slot, at which epoch, and for which accesses. -/
structure Stored where
  thread : ℕ
  epoch : ℕ
  touches : ℕ → ℕ → Prop

structure Encodes (x : u64) (st : Stored) : Prop where
  inside : (addr0 x).toNat + (size x).toNat ≤ kShadowCell
  tid : tid (GetFreedAndReset x).2 = st.thread
  epoch : epoch x = st.epoch
  address : st.touches (addr0 x).toNat (size_log x)

/-- A state together with what is known of its words. -/
structure Monitor where
  state : State
  stored : ℕ → ℕ → Stored

def Monitor.step (cfg : Config) (M : Monitor) (op : ℕ × Op) : Option Monitor := do
  if ¬ op.2.Aligned then none
  else
    let s ← op.2.exec cfg M.state op.1
    let thr ← s.threads op.1
    return ⟨s,fun cell i =>
      if s.shadow cell i = M.state.shadow cell i then M.stored cell i
      else ⟨op.1,epoch thr.fast_state,op.2.Touches M.state⟩⟩

def Monitor.WellFormed (M : Monitor) : Prop :=
  ∀ cell i, M.state.shadow cell i ≠ 0 → Encodes (M.state.shadow cell i) (M.stored cell i)

/-! ## Words of threads -/

/-- The thread's word is that of thread `t` at epoch `e`, with the ignore bit as the depth says. -/
def Thread.IsAt (thr : Thread) (t e : ℕ) : Prop :=
  t < kMaxTid ∧ e < 2^kClkBits ∧
    thr.fast_state.toNat = packed t e false 0 0 + if thr.ignore_reads_and_writes = 0 then 0 else 1

section Words
variable {x y : u64} {t e n off : ℕ} {w : Bool} {thr : Thread}

theorem Thread.IsAt.isFast (h : thr.IsAt t e) (h0 : thr.ignore_reads_and_writes = 0) : IsFast thr.fast_state t e := by
  obtain ⟨ht,he,hx⟩ := h
  rw [if_pos h0, Nat.add_zero] at hx
  exact ⟨ht,he,hx⟩

theorem Thread.IsAt.odd (h : thr.IsAt t e) (h0 : thr.ignore_reads_and_writes ≠ 0) : thr.fast_state.toNat % 32 = 1 := by
  obtain ⟨ht,he,hx⟩ := h
  rw [if_neg h0] at hx
  unfold packed at hx
  simp only [Bool.toNat_false] at hx
  omega

theorem Thread.IsAt.ignore_iff (h : thr.IsAt t e) :
    GetIgnoreBit thr.fast_state = true ↔ thr.ignore_reads_and_writes ≠ 0 := by
  have hbit := and_bit_eq_zero_iff thr.fast_state (n := 0) (by decide)
  by_cases h0 : thr.ignore_reads_and_writes = 0
  · simp [h0, (h.isFast h0).not_ignore]
  · have hodd := h.odd h0
    rw [GetIgnoreBit, bne_iff_ne]
    refine iff_of_true (fun hz => ?_) h0
    have h1 := hbit.mp hz
    omega

theorem Thread.IsAt.epoch (h : thr.IsAt t e) : FastState.epoch thr.fast_state = e := by
  obtain ⟨ht,he,hx⟩ := h
  change t < 2^13 at ht
  change e < 2^43 at he
  unfold packed at hx
  simp only [Bool.toNat_false] at hx
  rw [epoch_eq]
  split_ifs at hx <;> omega

/-- Below the last epoch the increment stays in its field. -/
theorem isFast_increment (h : IsFast x t e) (he : e + 1 < 2^kClkBits) : IsFast (IncrementEpoch x) t (e + 1) := by
  have hlt := h.isWord.lt
  obtain ⟨ht,-,hx⟩ := h
  have hadd : (IncrementEpoch x).toNat = x.toNat + 128 := by
    rw [IncrementEpoch, BitVec.toNat_add]
    exact Nat.mod_eq_of_lt (by change x.toNat + 128 < _; omega)
  refine ⟨ht,he,?_⟩
  rw [hadd, hx]
  unfold packed
  simp only [Bool.toNat_false]
  omega

theorem isWord_access (h : IsFast x t e) (ho : off ≤ 7) (hn : n ≤ 3) (w : Bool) :
    IsWord (SetWrite (SetAddr0AndSizeLog x off n) w) t e w n off := by
  obtain ⟨y,z,hy,hz,hword⟩ := setAddr0AndSizeLog_setWrite h ho hn w
  unfold Shadow.SetAddr0AndSizeLog at hy
  unfold Shadow.SetWrite at hz
  split_ifs at hy hz <;> cases hy <;> cases hz <;> simpa [SetWrite, SetAddr0AndSizeLog, *] using hword

theorem setWrite_comm (x : u64) (off n : ℕ) (w : Bool) :
    SetAddr0AndSizeLog (SetWrite x w) off n = SetWrite (SetAddr0AndSizeLog x off n) w := by
  unfold SetAddr0AndSizeLog SetWrite
  cases w
  · rfl
  · simp only [if_true]
    ac_rfl

theorem markAsFreed_comm (x : u64) (off n : ℕ) (w : Bool) :
    SetAddr0AndSizeLog (SetWrite (MarkAsFreed x) w) off n = MarkAsFreed (SetWrite (SetAddr0AndSizeLog x off n) w) := by
  rw [setWrite_comm]
  unfold SetAddr0AndSizeLog SetWrite MarkAsFreed
  cases w
  · simp only [Bool.false_eq_true, if_false]
    ac_rfl
  · simp only [if_true]
    ac_rfl

theorem toNat_reset (x : u64) : (GetFreedAndReset x).2.toNat = x.toNat % 2^63 :=
  (BitVec.toNat_and x _).trans (Nat.and_two_pow_sub_one_eq_mod x.toNat 63)

theorem toNat_markAsFreed (h : x.toNat < 2^63) : (MarkAsFreed x).toNat = x.toNat + 2^63 := by
  have hor := Nat.two_pow_add_eq_or_of_lt (i := 63) h 1
  rw [Nat.mul_one] at hor
  rw [MarkAsFreed, BitVec.toNat_or, Nat.or_comm]
  exact hor.symm.trans (Nat.add_comm _ _)

/-- A word tells its thread, epoch and place, and it does so when it is marked as freed. -/
theorem encodes_of_isWord (h : IsWord x t e w n off) (hin : off + 2^n ≤ kShadowCell) {touches : ℕ → ℕ → Prop}
    (hto : touches off n) : Encodes x ⟨t,e,touches⟩ where
  inside := by
    rw [h.toNat_addr0, h.toNat_size]
    exact hin
  tid := by
    have heq : (GetFreedAndReset x).2 = x := BitVec.eq_of_toNat_eq (by rw [toNat_reset, Nat.mod_eq_of_lt h.lt])
    rw [heq, h.tid]
  epoch := h.epoch
  address := by
    rw [h.toNat_addr0, h.size_log]
    exact hto

theorem Encodes.markAsFreed {st : Stored} (h : Encodes x st) (hx : x.toNat < 2^63) : Encodes (MarkAsFreed x) st := by
  have hnat := toNat_markAsFreed hx
  have haddr : addr0 (MarkAsFreed x) = addr0 x := by
    refine BitVec.eq_of_toNat_eq ?_
    rw [Tsan.toNat_addr0, Tsan.toNat_addr0, hnat]
    omega
  have hlog : size_log (MarkAsFreed x) = size_log x := by
    rw [size_log_eq, size_log_eq, hnat]
    omega
  have hreset : (GetFreedAndReset (MarkAsFreed x)).2 = (GetFreedAndReset x).2 := by
    refine BitVec.eq_of_toNat_eq ?_
    rw [toNat_reset, toNat_reset, hnat]
    omega
  refine ⟨?_,?_,?_,?_⟩
  · rw [haddr, size, hlog]
    exact h.inside
  · rw [hreset]
    exact h.tid
  · rw [← h.epoch, epoch_eq, epoch_eq, hnat]
    omega
  · rw [haddr, hlog]
    exact h.address

/-- The word that a thread with the ignore bit set marks memory with does not lie in its cell. -/
theorem not_encodes_ignoring {st : Stored} (h : thr.IsAt t e) (h0 : thr.ignore_reads_and_writes ≠ 0) (c : u64)
    (hc : c.toNat % 32 = 24) : ¬ Encodes (thr.fast_state ||| c) st := by
  intro henc
  have hodd := h.odd h0
  have hlow : (thr.fast_state ||| c).toNat % 2^5 = 25 := by
    rw [BitVec.toNat_or, Nat.or_mod_two_pow, show (2 : ℕ)^5 = 32 from rfl, hodd, hc]
    rfl
  have haddr : (addr0 (thr.fast_state ||| c)).toNat = 1 := by
    rw [Tsan.toNat_addr0]
    omega
  have hlog : size_log (thr.fast_state ||| c) = 3 := by
    rw [size_log_eq]
    omega
  have hin := henc.inside
  rw [haddr, size, hlog] at hin
  exact absurd hin (by decide)

theorem toNat_setIgnoreBit (x : u64) : (SetIgnoreBit x).toNat = x.toNat / 2 * 2 + 1 := by
  have hor := Nat.two_pow_add_eq_or_of_lt (i := 1) (b := 1) (by decide) (x.toNat / 2)
  have h0 := Nat.two_pow_add_eq_or_of_lt (i := 1) (b := x.toNat % 2) (by omega) (x.toNat / 2)
  rw [SetIgnoreBit, BitVec.toNat_or, show x.toNat = 2^1 * (x.toNat / 2) + x.toNat % 2 by omega, h0, Nat.or_assoc,
    show x.toNat % 2 ||| kIgnoreBit.toNat = 1 by rcases Nat.mod_two_eq_zero_or_one x.toNat with h | h <;> rw [h] <;> rfl,
    ← hor]
  omega

theorem toNat_clearIgnoreBit (x : u64) : (ClearIgnoreBit x).toNat = x.toNat / 2 * 2 := by
  have hlt : x.toNat / 2 < 2^63 := by omega
  rw [ClearIgnoreBit, BitVec.toNat_and]
  change x.toNat &&& (2^64 - 1 - 1) = _
  refine Nat.eq_of_testBit_eq fun i => ?_
  rw [Nat.testBit_and]
  cases i with
  | zero => simp
  | succ i =>
    rw [Nat.testBit_add_one, Nat.testBit_add_one, Nat.testBit_add_one, Nat.mul_div_cancel _ (by decide),
      show (2^64 - 1 - 1) / 2 = 2^63 - 1 from rfl, Nat.testBit_two_pow_sub_one]
    by_cases hi : i < 63
    · simp [hi]
    · have hle : 2^63 ≤ 2^i := Nat.pow_le_pow_right (by decide) (Nat.not_lt.mp hi)
      simp [Nat.testBit_lt_two_pow (hlt.trans_le hle)]

/-- The word after the nesting depth has changed. -/
theorem Thread.IsAt.ignore (h : thr.IsAt t e) (depth : ℕ) :
    Thread.IsAt { thr with
      ignore_reads_and_writes := depth
      fast_state := if depth ≠ 0 then SetIgnoreBit thr.fast_state else ClearIgnoreBit thr.fast_state } t e := by
  obtain ⟨ht,he,hx⟩ := h
  refine ⟨ht,he,?_⟩
  unfold packed at hx ⊢
  simp only [Bool.toNat_false] at hx ⊢
  by_cases hd : depth = 0
  · rw [if_neg (not_not.mpr hd), if_pos hd, toNat_clearIgnoreBit]
    split_ifs at hx <;> omega
  · rw [if_pos hd, if_neg hd, toNat_setIgnoreBit]
    split_ifs at hx <;> omega

end Words

/-! ## What a step stores -/

/-- Slots keep their words, are cleared, or get a word with `P`. -/
def Stores (P : u64 → Prop) (shadow shadow' : ℕ → Row) : Prop :=
  ∀ cell i, shadow' cell i = shadow cell i ∨ shadow' cell i = 0 ∨ P (shadow' cell i)

section Stores
variable {cfg : Config} {P P' : u64 → Prop} {sh sh' sh'' : ℕ → Row} {thr : ThreadState} {w : Bool}

theorem Stores.refl : Stores P sh sh := fun _ _ => Or.inl rfl

theorem Stores.trans (h : Stores P sh sh') (h' : Stores P sh' sh'') : Stores P sh sh'' := by
  intro cell i
  rcases h' cell i with heq | hrest
  · rw [heq]
    exact h cell i
  · exact Or.inr hrest

theorem Stores.mono (h : Stores P sh sh') (hP : ∀ x, P x → P' x) : Stores P' sh sh' := by
  intro cell i
  rcases h cell i with heq | hz | hx
  · exact Or.inl heq
  · exact Or.inr (Or.inl hz)
  · exact Or.inr (Or.inr (hP _ hx))

theorem stores_impl (thr : ThreadState) (n : ℕ) (w : Bool) {cur : u64} (hP : P cur) (cell : ℕ) :
    Stores P sh (Function.update sh cell (MemoryAccessImpl cfg thr n w cur (sh cell)).1) := by
  intro c i
  rcases eq_or_ne c cell with rfl | hc
  · rw [Function.update_self]
    have hrow : (MemoryAccessImpl cfg thr n w cur (sh c)).1 i = sh c i ∨
        (MemoryAccessImpl cfg thr n w cur (sh c)).1 i = cur ∨ (MemoryAccessImpl cfg thr n w cur (sh c)).1 i = 0 :=
      scan_row (List.range cfg.kShadowCnt) (sh c) (Or.inl rfl) i
    rcases hrow with hr | hr | hr
    · exact Or.inl hr
    · refine Or.inr (Or.inr ?_)
      rw [hr]
      exact hP
    · exact Or.inr (Or.inl hr)
  · rw [Function.update_of_ne hc]
    exact Or.inl rfl

/-- The beginning takes bytes from the front of the range. -/
theorem stores_rangeBeginning (cell : ℕ) {addr size : ℕ} {sh : ℕ → Row}
    (hP : ∀ a, addr ≤ a ∧ a < addr + size →
      P (SetAddr0AndSizeLog (SetWrite thr.fast_state w) (a % kShadowCell) 0)) :
    Stores P sh (rangeBeginning cfg thr w cell addr size sh).2.2 ∧
      addr ≤ (rangeBeginning cfg thr w cell addr size sh).1 ∧
      (rangeBeginning cfg thr w cell addr size sh).1 + (rangeBeginning cfg thr w cell addr size sh).2.1 = addr + size := by
  induction size generalizing addr sh with
  | zero => exact ⟨.refl,le_rfl,rfl⟩
  | succ size ih =>
    unfold rangeBeginning
    split_ifs
    · have hrest : ∀ a, addr + 1 ≤ a ∧ a < addr + 1 + size →
          P (SetAddr0AndSizeLog (SetWrite thr.fast_state w) (a % kShadowCell) 0) := fun a ha => hP a (by omega)
      have hfirst : Stores P sh (rangeAccess cfg thr w (addr % kShadowCell) 0 cell sh) :=
        stores_impl thr 0 w (hP addr (by omega)) cell
      obtain ⟨h1,h2,h3⟩ := ih hrest
      exact ⟨hfirst.trans h1,by omega,by omega⟩
    · exact ⟨.refl,le_rfl,rfl⟩

theorem stores_rangeMiddle (hP : P (SetAddr0AndSizeLog (SetWrite thr.fast_state w) 0 3)) (n cell : ℕ) (sh : ℕ → Row) :
    Stores P sh (rangeMiddle cfg thr w n cell sh) := by
  induction n generalizing cell sh with
  | zero => exact .refl
  | succ n ih => exact Stores.trans (stores_impl thr 3 w hP cell) (ih _ _)

theorem stores_rangeEnding (cell : ℕ) {addr size : ℕ} {sh : ℕ → Row}
    (hP : ∀ a, addr ≤ a ∧ a < addr + size →
      P (SetAddr0AndSizeLog (SetWrite thr.fast_state w) (a % kShadowCell) 0)) :
    Stores P sh (rangeEnding cfg thr w cell addr size sh) := by
  induction size generalizing addr sh with
  | zero => exact .refl
  | succ size ih =>
    exact Stores.trans (stores_impl thr 0 w (hP addr (by omega)) cell) (ih fun a ha => hP a (by omega))

/-- The range is left alone, or its cells begin with the given word. -/
theorem rangeSet_cases (cfg : Config) (sh : ℕ → Row) (addr size : ℕ) (val : u64) :
    ¬ Covers cfg addr size ∧ MemoryRangeSet cfg sh addr size val = sh ∨
      Covers cfg addr size ∧ ∃ first n, MemoryRangeSet cfg sh addr size val = fun cell =>
        if first ≤ cell ∧ cell < first + (n + 1) then fun i => if i = 0 then val else 0 else sh cell := by
  unfold MemoryRangeSet Covers kShadowCell
  dsimp only
  generalize hoff : (if addr % 8 ≠ 0 then 8 - addr % 8 else 0) = offset
  have hfirst : (addr + (8 - 1)) / 8 * 8 = addr + offset := by
    split_ifs at hoff <;> omega
  have hlast : addr + offset + (size - offset) - 1 = addr + size - 1 ∨ ¬ offset < size := by omega
  rw [hfirst]
  by_cases h0 : size = 0
  · rw [if_pos h0]
    exact Or.inl ⟨fun hc => by omega,rfl⟩
  rw [if_neg h0]
  by_cases h1 : offset ≠ 0 ∧ size ≤ offset
  · rw [if_pos h1]
    exact Or.inl ⟨fun hc => by omega,rfl⟩
  rw [if_neg h1]
  have hlt : offset < size := by omega
  rw [show addr + offset + (size - offset) - 1 = addr + size - 1 by omega]
  by_cases h2 : (!cfg.IsAppMem (addr + offset) || !cfg.IsAppMem (addr + size - 1)) = true
  · rw [if_pos h2]
    refine Or.inl ⟨fun hc => ?_,rfl⟩
    rw [hc.2.1, hc.2.2] at h2
    cases h2
  rw [if_neg h2]
  simp only [Bool.or_eq_true, Bool.not_eq_true', not_or, Bool.not_eq_false] at h2
  refine Or.inr ⟨⟨by omega,h2.1,h2.2⟩,(addr + offset) / 8,
    ((if size - offset > kMaxResetSize then kMaxResetSize else size - offset) + (8 - 1)) / 8 * 8 / 8 - 1,?_⟩
  have hpos : 0 < ((if size - offset > kMaxResetSize then kMaxResetSize else size - offset) + (8 - 1)) / 8 * 8 / 8 := by
    have hmax : 8 ≤ kMaxResetSize := by decide
    split_ifs <;> omega
  rw [Nat.sub_add_cancel hpos]

theorem stores_rangeSet (sh : ℕ → Row) (addr size : ℕ) {val : u64} (hP : Covers cfg addr size → val = 0 ∨ P val) :
    Stores P sh (MemoryRangeSet cfg sh addr size val) := by
  obtain ⟨-,heq⟩ | ⟨hc,first,n,heq⟩ := rangeSet_cases cfg sh addr size val
  · rw [heq]
    exact .refl
  · intro cell i
    rw [heq]
    dsimp only
    by_cases hin : first ≤ cell ∧ cell < first + (n + 1)
    · rw [if_pos hin]
      by_cases hi : i = 0
      · rw [if_pos hi]
        exact Or.inr (hP hc)
      · rw [if_neg hi]
        exact Or.inr (Or.inl rfl)
    · rw [if_neg hin]
      exact Or.inl rfl

end Stores

/-! ## Steps -/

/-- The increment of the thread's epoch does not overflow its field. -/
def EpochFits (M : Monitor) (op : ℕ × Op) : Prop :=
  ∀ thr, M.state.threads op.1 = some thr → epoch thr.fast_state + 1 < 2^kClkBits

instance (M : Monitor) (op : ℕ × Op) : Decidable (EpochFits M op) :=
  match h : M.state.threads op.1 with
  | none => isTrue fun thr hthr => by rw [h] at hthr; cases hthr
  | some thr => decidable_of_iff (epoch thr.fast_state + 1 < 2^kClkBits)
      ⟨fun hlt x hx => by rw [h, Option.some.injEq] at hx; rwa [← hx],fun hall => hall thr h⟩

/-- Every thread's word is that of the thread, and the ignore bit is set as long as it ignores accesses. -/
def State.Kept (s : State) : Prop := ∀ t thr, s.threads t = some thr → ∃ e, thr.IsAt t e

section Step
variable {cfg : Config} {s s' : State} {t : ℕ} {thr : Thread}

/-- What a step of thread `t` does: the thread is left with epoch `e` and stores words with `P`. -/
structure Moves (P : u64 → Prop) (s s' : State) (t e : ℕ) : Prop where
  thread : ∃ thr, s'.threads t = some thr ∧ thr.IsAt t e
  other : ∀ u, u ≠ t → s'.threads u = s.threads u
  stores : Stores P s.shadow s'.shadow

theorem Moves.kept {P : u64 → Prop} {e : ℕ} (h : Moves P s s' t e) (hs : s.Kept) : s'.Kept := by
  intro u thr hu
  rcases eq_or_ne u t with rfl | hne
  · obtain ⟨x,hx,hat⟩ := h.thread
    rw [hx, Option.some.injEq] at hu
    exact ⟨e,hu ▸ hat⟩
  · rw [h.other u hne] at hu
    exact hs u thr hu

theorem encodes_byte {e : ℕ} (h : IsFast thr.fast_state t e) (w : Bool) (a : ℕ) {touches : ℕ → ℕ → Prop}
    (hto : touches (a % kShadowCell) 0) :
    Encodes (SetAddr0AndSizeLog (SetWrite thr.fast_state w) (a % kShadowCell) 0) ⟨t,e,touches⟩ := by
  have hlt := Nat.mod_lt a (show 0 < kShadowCell by decide)
  change _ < 8 at hlt
  rw [setWrite_comm]
  exact encodes_of_isWord (isWord_access h (Nat.lt_succ_iff.mp hlt) (Nat.zero_le 3) w) (by change _ + 1 ≤ 8; omega) hto

theorem encodes_cell {x : u64} {e : ℕ} (h : IsFast x t e) (w : Bool) {touches : ℕ → ℕ → Prop} (hto : touches 0 3) :
    Encodes (SetAddr0AndSizeLog (SetWrite x w) 0 3) ⟨t,e,touches⟩ := by
  rw [setWrite_comm]
  exact encodes_of_isWord (isWord_access h (Nat.zero_le 7) le_rfl w) (by decide) hto

theorem access_moves (hthr : s.threads t = some thr) {e addr n : ℕ} {w : Bool} (hat : thr.IsAt t e)
    (hov : e + 1 < 2^kClkBits) (hal : n ≤ 3 ∧ 2^n ∣ addr) (he : MemoryAccess cfg s t addr n w = some s') :
    ∃ e', Moves (fun x => Encodes x ⟨t,e',Op.Touches s (.MemoryAccess addr n w)⟩) s s' t e' := by
  rw [MemoryAccess, hthr, Option.bind_eq_bind, Option.bind_some] at he
  by_cases hb : GetIgnoreBit thr.fast_state = true
  · rw [if_pos hb] at he
    cases he
    exact ⟨e,⟨thr,hthr,hat⟩,fun _ _ => rfl,.refl⟩
  · rw [if_neg hb] at he
    have h0 : thr.ignore_reads_and_writes = 0 := by
      by_contra hne
      exact hb (hat.ignore_iff.mpr hne)
    have hfast := isFast_increment (hat.isFast h0) hov
    cases he
    refine ⟨e + 1,⟨_,Function.update_self ..,?_⟩,fun u hu => Function.update_of_ne hu ..,?_⟩
    · exact ⟨hfast.1,hfast.2.1,by rw [if_pos h0, Nat.add_zero]; exact hfast.2.2⟩
    · refine stores_impl _ n w ?_ _
      have hin : addr % 8 + 2^n ≤ 8 := by
        obtain ⟨hn,hd⟩ := hal
        interval_cases n <;> omega
      have hoff : addr % 8 ≤ 7 := by omega
      exact encodes_of_isWord (isWord_access hfast hoff hal.1 w) hin (.access addr n w)

theorem accessRange_moves (hthr : s.threads t = some thr) {e addr size : ℕ} {w : Bool} (hat : thr.IsAt t e)
    (hov : e + 1 < 2^kClkBits) {touches : ℕ → ℕ → Prop}
    (hbyte : ∀ a, addr ≤ a ∧ a < addr + size → touches (a % kShadowCell) 0) (hcell : touches 0 3)
    (he : MemoryAccessRange cfg s t addr size w = some s') :
    ∃ e', Moves (fun x => Encodes x ⟨t,e',touches⟩) s s' t e' ∧
      (∀ thr', s'.threads t = some thr' → thr'.ignore_reads_and_writes = thr.ignore_reads_and_writes) ∧
      s'.size = s.size := by
  rw [MemoryAccessRange, hthr, Option.bind_eq_bind, Option.bind_some] at he
  have hsame : ∀ thr', s.threads t = some thr' → thr'.ignore_reads_and_writes = thr.ignore_reads_and_writes := by
    intro thr' hthr'
    rw [hthr, Option.some.injEq] at hthr'
    rw [hthr']
  by_cases h0 : size = 0
  · rw [if_pos h0] at he
    cases he
    exact ⟨e,⟨⟨thr,hthr,hat⟩,fun _ _ => rfl,.refl⟩,hsame,rfl⟩
  rw [if_neg h0] at he
  by_cases hb : GetIgnoreBit thr.fast_state = true
  · rw [if_pos hb] at he
    cases he
    exact ⟨e,⟨⟨thr,hthr,hat⟩,fun _ _ => rfl,.refl⟩,hsame,rfl⟩
  rw [if_neg hb] at he
  have hdepth : thr.ignore_reads_and_writes = 0 := by
    by_contra hne
    exact hb (hat.ignore_iff.mpr hne)
  have hfast := isFast_increment (hat.isFast hdepth) hov
  generalize hthr' : ({ thr with fast_state := IncrementEpoch thr.fast_state } : Thread) = thr' at he
  have hfast' : IsFast thr'.fast_state t (e + 1) := hthr' ▸ hfast
  have hbegin : Stores (fun x => Encodes x ⟨t,e + 1,touches⟩) s.shadow
      (rangeBeginning cfg thr'.toThreadState w (addr / kShadowCell) addr size s.shadow).2.2 ∧ _ ∧ _ :=
    stores_rangeBeginning _ fun a ha => encodes_byte hfast' w a (hbyte a ha)
  obtain ⟨hbeg,hle,hsum⟩ := hbegin
  dsimp only at he
  generalize rangeBeginning cfg thr'.toThreadState w (addr / kShadowCell) addr size s.shadow = rest at he hbeg hle hsum
  obtain ⟨addr',size',sh'⟩ := rest
  cases he
  refine ⟨e + 1,⟨⟨thr',Function.update_self ..,?_⟩,fun u hu => Function.update_of_ne hu ..,?_⟩,?_,rfl⟩
  · rw [← hthr']
    exact ⟨hfast.1,hfast.2.1,by rw [if_pos hdepth, Nat.add_zero]; exact hfast.2.2⟩
  · refine hbeg.trans ((stores_rangeMiddle (encodes_cell hfast' w hcell) _ _ _).trans (stores_rangeEnding _ fun a ha => ?_))
    refine encodes_byte hfast' w a (hbyte a ?_)
    dsimp only at hle hsum ha
    unfold kShadowCell at ha
    omega
  · intro x hx
    change Function.update s.threads t (some thr') t = some x at hx
    rw [Function.update_self, Option.some.injEq] at hx
    rw [← hx, ← hthr']

/-- Marking a range with the thread's word, unless a cell would get a word with the ignore bit. -/
theorem mark_moves (hthr : s.threads t = some thr) {e addr size : ℕ} (hat : thr.IsAt t e) {touches : ℕ → ℕ → Prop}
    (hcell : touches 0 3) (hno : thr.ignore_reads_and_writes ≠ 0 → ¬ Covers cfg addr size) (freed : Bool)
    {x : u64} (hx : x = if freed then MarkAsFreed thr.fast_state else thr.fast_state) :
    Moves (fun x => Encodes x ⟨t,e,touches⟩) s
      { s with shadow := MemoryRangeSet cfg s.shadow addr size (SetAddr0AndSizeLog (SetWrite x true) 0 3) } t e := by
  refine ⟨⟨thr,hthr,hat⟩,fun _ _ => rfl,stores_rangeSet _ _ _ fun hc => Or.inr ?_⟩
  have h0 : thr.ignore_reads_and_writes = 0 := by
    by_contra hne
    exact hno hne hc
  have hfast := hat.isFast h0
  subst hx
  cases freed with
  | false => exact encodes_cell hfast true hcell
  | true =>
    rw [if_pos rfl, markAsFreed_comm]
    have hword : IsWord (SetWrite (SetAddr0AndSizeLog thr.fast_state 0 3) true) t e true 3 0 :=
      isWord_access hfast (Nat.zero_le 7) le_rfl true
    exact (encodes_of_isWord hword (by decide) hcell).markAsFreed hword.lt

theorem Moves.trans {P : u64 → Prop} {s'' : State} {e e' : ℕ} (h : Moves P s s' t e) (h' : Moves P s' s'' t e') :
    Moves P s s'' t e' :=
  ⟨h'.thread,fun u hu => (h'.other u hu).trans (h.other u hu),h.stores.trans h'.stores⟩

theorem Moves.mono {P P' : u64 → Prop} {e : ℕ} (h : Moves P s s' t e) (hP : ∀ x, P x → P' x) : Moves P' s s' t e :=
  ⟨h.thread,h.other,h.stores.mono hP⟩

theorem imitateWrite_moves (hthr : s.threads t = some thr) {e addr size : ℕ} (hat : thr.IsAt t e)
    {touches : ℕ → ℕ → Prop} (hcell : touches 0 3)
    (hno : thr.ignore_reads_and_writes ≠ 0 → ¬ Covers cfg addr size)
    (he : MemoryRangeImitateWrite cfg s t addr size = some s') :
    Moves (fun x => Encodes x ⟨t,e,touches⟩) s s' t e := by
  rw [MemoryRangeImitateWrite, hthr, Option.bind_eq_bind, Option.bind_some] at he
  cases he
  exact mark_moves hthr hat hcell hno false rfl

theorem freed_moves (hthr : s.threads t = some thr) {e addr size : ℕ} (hat : thr.IsAt t e)
    (hov : e + 1 < 2^kClkBits) {touches : ℕ → ℕ → Prop}
    (hbyte : ∀ a, addr ≤ a ∧ a < addr + size → touches (a % kShadowCell) 0) (hcell : touches 0 3)
    (hno : thr.ignore_reads_and_writes ≠ 0 → ¬ Covers cfg addr size)
    (he : MemoryRangeFreed cfg s t addr size = some s') :
    ∃ e', Moves (fun x => Encodes x ⟨t,e',touches⟩) s s' t e' := by
  simp only [MemoryRangeFreed, Option.bind_eq_bind, Option.bind_eq_some_iff] at he
  obtain ⟨s₁,h₁,thr₁,hthr₁,he⟩ := he
  cases he
  obtain ⟨e₁,hmoves,hdepth,-⟩ := accessRange_moves hthr hat hov hbyte hcell h₁
  obtain ⟨x,hx,hat₁⟩ := hmoves.thread
  rw [hthr₁, Option.some.injEq] at hx
  subst hx
  refine ⟨e₁,hmoves.trans (mark_moves hthr₁ hat₁ hcell ?_ true rfl)⟩
  rwa [hdepth thr₁ hthr₁]

/-- A step of a thread leaves the thread with some epoch and stores only words that tell of it, unless it marks a
range while it ignores accesses. -/
theorem exec_moves (hthr : s.threads t = some thr) {e : ℕ} (hat : thr.IsAt t e) (hov : e + 1 < 2^kClkBits) {op : Op}
    (hal : op.Aligned) (hno : ¬ op.MarksIgnoring cfg s t) (he : op.exec cfg s t = some s') :
    ∃ e', Moves (fun x => Encodes x ⟨t,e',op.Touches s⟩) s s' t e' := by
  have hclean : ∀ {addr size : ℕ}, op.marks s = some (addr,size) → thr.ignore_reads_and_writes ≠ 0 →
      ¬ Covers cfg addr size := fun hm hne hc => hno ⟨thr,_,_,hthr,hne,hm,hc⟩
  cases op with
  | MemoryAccess addr n w => exact access_moves hthr hat hov hal he
  | MemoryAccessRange addr size w =>
    have hcell : Op.Touches s (.MemoryAccessRange addr size w) 0 3 := .cell addr size w
    obtain ⟨e',hmoves,-⟩ := accessRange_moves hthr hat hov (fun a ha => .byte addr size w a ha) hcell he
    exact ⟨e',hmoves⟩
  | MemoryRangeImitateWrite addr size =>
    exact ⟨e,imitateWrite_moves hthr hat (.marked _ _ rfl) (hclean rfl) he⟩
  | MemoryRangeFreed addr size =>
    exact freed_moves hthr hat hov (fun a ha => .freed _ addr size a ha rfl) (.marked _ _ rfl) (hclean rfl) he
  | MemoryResetRange addr size =>
    rw [Op.exec, MemoryResetRange, hthr, Option.bind_eq_bind, Option.bind_some] at he
    cases he
    exact ⟨e,⟨thr,hthr,hat⟩,fun _ _ => rfl,stores_rangeSet _ _ _ fun _ => Or.inl rfl⟩
  | user_alloc p sz =>
    rw [Op.exec, user_alloc, hthr, Option.bind_eq_bind, Option.bind_some] at he
    by_cases hp : p = 0
    · rw [if_pos hp] at he
      cases he
      exact ⟨e,⟨thr,hthr,hat⟩,fun _ _ => rfl,.refl⟩
    rw [if_neg hp] at he
    by_cases hi : s.initialized = true
    · have hm : (Op.user_alloc p sz).marks s = some (p,sz) := if_pos ⟨hp,hi⟩
      simp only [hi, if_true] at he
      have hcell : Op.Touches s (.user_alloc p sz) 0 3 := .marked _ _ hm
      let s₁ : State := { threads := s.threads, shadow := s.shadow, size := Function.update s.size p sz, initialized := true }
      have hthr₁ : s₁.threads t = some thr := hthr
      have hmoves := imitateWrite_moves hthr₁ hat hcell (hclean hm) he
      exact ⟨e,hmoves.thread,hmoves.other,hmoves.stores⟩
    · simp only [hi] at he
      cases he
      exact ⟨e,⟨thr,hthr,hat⟩,fun _ _ => rfl,.refl⟩
  | user_free p in_rtl =>
    rw [Op.exec, user_free, hthr, Option.bind_eq_bind, Option.bind_some] at he
    split_ifs at he with h0 h1
    · have hm : (Op.user_free p in_rtl).marks s = some (p,s.size p) := if_pos h1
      exact freed_moves hthr hat hov (fun a ha => .freed _ p _ a ha hm) (.marked _ _ hm) (hclean hm) he
    · cases he
      exact ⟨e,⟨thr,hthr,hat⟩,fun _ _ => rfl,.refl⟩
  | IgnoreCtl begin =>
    rw [Op.exec, IgnoreCtl, hthr, Option.bind_eq_bind, Option.bind_some] at he
    split_ifs at he with h0 h1
    all_goals
      cases he
      exact ⟨e,⟨_,Function.update_self ..,hat.ignore _⟩,fun u hu => Function.update_of_ne hu ..,.refl⟩

/-- A thread that ignores accesses marks a range with its word as it is. -/
theorem exec_ignoring (hthr : s.threads t = some thr) {e : ℕ} (hat : thr.IsAt t e) {op : Op} {addr size : ℕ}
    (h0 : thr.ignore_reads_and_writes ≠ 0) (hm : op.marks s = some (addr,size)) (he : op.exec cfg s t = some s') :
    ∃ sh c, c.toNat % 32 = 24 ∧ s'.shadow = MemoryRangeSet cfg sh addr size (thr.fast_state ||| c) := by
  have himitate : ∀ {s₁ : State}, s₁.threads t = some thr → MemoryRangeImitateWrite cfg s₁ t addr size = some s' →
      ∃ sh c, c.toNat % 32 = 24 ∧ s'.shadow = MemoryRangeSet cfg sh addr size (thr.fast_state ||| c) := by
    intro s₁ hthr he
    rw [MemoryRangeImitateWrite, hthr, Option.bind_eq_bind, Option.bind_some] at he
    cases he
    refine ⟨s₁.shadow,32 ||| 24,by decide,?_⟩
    rw [← BitVec.or_assoc]
    rfl
  have hfreed : MemoryRangeFreed cfg s t addr size = some s' →
      ∃ sh c, c.toNat % 32 = 24 ∧ s'.shadow = MemoryRangeSet cfg sh addr size (thr.fast_state ||| c) := by
    intro he
    have hrange : MemoryAccessRange cfg s t addr size true = some s := by
      rw [MemoryAccessRange, hthr, Option.bind_eq_bind, Option.bind_some, if_pos (hat.ignore_iff.mpr h0)]
      split_ifs <;> rfl
    rw [MemoryRangeFreed, hrange, Option.bind_eq_bind, Option.bind_some, hthr] at he
    cases he
    refine ⟨s.shadow,kFreedBit ||| 32 ||| 24,by decide,?_⟩
    rw [← BitVec.or_assoc, ← BitVec.or_assoc]
    rfl
  cases op with
  | MemoryRangeImitateWrite a n =>
    cases hm
    exact himitate hthr he
  | MemoryRangeFreed a n =>
    cases hm
    exact hfreed he
  | user_alloc p sz =>
    rw [Op.marks] at hm
    split_ifs at hm with hp
    cases hm
    rw [Op.exec, user_alloc, hthr, Option.bind_eq_bind, Option.bind_some, if_neg hp.1] at he
    simp only [hp.2, if_true] at he
    let s₁ : State := { threads := s.threads, shadow := s.shadow, size := Function.update s.size addr size, initialized := true }
    have hthr₁ : s₁.threads t = some thr := hthr
    exact himitate hthr₁ he
  | user_free p in_rtl =>
    rw [Op.marks] at hm
    split_ifs at hm with hp
    cases hm
    rw [Op.exec, user_free, hthr, Option.bind_eq_bind, Option.bind_some] at he
    split_ifs at he with h1
    exact hfreed he
  | MemoryAccess | MemoryAccessRange | MemoryResetRange | IgnoreCtl => cases hm

end Step

/-! ## Runs -/

/-- Before the run the shadow is zero, and each thread is at some epoch and ignores nothing. -/
structure Monitor.Initial (M : Monitor) : Prop where
  shadow : ∀ cell i, M.state.shadow cell i = 0
  threads : ∀ t thr, M.state.threads t = some thr → thr.ignore_reads_and_writes = 0 ∧ ∃ e, IsFast thr.fast_state t e

section Run
variable {cfg : Config} {M M' : Monitor} {op : ℕ × Op}

def Monitor.Inv (M : Monitor) : Prop := M.state.Kept ∧ M.WellFormed

theorem Monitor.Initial.inv (h : M.Initial) : M.Inv := by
  refine ⟨fun t thr hthr => ?_,fun cell i hne => absurd (h.shadow cell i) hne⟩
  obtain ⟨h0,e,ht,he,hx⟩ := h.threads t thr hthr
  exact ⟨e,ht,he,by rw [if_pos h0, Nat.add_zero]; exact hx⟩

theorem Monitor.step_eq_some (h : M.step cfg op = some M') :
    ∃ s thr, op.2.Aligned ∧ op.2.exec cfg M.state op.1 = some s ∧ s.threads op.1 = some thr ∧
      M' = ⟨s,fun cell i => if s.shadow cell i = M.state.shadow cell i then M.stored cell i
        else ⟨op.1,epoch thr.fast_state,op.2.Touches M.state⟩⟩ := by
  unfold Monitor.step at h
  split_ifs at h with hal
  simp only [Option.bind_eq_bind, Option.bind_eq_some_iff] at h
  obtain ⟨s,hs,thr,hthr,h⟩ := h
  cases h
  exact ⟨s,thr,hal,hs,hthr,rfl⟩

/-- A step has a thread. -/
theorem Op.thread_of_exec {s s' : State} {t : ℕ} {op : Op} (he : op.exec cfg s t = some s') :
    ∃ thr, s.threads t = some thr := by
  cases hthr : s.threads t with
  | some thr => exact ⟨thr,rfl⟩
  | none =>
    exfalso
    cases op with
    | MemoryAccess => simp [exec, Release.MemoryAccess, hthr] at he
    | MemoryAccessRange => simp [exec, Release.MemoryAccessRange, hthr] at he
    | MemoryRangeImitateWrite => simp [exec, Release.MemoryRangeImitateWrite, hthr] at he
    | MemoryRangeFreed => simp [exec, Release.MemoryRangeFreed, Release.MemoryAccessRange, hthr] at he
    | MemoryResetRange => simp [exec, Release.MemoryResetRange, hthr] at he
    | user_alloc => simp [exec, Release.user_alloc, hthr] at he
    | user_free => simp [exec, Release.user_free, hthr] at he
    | IgnoreCtl => simp [exec, Release.IgnoreCtl, hthr] at he

theorem Monitor.Inv.step (h : M.Inv) (hov : EpochFits M op) (hno : ¬ op.2.MarksIgnoring cfg M.state op.1)
    (he : M.step cfg op = some M') : M'.Inv := by
  obtain ⟨s,thr',hal,hexec,hthr',rfl⟩ := Monitor.step_eq_some he
  obtain ⟨thr,hthr⟩ := Op.thread_of_exec hexec
  obtain ⟨e,hat⟩ := h.1 op.1 thr hthr
  have hfit : e + 1 < 2^kClkBits := by
    have hep := hov thr hthr
    rwa [hat.epoch] at hep
  obtain ⟨e',hmoves⟩ := exec_moves hthr hat hfit hal hno hexec
  refine ⟨hmoves.kept h.1,fun cell i hne => ?_⟩
  dsimp only at hne ⊢
  by_cases heq : s.shadow cell i = M.state.shadow cell i
  · rw [if_pos heq, heq]
    exact h.2 cell i (heq ▸ hne)
  · rw [if_neg heq]
    obtain ⟨x,hx,hat'⟩ := hmoves.thread
    rw [hthr', Option.some.injEq] at hx
    rw [hx, hat'.epoch]
    rcases hmoves.stores cell i with hold | hzero | henc
    · exact absurd hold heq
    · exact absurd hzero hne
    · exact henc

/-- If the words are well formed after a step, then it was none that marks a range while its thread ignores. -/
theorem Monitor.Inv.not_marksIgnoring (h : M.Inv) (he : M.step cfg op = some M') (hwf : M'.WellFormed) :
    ¬ op.2.MarksIgnoring cfg M.state op.1 := by
  rintro ⟨thr,addr,size,hthr,h0,hm,hc⟩
  obtain ⟨s,thr',hal,hexec,-,rfl⟩ := Monitor.step_eq_some he
  obtain ⟨e,hat⟩ := h.1 op.1 thr hthr
  obtain ⟨sh,c,hc24,hsh⟩ := exec_ignoring hthr hat h0 hm hexec
  obtain ⟨hno,-⟩ | ⟨-,first,n,heq⟩ := rangeSet_cases cfg sh addr size (thr.fast_state ||| c)
  · exact hno hc
  have hslot : s.shadow first 0 = thr.fast_state ||| c := by
    rw [hsh, heq]
    simp
  have hne : thr.fast_state ||| c ≠ 0 := by
    intro hz
    have hodd := hat.odd h0
    have hor := congrArg BitVec.toNat hz
    rw [BitVec.toNat_or] at hor
    have hz0 := (Nat.or_eq_zero_iff.mp (by simpa using hor)).1
    omega
  have henc := hwf first 0 (by dsimp only; rw [hslot]; exact hne)
  dsimp only at henc
  rw [hslot] at henc
  exact not_encodes_ignoring hat h0 c hc24 henc

/-- Along a run in which no epoch overflows, all words in the shadow are well formed if and only if no thread marks
memory as written or freed while it ignores accesses. -/
theorem wellFormed_iff (cfg : Config) (hM : M.Initial) {ops : List (ℕ × Op)}
    (hov : Transition.AllSteps (Monitor.step cfg) EpochFits M ops) :
    Transition.AllStates (Monitor.step cfg) Monitor.WellFormed M ops ↔
      Transition.AllSteps (Monitor.step cfg) (fun M op => ¬ op.2.MarksIgnoring cfg M.state op.1) M ops := by
  constructor
  · intro hwf
    refine Transition.allSteps_of_allStates (I := Monitor.Inv) ?_ ?_ hM.inv hov hwf
    · exact fun M op M' h _ he hwf => h.not_marksIgnoring he hwf
    · exact fun M op M' h hfit hno he => h.step hfit hno he
  · intro hno
    refine Transition.allStates_of_inv (I := Monitor.Inv) ?_ (fun M h => h.2) hM.inv (hov.and hno)
    exact fun M op M' h hq he => h.step hq.1 hq.2 he

/-- Thread 0 at its first epoch, and a shadow of zeros. -/
def Monitor.idle : Monitor where
  state :=
    { threads := fun t => if t = 0 then
        some { fast_state := (1 : u64) <<< kClkShift, fast_synch_epoch := 1, clock := .empty, tid := 0, unique_id := 0,
               is_alive := true, layout := ⟨0,0,0,0,0,0⟩, ignore_reads_and_writes := 0 }
        else none
      shadow := fun _ _ => 0
      size := fun _ => 0
      initialized := true }
  stored _ _ := ⟨0,0,fun _ _ => False⟩

theorem Monitor.idle_initial : idle.Initial where
  shadow _ _ := rfl
  threads t thr hthr := by
    dsimp only [idle] at hthr
    split_ifs at hthr with h0
    cases hthr
    subst h0
    exact ⟨rfl,1,by decide,by decide,by decide⟩

/-- Thread 0 allocates eight bytes while it ignores accesses. -/
def ignoringAlloc : List (ℕ × Op) := [(0,.IgnoreCtl true),(0,.user_alloc 64 8)]

/-- The states of this run, if the word of the allocation does not lie in its cell. -/
def runIgnoringAlloc : Option (Monitor × Monitor) := do
  let M₁ ← Monitor.idle.step fourSlots (0,.IgnoreCtl true)
  let M₂ ← M₁.step fourSlots (0,.user_alloc 64 8)
  let x := M₂.state.shadow 8 0
  if x ≠ 0 ∧ kShadowCell < (addr0 x).toNat + (size x).toNat ∧ EpochFits Monitor.idle (0,.IgnoreCtl true) ∧
      EpochFits M₁ (0,.user_alloc 64 8) then some (M₁,M₂)
  else none

theorem runIgnoringAlloc_isSome : runIgnoringAlloc.isSome = true := by decide +kernel

theorem not_wellFormed : Monitor.idle.Initial ∧
    ¬ Transition.AllStates (Monitor.step fourSlots) Monitor.WellFormed Monitor.idle ignoringAlloc := by
  obtain ⟨r,h⟩ := Option.isSome_iff_exists.mp runIgnoringAlloc_isSome
  simp only [runIgnoringAlloc, Option.bind_eq_bind, Option.bind_eq_some_iff] at h
  obtain ⟨M₁,h₁,M₂,h₂,h⟩ := h
  split_ifs at h with hx
  refine ⟨Monitor.idle_initial,fun hall => ?_⟩
  have hwf := (hall.2 M₁ h₁).2 M₂ h₂
  exact absurd (hwf 8 0 hx.1).inside hx.2.1.not_ge

theorem wellFormed_iff_ignoringAlloc :
    Transition.AllStates (Monitor.step fourSlots) Monitor.WellFormed Monitor.idle ignoringAlloc ↔
      Transition.AllSteps (Monitor.step fourSlots) (fun M op => ¬ op.2.MarksIgnoring fourSlots M.state op.1) Monitor.idle
        ignoringAlloc := by
  obtain ⟨r,h⟩ := Option.isSome_iff_exists.mp runIgnoringAlloc_isSome
  simp only [runIgnoringAlloc, Option.bind_eq_bind, Option.bind_eq_some_iff] at h
  obtain ⟨M₁,h₁,M₂,h₂,h⟩ := h
  split_ifs at h with hx
  refine wellFormed_iff fourSlots Monitor.idle_initial fun M hM => ⟨hx.2.2.1,fun M' hM' => ⟨?_,trivial⟩⟩
  rw [h₁, Option.some.injEq] at hM
  rw [← hM]
  exact hx.2.2.2

end Run
end CompilerRt.Tsan.Release
