import CompilerRt.Blocks.Runtime
import Mathlib.Algebra.BigOperators.Group.Finset.Piecewise
import Mathlib.Algebra.Order.BigOperators.Group.Finset
import Mathlib.Data.BitVec

/-! # The count is the number of references

Until it latches, the count in the flags is the number of references that the threads have; a thread that has one finds
the object alive. The thread whose release makes the count zero is the only one left, and it disposes of the object.
-/
namespace CompilerRt.Blocks

/-! ## The flags word -/

/-- The count in the low bits. -/
def count (flags : Word) : ℕ := (flags &&& BLOCK_REFCOUNT_MASK).toNat

theorem count_eq (flags : Word) : count flags = flags.toNat % 65536 := by
  rw [count,BitVec.toNat_and]
  exact Nat.and_two_pow_sub_one_eq_mod flags.toNat 16

theorem and_mask_eq (flags c : Word) : flags &&& BLOCK_REFCOUNT_MASK = c ↔ count flags = c.toNat :=
  ⟨fun h => congrArg BitVec.toNat h,fun h => BitVec.eq_of_toNat_eq h⟩

theorem latched_iff (flags : Word) : flags &&& BLOCK_REFCOUNT_MASK = BLOCK_REFCOUNT_MASK ↔ count flags = 65535 :=
  and_mask_eq flags BLOCK_REFCOUNT_MASK

theorem zero_iff (flags : Word) : flags &&& BLOCK_REFCOUNT_MASK = 0 ↔ count flags = 0 := and_mask_eq flags 0

/-- The bits above the count are the same. -/
def SameFlags (f g : Word) : Prop := f.toNat / 65536 = g.toNat / 65536

theorem SameFlags.and_bit {f g : Word} (h : SameFlags f g) {i : ℕ} (hi : 16 ≤ i) :
    f &&& (1 <<< i) = 0 ↔ g &&& (1 <<< i) = 0 := by
  have hbit : f.getLsbD i = g.getLsbD i := by
    have hdiv := congrArg (fun n : ℕ => n.testBit (i - 16)) h
    change (f.toNat / 2 ^ 16).testBit (i - 16) = (g.toNat / 2 ^ 16).testBit (i - 16) at hdiv
    rwa [Nat.testBit_div_two_pow,Nat.testBit_div_two_pow,Nat.sub_add_cancel hi,BitVec.testBit_toNat,
      BitVec.testBit_toNat] at hdiv
  have hand : ∀ x : Word, x &&& (1 <<< i) = if x.getLsbD i then BitVec.twoPow 32 i else 0 :=
    fun x => BitVec.and_twoPow x i
  rw [hand,hand,hbit]

theorem sameFlags_add_one {f : Word} (h : count f ≠ 65535) : SameFlags (f + 1) f ∧ count (f + 1) = count f + 1 := by
  have hlt := f.isLt
  rw [count_eq] at h
  rw [count_eq,count_eq,SameFlags,BitVec.toNat_add]
  change (f.toNat + 1) % 2 ^ 32 / 65536 = _ ∧ (f.toNat + 1) % 2 ^ 32 % 65536 = _
  omega

theorem sameFlags_sub_one {f : Word} (h : count f ≠ 0) : SameFlags (f - 1) f ∧ count (f - 1) = count f - 1 := by
  have hlt := f.isLt
  rw [count_eq] at h
  rw [count_eq,count_eq,SameFlags,BitVec.toNat_sub]
  change (2 ^ 32 - 1 + f.toNat) % 2 ^ 32 / 65536 = _ ∧ (2 ^ 32 - 1 + f.toNat) % 2 ^ 32 % 65536 = _
  omega

theorem set_and {f k m : Word} (h : k &&& m = m) : (f ||| k) &&& m = m := by
  ext i hi
  have hi' := congrArg (fun w : Word => w[i]) h
  simp only [BitVec.getElem_and,BitVec.getElem_or] at hi' ⊢
  revert hi'
  cases f[i] <;> cases m[i] <;> cases k[i] <;> decide

theorem clear_and_of_disjoint {f k m : Word} (h : k &&& m = 0) : f &&& ~~~k &&& m = f &&& m := by
  ext i hi
  have hi' : (k &&& m)[i] = false := by
    rw [h]
    exact BitVec.getElem_zero hi
  simp only [BitVec.getElem_and,BitVec.getElem_not] at hi' ⊢
  revert hi'
  cases f[i] <;> cases m[i] <;> cases k[i] <;> decide

/-- A block that was just copied has one reference. -/
theorem copiedBlockFlags_ok {f : Word} (hgc : f &&& BLOCK_IS_GC = 0) :
    copiedBlockFlags f &&& BLOCK_NEEDS_FREE ≠ 0 ∧ copiedBlockFlags f &&& BLOCK_IS_GC = 0 ∧
      count (copiedBlockFlags f) = 1 := by
  have hclear : f &&& ~~~BLOCK_REFCOUNT_MASK &&& BLOCK_REFCOUNT_MASK = 0 := by
    rw [BitVec.and_assoc,BitVec.not_and_self]
    exact BitVec.and_zero
  refine ⟨?_,?_,?_⟩
  · rw [copiedBlockFlags,set_and (by decide)]
    decide
  · rw [copiedBlockFlags,BitVec.and_or_distrib_right,clear_and_of_disjoint (by decide),hgc]
    decide
  · rw [count,copiedBlockFlags,BitVec.and_or_distrib_right,hclear]
    decide

/-- A `__block` variable that was just moved to the heap has two. -/
theorem copiedByrefFlags_ok {f : Word} (hgc : f &&& BLOCK_IS_GC = 0) (hstack : f &&& BLOCK_REFCOUNT_MASK = 0) :
    copiedByrefFlags f &&& BLOCK_NEEDS_FREE ≠ 0 ∧ copiedByrefFlags f &&& BLOCK_IS_GC = 0 ∧
      count (copiedByrefFlags f) = 2 := by
  refine ⟨?_,?_,?_⟩
  · rw [copiedByrefFlags,set_and (by decide)]
    decide
  · rw [copiedByrefFlags,BitVec.and_or_distrib_right,hgc]
    decide
  · rw [count,copiedByrefFlags,BitVec.and_or_distrib_right,hstack]
    decide

/-! ## The references -/

section Sum
variable {Tid : Type} [Fintype Tid] [DecidableEq Tid]

theorem sum_gain (f : Tid → ℕ) (t : Tid) : ∑ u, (if u = t then f u + 1 else f u) = ∑ u, f u + 1 := by
  have hsplit : ∀ u, (if u = t then f u + 1 else f u) = f u + if u = t then 1 else 0 := fun u => by
    by_cases hu : u = t
    · rw [if_pos hu,if_pos hu]
    · rw [if_neg hu,if_neg hu,Nat.add_zero]
  rw [Finset.sum_congr rfl fun u _ => hsplit u,Finset.sum_add_distrib,Finset.sum_ite_eq',if_pos (Finset.mem_univ t)]

theorem sum_drop {f : Tid → ℕ} {t : Tid} (h : 0 < f t) : ∑ u, (if u = t then f u - 1 else f u) + 1 = ∑ u, f u := by
  rw [← sum_gain _ t]
  refine Finset.sum_congr rfl fun u _ => ?_
  by_cases hu : u = t
  · rw [if_pos hu,if_pos hu,hu,Nat.sub_add_cancel h]
  · rw [if_neg hu,if_neg hu]

omit [DecidableEq Tid] in
theorem le_sum (f : Tid → ℕ) (t : Tid) : f t ≤ ∑ u, f u :=
  Finset.single_le_sum (fun u _ => Nat.zero_le (f u)) (Finset.mem_univ t)

end Sum

section Invariant
variable {Tid : Type} [Fintype Tid]

/-- How often the dispose helper runs on an object that is freed. -/
def helperCalls (flags : Word) : ℕ := if flags &&& BLOCK_HAS_COPY_DISPOSE = 0 then 0 else 1

/-- The shared part of the invariant, for an object that had these flags. -/
structure SharedInv (flags₀ : Word) (g : Shared Tid) : Prop where
  bits : SameFlags g.flags flags₀
  refs : g.references = g.releases + ∑ t, g.held t
  counted : g.latched = false → count g.flags = ∑ t, g.held t ∧ count g.flags ≠ 65535
  latch : g.latched = true → count g.flags = 65535
  alive : count g.flags ≠ 0 → g.destroyer = none
  dead : count g.flags = 0 → g.destroyer ≠ none
  quiet : g.destroyer = none → g.freed = false ∧ g.disposals = 0
  unfreed : g.freed = false → g.deallocations = 0
  gone : g.freed = true → g.deallocations = 1 ∧ g.disposals = helperCalls flags₀
  disposals_le : g.disposals ≤ 1
  safe : g.usedAfterFree = false
  home : g.forwarded = false

omit [Fintype Tid] in
/-- What a thread knows of the object where it stands. -/
def Knows (flags₀ : Word) (g : Shared Tid) (t : Tid) : Pc → Prop
  | .idle => g.destroyer = some t → g.freed = true
  | .incrCas old => 0 < g.held t ∧ count old ≠ 65535
  | .decrCas old => 0 < g.held t ∧ count old ≠ 65535 ∧ count old ≠ 0
  | .copyIsGC | .copyIsGlobal | .hitIsGlobal => False
  | .hitIsGC | .hitNeedsFree | .hasDispose => g.destroyer = some t ∧ g.freed = false ∧ g.disposals = 0
  | .dispose => g.destroyer = some t ∧ g.freed = false ∧ g.disposals = 0 ∧ helperCalls flags₀ = 1
  | .deallocate => g.destroyer = some t ∧ g.freed = false ∧ g.disposals = helperCalls flags₀
  | _ => 0 < g.held t

/-- The step of another thread leaves this one what it knows. -/
structure Undisturbed (u : Tid) (g g' : Shared Tid) : Prop where
  held : g.held u ≤ g'.held u
  tail : (g.destroyer = g'.destroyer ∧ g.freed = g'.freed ∧ g.disposals = g'.disposals) ∨
    (g.destroyer ≠ some u ∧ g'.destroyer ≠ some u)

omit [Fintype Tid] in
theorem Undisturbed.refl (u : Tid) (g : Shared Tid) : Undisturbed u g g := ⟨Nat.le_refl _,Or.inl ⟨rfl,rfl,rfl⟩⟩

omit [Fintype Tid] in
theorem Knows.of_undisturbed {flags₀ : Word} {g g' : Shared Tid} {u : Tid} {pc : Pc} (h : Knows flags₀ g u pc)
    (hu : Undisturbed u g g') : Knows flags₀ g' u pc := by
  obtain ⟨hheld,htail⟩ := hu
  have hpos : 0 < g.held u → 0 < g'.held u := fun h => h.trans_le hheld
  have hsame : g.destroyer = some u →
      g.destroyer = g'.destroyer ∧ g.freed = g'.freed ∧ g.disposals = g'.disposals :=
    fun hd => htail.resolve_right fun hne => hne.1 hd
  cases pc with
  | incrCas old | decrCas old => exact ⟨hpos h.1,h.2⟩
  | copyIsGC | copyIsGlobal | hitIsGlobal => exact h
  | idle =>
    intro hd'
    rcases htail with ⟨hd,hf,-⟩ | ⟨-,hd⟩
    · exact hf.symm.trans (h (hd.trans hd'))
    · exact absurd hd' hd
  | hitIsGC | hitNeedsFree | hasDispose | deallocate =>
    obtain ⟨hd,hf,hn⟩ := hsame h.1
    exact ⟨hd.symm.trans h.1,hf.symm.trans h.2.1,hn.symm.trans h.2.2⟩
  | dispose =>
    obtain ⟨hd,hf,hn⟩ := hsame h.1
    exact ⟨hd.symm.trans h.1,hf.symm.trans h.2.1,hn.symm.trans h.2.2.1,h.2.2.2⟩
  | _ => exact hpos h

namespace SharedInv
variable {flags₀ : Word} {g : Shared Tid} {t : Tid} (hI : SharedInv flags₀ g)
include hI

/-- Who has a reference finds the object alive. -/
theorem held_pos (h : 0 < g.held t) : count g.flags ≠ 0 ∧ g.destroyer = none ∧ g.freed = false := by
  have hcount : count g.flags ≠ 0 := by
    cases hl : g.latched with
    | false =>
      have hsum := le_sum g.held t
      have hc := (hI.counted hl).1
      omega
    | true =>
      have hc := hI.latch hl
      omega
  have hd := hI.alive hcount
  exact ⟨hcount,hd,(hI.quiet hd).1⟩

theorem latched_eq (h : count g.flags = 65535) : g.latched = true := by
  cases hl : g.latched with
  | false => exact absurd h (hI.counted hl).2
  | true => rfl

theorem not_latched_eq (h : count g.flags ≠ 65535) : g.latched = false := by
  cases hl : g.latched with
  | false => rfl
  | true => exact absurd (hI.latch hl) h

omit [Fintype Tid] hI in
theorem touch_eq (hs : g.usedAfterFree = false) (hf : g.freed = false) : g.touch = g := by
  have hsafe : (g.usedAfterFree || g.freed) = g.usedAfterFree := by rw [hs,hf]; rfl
  rw [Shared.touch,hsafe]

variable [DecidableEq Tid]

/-- A latched count stays as it is. -/
theorem gain_latched (h : count g.flags = 65535) : SharedInv flags₀ (g.gain t) where
  bits := hI.bits
  refs := by
    have hsum := sum_gain g.held t
    have hrefs := hI.refs
    change g.references + 1 = g.releases + ∑ u, (if u = t then g.held u + 1 else g.held u)
    omega
  counted hl := absurd ((hI.latched_eq h).symm.trans hl) (by decide)
  latch _ := h
  alive := hI.alive
  dead := hI.dead
  quiet := hI.quiet
  unfreed := hI.unfreed
  gone := hI.gone
  disposals_le := hI.disposals_le
  safe := hI.safe
  home := hI.home

theorem casIncr (hheld : 0 < g.held t) (h : count g.flags ≠ 65535) :
    SharedInv flags₀ (Shared.gain t { g with
      flags := g.flags + 1
      latched := g.latched || (g.flags + 1) &&& BLOCK_REFCOUNT_MASK == BLOCK_REFCOUNT_MASK }) := by
  obtain ⟨hbits,hcount⟩ := sameFlags_add_one h
  obtain ⟨hc,hd,hf⟩ := hI.held_pos hheld
  have hl := hI.not_latched_eq h
  have hsum := sum_gain g.held t
  have hcounted := (hI.counted hl).1
  exact {
    bits := hbits.trans hI.bits
    refs := by
      have hrefs := hI.refs
      change g.references + 1 = g.releases + ∑ u, (if u = t then g.held u + 1 else g.held u)
      omega
    counted := by
      intro hl'
      have hne := (Bool.or_eq_false_iff.mp hl').2
      refine ⟨(hcount.trans (congrArg (· + 1) hcounted)).trans hsum.symm,fun h' => ?_⟩
      exact absurd ((latched_iff _).mpr h') (beq_eq_false_iff_ne.mp hne)
    latch := by
      intro hl'
      rcases Bool.or_eq_true_iff.mp hl' with hl' | hl'
      · exact absurd (hl.symm.trans hl') (by decide)
      · exact (latched_iff _).mp (beq_iff_eq.mp hl')
    alive := fun _ => hd
    dead := fun h' => absurd (hcount.symm.trans h') (Nat.succ_ne_zero _)
    quiet := hI.quiet
    unfreed := hI.unfreed
    gone := hI.gone
    disposals_le := hI.disposals_le
    safe := hI.safe
    home := hI.home }

theorem drop_latched (hheld : 0 < g.held t) (h : count g.flags = 65535) : SharedInv flags₀ (g.drop t) where
  bits := hI.bits
  refs := by
    have hsum := sum_drop hheld
    have hrefs := hI.refs
    change g.references = g.releases + 1 + ∑ u, (if u = t then g.held u - 1 else g.held u)
    omega
  counted hl := absurd ((hI.latched_eq h).symm.trans hl) (by decide)
  latch _ := h
  alive := hI.alive
  dead := hI.dead
  quiet := hI.quiet
  unfreed := hI.unfreed
  gone := hI.gone
  disposals_le := hI.disposals_le
  safe := hI.safe
  home := hI.home

/-- A release takes one off, and if that is the last the thread has the object to itself. -/
theorem casDecr (hheld : 0 < g.held t) (h : count g.flags ≠ 65535) {destroyer : Option Tid}
    (hmore : count (g.flags - 1) ≠ 0 → destroyer = g.destroyer) (hlast : count (g.flags - 1) = 0 → destroyer = some t) :
    SharedInv flags₀ { Shared.drop t { g with flags := g.flags - 1 } with destroyer := destroyer } := by
  obtain ⟨hc,hnone,hf⟩ := hI.held_pos hheld
  obtain ⟨hbits,hcount⟩ := sameFlags_sub_one hc
  have hl := hI.not_latched_eq h
  have hsum := sum_drop hheld
  have hcounted := (hI.counted hl).1
  exact {
    bits := hbits.trans hI.bits
    refs := by
      have hrefs := hI.refs
      change g.references = g.releases + 1 + ∑ u, (if u = t then g.held u - 1 else g.held u)
      omega
    counted := by
      intro _
      change count (g.flags - 1) = ∑ u, (if u = t then g.held u - 1 else g.held u) ∧ count (g.flags - 1) ≠ 65535
      have hlt : count g.flags < 65536 := by
        rw [count_eq]
        exact Nat.mod_lt _ (by decide)
      constructor <;> omega
    latch := fun hl' => absurd (hl.symm.trans hl') (by decide)
    alive := fun h' => (hmore h').trans hnone
    dead := fun h' hd => Option.some_ne_none t ((hlast h').symm.trans hd)
    quiet := fun _ => hI.quiet hnone
    unfreed := hI.unfreed
    gone := hI.gone
    disposals_le := hI.disposals_le
    safe := hI.safe
    home := hI.home }

theorem give (hheld : 0 < g.held t) (other : Tid) : SharedInv flags₀ (g.give t other) := by
  have hsum : ∑ u, (g.give t other).held u = ∑ u, g.held u := (sum_gain _ other).trans (sum_drop hheld)
  exact {
    bits := hI.bits
    refs := by
      rw [hsum]
      exact hI.refs
    counted := by
      rw [hsum]
      exact hI.counted
    latch := hI.latch
    alive := hI.alive
    dead := hI.dead
    quiet := hI.quiet
    unfreed := hI.unfreed
    gone := hI.gone
    disposals_le := hI.disposals_le
    safe := hI.safe
    home := hI.home }

omit [DecidableEq Tid]

theorem dispose (hd : g.destroyer = some t) (hf : g.freed = false) (hn : g.disposals = 0) :
    SharedInv flags₀ { g with disposals := g.disposals + 1 } where
  bits := hI.bits
  refs := hI.refs
  counted := hI.counted
  latch := hI.latch
  alive := hI.alive
  dead := hI.dead
  quiet h := absurd (hd.symm.trans h) (Option.some_ne_none t)
  unfreed := hI.unfreed
  gone h := absurd (hf.symm.trans h) (by decide)
  disposals_le := by
    change g.disposals + 1 ≤ 1
    omega
  safe := hI.safe
  home := hI.home

theorem deallocate (hd : g.destroyer = some t) (hf : g.freed = false) (hn : g.disposals = helperCalls flags₀) :
    SharedInv flags₀ { g with deallocations := g.deallocations + 1, freed := true } where
  bits := hI.bits
  refs := hI.refs
  counted := hI.counted
  latch := hI.latch
  alive := hI.alive
  dead := hI.dead
  quiet h := absurd (hd.symm.trans h) (Option.some_ne_none t)
  unfreed h := nomatch h
  gone _ := ⟨congrArg (· + 1) (hI.unfreed hf),hn⟩
  disposals_le := hI.disposals_le
  safe := hI.safe
  home := hI.home

end SharedInv

/-! ## Steps -/

/-- What a step must show: the invariant, the thread's own knowledge, and that the others are not disturbed. -/
def StepOk (flags₀ : Word) (t : Tid) (g g' : Shared Tid) (pc' : Pc) : Prop :=
  SharedInv flags₀ g' ∧ Knows flags₀ g' t pc' ∧ ∀ u, t ≠ u → Undisturbed u g g'

section Exec
variable {flags₀ : Word} {g : Shared Tid} {t : Tid}

/-- A step that changes nothing but where the thread stands. -/
theorem stepOk_same (hI : SharedInv flags₀ g) {pc' : Pc} (h : Knows flags₀ g t pc') : StepOk flags₀ t g g pc' :=
  ⟨hI,h,fun u _ => Undisturbed.refl u g⟩

theorem stepOk_test (hI : SharedInv flags₀ g) (hf : g.freed = false) (flag : Word) (yes no : Pc)
    (hyes : g.flags &&& flag ≠ 0 → Knows flags₀ g t yes) (hno : g.flags &&& flag = 0 → Knows flags₀ g t no)
    {g' : Shared Tid} {pc' : Pc} (he : some (test flag yes no g) = some (g',pc')) : StepOk flags₀ t g g' pc' := by
  rw [test,SharedInv.touch_eq hI.safe hf] at he
  cases he
  refine stepOk_same hI ?_
  by_cases h : g.flags &&& flag = 0
  · rw [if_neg (not_not_intro h)]
    exact hno h
  · rw [if_pos h]
    exact hyes h

omit [Fintype Tid] in
theorem knows_afterIncr (object : Object) {g' : Shared Tid} (hd : g'.destroyer = none) (hh : 0 < g'.held t) :
    Knows flags₀ g' t (afterIncr object) := by
  cases object with
  | block => exact fun h => absurd (h.symm.trans hd) (Option.some_ne_none t)
  | byref => exact hh

variable [DecidableEq Tid]

omit [Fintype Tid] in
theorem undisturbed_other {u : Tid} (h : t ≠ u) {g' : Shared Tid} {f : Tid → ℕ}
    (hheld : g'.held = fun u => if u = t then f u else g.held u)
    (hd : (g.destroyer = g'.destroyer ∧ g.freed = g'.freed ∧ g.disposals = g'.disposals) ∨
      (g.destroyer ≠ some u ∧ g'.destroyer ≠ some u)) : Undisturbed u g g' := by
  refine ⟨?_,hd⟩
  rw [hheld]
  exact Nat.le_of_eq (if_neg h.symm).symm

omit [Fintype Tid] in
theorem held_gain (t : Tid) (g : Shared Tid) : 0 < (g.gain t).held t := by
  change 0 < if t = t then g.held t + 1 else g.held t
  rw [if_pos rfl]
  exact Nat.succ_pos _

theorem stepOk_incrLoad (hI : SharedInv flags₀ g) (object : Object) {g' : Shared Tid} {pc' : Pc} (h : 0 < g.held t)
    (he : exec object t g .incrLoad = some (g',pc')) : StepOk flags₀ t g g' pc' := by
  obtain ⟨hc,hd,hf⟩ := hI.held_pos h
  change (if g.flags &&& BLOCK_REFCOUNT_MASK = BLOCK_REFCOUNT_MASK then some (g.touch.gain t,afterIncr object)
    else some (g.touch,.incrCas g.flags)) = _ at he
  rw [SharedInv.touch_eq hI.safe hf] at he
  by_cases hl : g.flags &&& BLOCK_REFCOUNT_MASK = BLOCK_REFCOUNT_MASK
  · rw [if_pos hl] at he
    cases he
    exact ⟨hI.gain_latched ((latched_iff _).mp hl),knows_afterIncr object hd (held_gain t g),
      fun u hu => undisturbed_other hu rfl (Or.inl ⟨rfl,rfl,rfl⟩)⟩
  · rw [if_neg hl] at he
    cases he
    exact stepOk_same hI ⟨h,fun hc' => hl ((latched_iff _).mpr hc')⟩

theorem stepOk_incrCas (hI : SharedInv flags₀ g) (object : Object) {old_value : Word} {g' : Shared Tid} {pc' : Pc}
    (h : 0 < g.held t) (hold : count old_value ≠ 65535) (he : exec object t g (.incrCas old_value) = some (g',pc')) :
    StepOk flags₀ t g g' pc' := by
  obtain ⟨hc,hd,hf⟩ := hI.held_pos h
  rw [exec,SharedInv.touch_eq hI.safe hf] at he
  by_cases hcas : g.flags = old_value
  · subst hcas
    rw [if_pos rfl] at he
    cases he
    exact ⟨hI.casIncr h hold,knows_afterIncr object hd (held_gain t _),
      fun u hu => undisturbed_other hu rfl (Or.inl ⟨rfl,rfl,rfl⟩)⟩
  · rw [if_neg hcas] at he
    cases he
    exact stepOk_same hI h

omit [Fintype Tid] [DecidableEq Tid] in
theorem knows_hitZero (object : Object) {g' : Shared Tid}
    (h : g'.destroyer = some t ∧ g'.freed = false ∧ g'.disposals = 0) : Knows flags₀ g' t (hitZero object) := by
  cases object with
  | block => exact h
  | byref => exact h

theorem stepOk_decrLoad (hI : SharedInv flags₀ g) (object : Object) {g' : Shared Tid} {pc' : Pc} (h : 0 < g.held t)
    (he : exec object t g .decrLoad = some (g',pc')) : StepOk flags₀ t g g' pc' := by
  obtain ⟨hc,hd,hf⟩ := hI.held_pos h
  change (if g.flags &&& BLOCK_REFCOUNT_MASK = BLOCK_REFCOUNT_MASK then some (g.touch.drop t,.idle)
    else if g.flags &&& BLOCK_REFCOUNT_MASK = 0 then some (g.touch,hitZero object)
    else some (g.touch,.decrCas g.flags)) = _ at he
  rw [SharedInv.touch_eq hI.safe hf,if_neg fun hz => hc ((zero_iff _).mp hz)] at he
  by_cases hl : g.flags &&& BLOCK_REFCOUNT_MASK = BLOCK_REFCOUNT_MASK
  · rw [if_pos hl] at he
    cases he
    exact ⟨hI.drop_latched h ((latched_iff _).mp hl),fun hd' => absurd (hd'.symm.trans hd) (Option.some_ne_none t),
      fun u hu => undisturbed_other hu rfl (Or.inl ⟨rfl,rfl,rfl⟩)⟩
  · rw [if_neg hl] at he
    cases he
    exact stepOk_same hI ⟨h,fun hc' => hl ((latched_iff _).mpr hc'),hc⟩

theorem stepOk_decrCas (hI : SharedInv flags₀ g) (object : Object) {old_value : Word} {g' : Shared Tid} {pc' : Pc}
    (h : 0 < g.held t) (hold : count old_value ≠ 65535)
    (he : exec object t g (.decrCas old_value) = some (g',pc')) : StepOk flags₀ t g g' pc' := by
  obtain ⟨hc,hd,hf⟩ := hI.held_pos h
  rw [exec,SharedInv.touch_eq hI.safe hf] at he
  by_cases hcas : g.flags = old_value
  swap
  · rw [if_neg hcas] at he
    cases he
    exact stepOk_same hI h
  subst hcas
  rw [if_pos rfl] at he
  dsimp only at he
  by_cases hlast : (g.flags - 1) &&& BLOCK_REFCOUNT_MASK = 0
  · rw [if_pos hlast] at he
    cases he
    have hzero := (zero_iff _).mp hlast
    refine ⟨hI.casDecr h hold (fun hne => absurd hzero hne) fun _ => rfl,
      knows_hitZero object ⟨rfl,hf,(hI.quiet hd).2⟩,fun u hu => undisturbed_other hu rfl (Or.inr ⟨?_,?_⟩)⟩
    · rw [hd]
      exact (Option.some_ne_none u).symm
    · exact fun hs => hu (Option.some.inj hs)
  · rw [if_neg hlast] at he
    cases he
    exact ⟨hI.casDecr h hold (fun _ => rfl) (fun hz => absurd ((zero_iff _).mpr hz) hlast),
      fun hd' => absurd (hd'.symm.trans hd) (Option.some_ne_none t),
      fun u hu => undisturbed_other hu rfl (Or.inl ⟨rfl,rfl,rfl⟩)⟩

variable (hfree : flags₀ &&& BLOCK_NEEDS_FREE ≠ 0) (hgc : flags₀ &&& BLOCK_IS_GC = 0)
include hfree hgc

/-- Each step of a call keeps the invariant. -/
theorem exec_ok (hI : SharedInv flags₀ g) (object : Object) {pc pc' : Pc} {g' : Shared Tid} (h : Knows flags₀ g t pc)
    (he : exec object t g pc = some (g',pc')) : StepOk flags₀ t g g' pc' := by
  have hfree' : g.flags &&& BLOCK_NEEDS_FREE ≠ 0 := fun h' => hfree ((hI.bits.and_bit (by decide)).mp h')
  have hgc' : g.flags &&& BLOCK_IS_GC = 0 := (hI.bits.and_bit (by decide)).mpr hgc
  cases pc with
  | idle => exact absurd he nofun
  | copyIsGC | copyIsGlobal | hitIsGlobal => exact h.elim
  | copyNeedsFree =>
    exact stepOk_test hI (hI.held_pos h).2.2 BLOCK_NEEDS_FREE .incrLoad .copyIsGC (fun _ => h)
      (fun hno => absurd hno hfree') he
  | assignNeedsFree =>
    exact stepOk_test hI (hI.held_pos h).2.2 BLOCK_NEEDS_FREE .incrLoad .assign (fun _ => h)
      (fun hno => absurd hno hfree') he
  | byrefNeedsFree =>
    exact stepOk_test hI (hI.held_pos h).2.2 BLOCK_NEEDS_FREE .byrefCount .idle (fun _ => h)
      (fun hno => absurd hno hfree') he
  | byrefCount =>
    exact stepOk_test hI (hI.held_pos h).2.2 BLOCK_REFCOUNT_MASK .decrLoad .idle (fun _ => h)
      (fun hno => absurd ((zero_iff _).mp hno) (hI.held_pos h).1) he
  | assignIsGC =>
    exact stepOk_test hI (hI.held_pos h).2.2 BLOCK_IS_GC .assign .assignCount (fun hyes => absurd hgc' hyes)
      (fun _ => h) he
  | assignCount =>
    obtain ⟨hc,hd,hf⟩ := hI.held_pos h
    rw [exec,if_neg fun hz => hc ((zero_iff _).mp hz),SharedInv.touch_eq hI.safe hf] at he
    cases he
    exact stepOk_same hI h
  | assign =>
    obtain ⟨hc,hd,hf⟩ := hI.held_pos h
    rw [exec,SharedInv.touch_eq hI.safe hf] at he
    cases he
    exact stepOk_same hI fun hd' => absurd (hd'.symm.trans hd) (Option.some_ne_none t)
  | incrLoad => exact stepOk_incrLoad hI object h he
  | incrCas old_value => exact stepOk_incrCas hI object h.1 h.2 he
  | decrLoad => exact stepOk_decrLoad hI object h he
  | decrCas old_value => exact stepOk_decrCas hI object h.1 h.2.1 he
  | hitIsGC =>
    exact stepOk_test hI h.2.1 BLOCK_IS_GC .idle .hitNeedsFree (fun hyes => absurd hgc' hyes) (fun _ => h) he
  | hitNeedsFree =>
    exact stepOk_test hI h.2.1 BLOCK_NEEDS_FREE .hasDispose .hitIsGlobal (fun _ => h)
      (fun hno => absurd hno hfree') he
  | hasDispose =>
    refine stepOk_test hI h.2.1 BLOCK_HAS_COPY_DISPOSE .dispose .deallocate (fun hyes => ⟨h.1,h.2.1,h.2.2,if_neg fun hno => hyes ?_⟩)
      (fun hno => ⟨h.1,h.2.1,h.2.2.trans (if_pos ?_).symm⟩) he
    · exact (hI.bits.and_bit (by decide)).mpr hno
    · exact (hI.bits.and_bit (by decide)).mp hno
  | dispose =>
    obtain ⟨hd,hf,hn,hcalls⟩ := h
    rw [exec,SharedInv.touch_eq hI.safe hf] at he
    cases he
    refine ⟨hI.dispose hd hf hn,⟨hd,hf,?_⟩,fun u hu => ⟨Nat.le_refl _,Or.inr ⟨?_,?_⟩⟩⟩
    · rw [hcalls,hn]
    · exact fun hs => hu (Option.some.inj (hd.symm.trans hs))
    · exact fun hs => hu (Option.some.inj (hd.symm.trans hs))
  | deallocate =>
    obtain ⟨hd,hf,hn⟩ := h
    rw [exec,SharedInv.touch_eq hI.safe hf] at he
    cases he
    refine ⟨hI.deallocate hd hf hn,fun _ => rfl,fun u hu => ⟨Nat.le_refl _,Or.inr ⟨?_,?_⟩⟩⟩
    · exact fun hs => hu (Option.some.inj (hd.symm.trans hs))
    · exact fun hs => hu (Option.some.inj (hd.symm.trans hs))

omit [Fintype Tid] [DecidableEq Tid] hfree hgc in
theorem knows_start (object : Object) (h : 0 < g.held t) :
    Knows flags₀ g t (startCopy object) ∧ Knows flags₀ g t (startRelease object) := by
  cases object with
  | block => exact ⟨h,h⟩
  | byref => exact ⟨h,h⟩

theorem next_ok (hI : SharedInv flags₀ g) (object : Object) {a : Action Tid} {pc pc' : Pc} {g' : Shared Tid}
    (h : Knows flags₀ g t pc) (he : next object t a g pc = some (g',pc')) : StepOk flags₀ t g g' pc' := by
  cases a with
  | copy =>
    obtain ⟨hcall,heq⟩ := Option.ite_none_right_eq_some.mp he
    cases heq
    exact stepOk_same hI (knows_start object hcall.2).1
  | release =>
    obtain ⟨hcall,heq⟩ := Option.ite_none_right_eq_some.mp he
    cases heq
    exact stepOk_same hI (knows_start object hcall.2).2
  | give other =>
    obtain ⟨⟨rfl,hheld⟩,heq⟩ := Option.ite_none_right_eq_some.mp he
    cases heq
    refine ⟨hI.give hheld other,h,fun u hu => ⟨?_,Or.inl ⟨rfl,rfl,rfl⟩⟩⟩
    change g.held u ≤ if u = other then (if u = t then g.held u - 1 else g.held u) + 1
      else if u = t then g.held u - 1 else g.held u
    rw [if_neg hu.symm]
    split <;> omega
  | next => exact exec_ok hfree hgc hI object h he

end Exec

/-! ## Runs -/

/-- The object is disposed of and freed once, by the last release; a count that has latched keeps it; and no thread
touches it after it is freed. -/
structure RefcountSafe (flags₀ : Word) (c : Config Tid) : Prop where
  disposals_le : c.shared.disposals ≤ 1
  deallocations_le : c.shared.deallocations ≤ 1
  not_early : 0 < c.shared.disposals ∨ 0 < c.shared.deallocations →
    c.shared.latched = false ∧ c.shared.releases = c.shared.references
  at_end : (∀ t, c.threads t = .idle) → c.shared.latched = false → c.shared.releases = c.shared.references →
    c.shared.deallocations = 1 ∧ c.shared.disposals = helperCalls flags₀
  latched_kept : c.shared.latched = true →
    c.shared.freed = false ∧ c.shared.deallocations = 0 ∧ c.shared.disposals = 0
  not_used : c.shared.usedAfterFree = false
  not_forwarded : c.shared.forwarded = false

def RefcountInv (flags₀ : Word) : Config Tid → Prop := Interleaving.Inv (SharedInv flags₀) (Knows flags₀)

namespace SharedInv
variable {flags₀ : Word} {g : Shared Tid} (hI : SharedInv flags₀ g)
include hI

theorem deallocations_eq : g.deallocations = if g.freed then 1 else 0 := by
  cases hf : g.freed with
  | false => exact hI.unfreed hf
  | true => exact (hI.gone hf).1

/-- Once a thread is the last one, there are no references left. -/
theorem none_left (hd : g.destroyer ≠ none) : g.latched = false ∧ g.releases = g.references := by
  have hcount : count g.flags = 0 := by
    by_contra hc
    exact hd (hI.alive hc)
  have hl := hI.not_latched_eq (by omega)
  have hrefs := hI.refs
  have hsum := (hI.counted hl).1
  exact ⟨hl,by omega⟩

end SharedInv

theorem RefcountInv.safe {flags₀ : Word} {c : Config Tid} (h : RefcountInv flags₀ c) : RefcountSafe flags₀ c := by
  obtain ⟨hI,hA⟩ := h
  have hdealloc := hI.deallocations_eq
  exact {
    disposals_le := hI.disposals_le
    deallocations_le := by
      rw [hdealloc]
      split <;> decide
    not_early := by
      intro hpos
      refine hI.none_left fun hd => ?_
      obtain ⟨hf,hn⟩ := hI.quiet hd
      have hunfreed := hI.unfreed hf
      omega
    at_end := by
      intro hidle hl hall
      have hrefs := hI.refs
      have hsum := (hI.counted hl).1
      obtain ⟨t,hd⟩ := Option.ne_none_iff_exists'.mp (hI.dead (show count c.shared.flags = 0 by omega))
      have hknow := hA t
      rw [hidle t] at hknow
      exact hI.gone (hknow hd)
    latched_kept := by
      intro hl
      have hcount := hI.latch hl
      obtain ⟨hf,hn⟩ := hI.quiet (hI.alive (by omega))
      exact ⟨hf,hI.unfreed hf,hn⟩
    not_used := hI.safe
    not_forwarded := hI.home }

/-- The references that are handed out at the start are those that the count says. -/
theorem refcountInv_start {flags₀ : Word} {held : Tid → ℕ} (hcount : count flags₀ = ∑ t, held t)
    (hpos : 0 < count flags₀) (hlt : count flags₀ < 65535) : RefcountInv flags₀ (start flags₀ held) where
  left :=
    { bits := rfl
      refs := by
        change count flags₀ = 0 + ∑ t, held t
        omega
      counted := fun _ => ⟨hcount,Nat.ne_of_lt hlt⟩
      latch := nofun
      alive := fun _ => rfl
      dead := fun h => absurd h (Nat.ne_of_gt hpos)
      quiet := fun _ => ⟨rfl,rfl⟩
      unfreed := fun _ => rfl
      gone := nofun
      disposals_le := Nat.zero_le 1
      safe := rfl
      home := rfl }
  right := fun _ => nofun

end Invariant

/-- The stack frame and the heap block each release their reference to a variable that has a dispose helper. -/
def releaseBoth : List (Fin 2 × Action (Fin 2)) :=
  (0,.release) :: List.replicate 4 (0,.next) ++ (1,.release) :: List.replicate 7 (1,.next)

theorem releaseBoth_isSome : (Transition.run (step .byref)
    (start (copiedByrefFlags BLOCK_HAS_COPY_DISPOSE) fun _ => 1) releaseBoth).isSome := by decide +kernel

end CompilerRt.Blocks
