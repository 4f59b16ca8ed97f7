import CompilerRt.Asan.Mapping
import Mathlib

/-! # Poisoning by the user

`lib/asan/asan_poisoning.cc`: a shadow byte tells how many leading bytes of its granule are addressable, so a region is
poisoned conservatively and unpoisoned progressively at its two ends.
-/
namespace CompilerRt.AsanMapping

abbrev Shadow := ℕ → BitVec 8

def SHADOW_GRANULARITY : ℕ := 1 <<< SHADOW_SCALE
def kAccessSize : ℕ := 1
def kAsanUserPoisonedMemoryMagic : BitVec 8 := 0xf7

def WordSize.bits : WordSize → ℕ
  | .w32 => 32
  | .w64 => 64

/-- A failed `CHECK(AddrIsInMem(p))` ends the process. -/
def MemToShadow (w : WordSize) (p : ℕ) : Option ℕ := if w.AddrIsInMem p then some (w.MEM_TO_SHADOW p) else none

def AddressIsPoisoned (w : WordSize) (sh : Shadow) (a : ℕ) : Option Bool := do
  let shadow_address ← MemToShadow w a
  let shadow_value := sh shadow_address
  if shadow_value ≠ 0 then
    let last_accessed_byte := (a &&& (SHADOW_GRANULARITY - 1)) + kAccessSize - 1
    return decide (shadow_value.toInt ≤ last_accessed_byte)
  else return false

def Min (a b : BitVec 8) : BitVec 8 := if a.slt b then a else b
def Max (a b : BitVec 8) : BitVec 8 := if b.slt a then a else b

structure ShadowSegmentEndpoint where
  chunk : ℕ
  offset : BitVec 8
  value : BitVec 8

def ShadowSegmentEndpoint.of (w : WordSize) (sh : Shadow) (address : ℕ) : Option ShadowSegmentEndpoint := do
  let chunk ← MemToShadow w address
  return ⟨chunk,BitVec.ofNat 8 (address &&& (SHADOW_GRANULARITY - 1)),sh chunk⟩

namespace Shadow

def set (sh : Shadow) (chunk : ℕ) (value : BitVec 8) : Shadow := fun c => if c = chunk then value else sh c

def memset (sh : Shadow) (chunk : ℕ) (value : BitVec 8) (n : ℕ) : Shadow :=
  fun c => if chunk ≤ c ∧ c < chunk + n then value else sh c

@[simp] theorem set_self (sh : Shadow) (chunk : ℕ) (value : BitVec 8) : sh.set chunk value chunk = value := if_pos rfl

theorem set_of_ne (sh : Shadow) {chunk c : ℕ} (value : BitVec 8) (h : c ≠ chunk) : sh.set chunk value c = sh c :=
  if_neg h

theorem memset_inside (sh : Shadow) {chunk c n : ℕ} (value : BitVec 8) (h : chunk ≤ c ∧ c < chunk + n) :
    sh.memset chunk value n c = value :=
  if_pos h

theorem memset_outside (sh : Shadow) {chunk c n : ℕ} (value : BitVec 8) (h : c < chunk ∨ chunk + n ≤ c) :
    sh.memset chunk value n c = sh c :=
  if_neg (by omega)

end Shadow

def asan_poison_memory_region (w : WordSize) (allow_user_poisoning : Bool) (sh : Shadow) (addr size : ℕ) :
    Option Shadow :=
  if !allow_user_poisoning || size == 0 then some sh
  else do
    let end_addr := (addr + size) % 2^w.bits
    let b ← ShadowSegmentEndpoint.of w sh addr
    let e ← ShadowSegmentEndpoint.of w sh end_addr
    if b.chunk = e.chunk then
      if b.offset.slt e.offset ∧ b.value = e.value then
        if (0#8).slt b.value ∧ b.value.sle e.offset then
          if (0#8).slt b.offset then return sh.set b.chunk (Min b.value b.offset)
          else return sh.set b.chunk kAsanUserPoisonedMemoryMagic
        else return sh
      else none
    else if b.chunk < e.chunk then
      let first :=
        if (0#8).slt b.offset then
          (sh.set b.chunk (if b.value = 0 then b.offset else Min b.value b.offset),b.chunk + 1)
        else (sh,b.chunk)
      let inner := first.1.memset first.2 kAsanUserPoisonedMemoryMagic (e.chunk - first.2)
      if (0#8).slt e.value ∧ e.value.sle e.offset then return inner.set e.chunk kAsanUserPoisonedMemoryMagic
      else return inner
    else none

def asan_unpoison_memory_region (w : WordSize) (allow_user_poisoning : Bool) (sh : Shadow) (addr size : ℕ) :
    Option Shadow :=
  if !allow_user_poisoning || size == 0 then some sh
  else do
    let end_addr := (addr + size) % 2^w.bits
    let b ← ShadowSegmentEndpoint.of w sh addr
    let e ← ShadowSegmentEndpoint.of w sh end_addr
    if b.chunk = e.chunk then
      if b.offset.slt e.offset ∧ b.value = e.value then
        if b.value ≠ 0 then return sh.set b.chunk (Max b.value e.offset)
        else return sh
      else none
    else if b.chunk < e.chunk then
      let first := if (0#8).slt b.offset then (sh.set b.chunk 0,b.chunk + 1) else (sh,b.chunk)
      let inner := first.1.memset first.2 0 (e.chunk - first.2)
      if (0#8).slt e.offset ∧ e.value ≠ 0 then return inner.set e.chunk (Max e.value e.offset)
      else return inner
    else none

/-! ## Granules -/

/-- Byte `k` of a granule with the shadow value `v` is poisoned. -/
def Poisoned (v : BitVec 8) (k : ℕ) : Prop := v.toInt ≠ 0 ∧ v.toInt ≤ k

instance (v : BitVec 8) (k : ℕ) : Decidable (Poisoned v k) := inferInstanceAs (Decidable (_ ∧ _))

/-- No value says more than that a part of the granule is addressable. -/
def Shadow.Valid (sh : Shadow) : Prop := ∀ c, (sh c).toInt < 8

/-- One of the two memory ranges. -/
def WordSize.InOneRange (w : WordSize) (a b : ℕ) : Prop :=
  (w.AddrIsInLowMem a ∧ w.AddrIsInLowMem b) ∨ (w.AddrIsInHighMem a ∧ w.AddrIsInHighMem b)

variable {w : WordSize} {sh sh' : Shadow} {a b addr size : ℕ}

theorem toInt_min (u v : BitVec 8) : (Min u v).toInt = min u.toInt v.toInt := by
  rw [Min, BitVec.slt]
  by_cases h : u.toInt < v.toInt
  · rw [decide_eq_true h, if_pos rfl, min_eq_left h.le]
  · rw [decide_eq_false h, if_neg Bool.false_ne_true, min_eq_right (not_lt.mp h)]

theorem toInt_max (u v : BitVec 8) : (Max u v).toInt = max u.toInt v.toInt := by
  rw [Max, BitVec.slt]
  by_cases h : v.toInt < u.toInt
  · rw [decide_eq_true h, if_pos rfl, max_eq_left h.le]
  · rw [decide_eq_false h, if_neg Bool.false_ne_true, max_eq_right (not_lt.mp h)]

theorem granuleOffset (a : ℕ) : a &&& (SHADOW_GRANULARITY - 1) = a % 8 :=
  Nat.and_two_pow_sub_one_eq_mod a 3

theorem toInt_granuleOffset (a : ℕ) :
    (BitVec.ofNat 8 (a &&& (SHADOW_GRANULARITY - 1))).toInt = (a % 8 : ℕ) := by
  have hlt := Nat.mod_lt a (show 0 < 8 by decide)
  rw [granuleOffset, BitVec.toInt_ofNat', Int.bmod_def]
  split_ifs <;> omega

theorem toInt_eq_zero {v : BitVec 8} : v.toInt = 0 ↔ v = 0 := by
  constructor
  · intro h
    exact BitVec.eq_of_toInt_eq h
  · intro h
    rw [h]
    rfl

theorem memToShadow_mem (ha : w.AddrIsInMem a = true) : MemToShadow w a = some (w.SHADOW_OFFSET + a / 8) := by
  have hend : a ≤ w.kHighMemEnd := by
    have hu := unit_pos w
    rw [WordSize.AddrIsInMem, Bool.or_eq_true] at ha
    rw [kHighMemEnd_eq]
    rcases ha with ha | ha
    · have h := (test_iff w a .lowMem).mp ha
      dsimp only at h
      omega
    · exact ((test_iff w a .highMem).mp ha).2
  rw [MemToShadow, if_pos ha, memToShadow_eq w hend]

theorem addressIsPoisoned_mem (ha : w.AddrIsInMem a = true) :
    AddressIsPoisoned w sh a = some (decide (Poisoned (sh (w.SHADOW_OFFSET + a / 8)) (a % 8))) := by
  rw [AddressIsPoisoned, memToShadow_mem ha]
  dsimp only [Option.bind_eq_bind, Option.bind_some]
  rw [granuleOffset, kAccessSize, Nat.add_sub_cancel]
  by_cases hzero : sh (w.SHADOW_OFFSET + a / 8) = 0
  · rw [if_neg (not_not_intro hzero), decide_eq_false]
    · rfl
    · exact fun h => h.1 (toInt_eq_zero.mpr hzero)
  · have hpoisoned : Poisoned (sh (w.SHADOW_OFFSET + a / 8)) (a % 8) ↔
        (sh (w.SHADOW_OFFSET + a / 8)).toInt ≤ (a % 8 : ℕ) :=
      and_iff_right fun h => hzero (toInt_eq_zero.mp h)
    rw [if_pos hzero, decide_eq_decide.mpr hpoisoned]
    rfl

theorem addressIsPoisoned_iff (ha : w.AddrIsInMem a = true) :
    AddressIsPoisoned w sh a = some true ↔ Poisoned (sh (w.SHADOW_OFFSET + a / 8)) (a % 8) := by
  rw [addressIsPoisoned_mem ha, Option.some_inj, decide_eq_true_iff]

theorem addressIsPoisoned_congr (ha : w.AddrIsInMem a = true)
    (h : Poisoned (sh' (w.SHADOW_OFFSET + a / 8)) (a % 8) ↔ Poisoned (sh (w.SHADOW_OFFSET + a / 8)) (a % 8)) :
    AddressIsPoisoned w sh' a = AddressIsPoisoned w sh a := by
  rw [addressIsPoisoned_mem ha, addressIsPoisoned_mem ha, decide_eq_decide.mpr h]

theorem addressIsPoisoned_outside (ha : ¬ w.AddrIsInMem a = true) : AddressIsPoisoned w sh a = none := by
  rw [AddressIsPoisoned, MemToShadow, if_neg ha]
  rfl

theorem endpoint_mem (ha : w.AddrIsInMem a = true) : ShadowSegmentEndpoint.of w sh a =
    some ⟨w.SHADOW_OFFSET + a / 8,BitVec.ofNat 8 (a &&& (SHADOW_GRANULARITY - 1)),sh (w.SHADOW_OFFSET + a / 8)⟩ := by
  rw [ShadowSegmentEndpoint.of, memToShadow_mem ha]
  rfl

theorem WordSize.InOneRange.left (h : w.InOneRange a b) : w.AddrIsInMem a = true := by
  rw [WordSize.AddrIsInMem, Bool.or_eq_true]
  exact h.imp And.left And.left

theorem WordSize.InOneRange.right (h : w.InOneRange a b) : w.AddrIsInMem b = true := by
  rw [WordSize.AddrIsInMem, Bool.or_eq_true]
  exact h.imp And.right And.right

theorem AddrIsInMem.lt (ha : w.AddrIsInMem a = true) : a < 2^w.bits := by
  rw [WordSize.AddrIsInMem, Bool.or_eq_true] at ha
  rcases ha with ha | ha
  · have h := (test_iff w a .lowMem).mp ha
    cases w <;> dsimp only [WordSize.unit, WordSize.bits] at h ⊢ <;> omega
  · have h := (test_iff w a .highMem).mp ha
    cases w <;> dsimp only [WordSize.unit, WordSize.bits] at h ⊢ <;> omega

/-! ## Poisoning -/

/-- What poisoning `[p,q)` may do to granule `g`. -/
structure PoisonGranule (p q g : ℕ) (v v' : BitVec 8) : Prop where
  valid : v'.toInt < 8
  frame : ∀ k < 8, ¬ (p ≤ 8 * g + k ∧ 8 * g + k < q) → (Poisoned v' k ↔ Poisoned v k)
  keep : ∀ k < 8, Poisoned v k → Poisoned v' k
  covered : ∀ k < 8, p ≤ 8 * g + k → 8 * g + k < q / 8 * 8 → Poisoned v' k

variable {p q g : ℕ} {v v' : BitVec 8}

theorem poisoned_magic (k : ℕ) : Poisoned kAsanUserPoisonedMemoryMagic k := by
  have hmagic : kAsanUserPoisonedMemoryMagic.toInt = -9 := by decide
  rw [Poisoned, hmagic]
  omega

theorem PoisonGranule.unchanged (hv : v.toInt < 8) (hg : g < p / 8 ∨ q / 8 ≤ g) : PoisonGranule p q g v v := by
  refine ⟨hv,fun k hk h => Iff.rfl,fun k hk h => h,fun k hk h1 h2 => ?_⟩
  exfalso
  omega

/-- The addressable part of the granule lies in the region. -/
theorem PoisonGranule.magic (hp : p ≤ 8 * g) (hq : 8 * g + 8 ≤ q ∨ (0 < v.toInt ∧ 8 * g + v.toInt ≤ q)) :
    PoisonGranule p q g v kAsanUserPoisonedMemoryMagic := by
  refine ⟨by decide,fun k hk h => ?_,fun k hk h => poisoned_magic k,fun k hk h1 h2 => poisoned_magic k⟩
  refine iff_of_true (poisoned_magic k) ?_
  rw [Poisoned]
  omega

/-- The addressable part is cut at the start of the region. -/
theorem PoisonGranule.head (hg : g = p / 8) (hp : 0 < p % 8)
    (hq : 8 * g + 8 ≤ q ∨ (0 < v.toInt ∧ 8 * g + v.toInt ≤ q))
    (hv' : v'.toInt = if v.toInt = 0 then ((p % 8 : ℕ) : ℤ) else min v.toInt (p % 8 : ℕ)) :
    PoisonGranule p q g v v' := by
  by_cases hzero : v.toInt = 0
  · rw [if_pos hzero] at hv'
    refine ⟨by omega,fun k hk h => ?_,fun k hk h => absurd hzero h.1,fun k hk h1 h2 => ?_⟩
    · rw [Poisoned, Poisoned]
      omega
    · rw [Poisoned]
      omega
  · rw [if_neg hzero] at hv'
    refine ⟨by omega,fun k hk h => ?_,fun k hk h => ?_,fun k hk h1 h2 => ?_⟩
    · rw [Poisoned, Poisoned]
      omega
    · rw [Poisoned] at h ⊢
      omega
    · rw [Poisoned]
      omega

theorem toInt_sle (u v : BitVec 8) : (u.sle v = true) ↔ u.toInt ≤ v.toInt := by
  rw [BitVec.sle, decide_eq_true_iff]

theorem toInt_slt (u v : BitVec 8) : (u.slt v = true) ↔ u.toInt < v.toInt := by
  rw [BitVec.slt, decide_eq_true_iff]

/-- The first granule has a value of its own where the region starts inside it; those up to the last one are set. -/
theorem segment_eq (sh : Shadow) (off : ℕ) {p e : ℕ} (u v : BitVec 8) (hlt : p / 8 < e) {first : Shadow × ℕ}
    (hfirst : first = if (0 : ℤ) < (p % 8 : ℕ) then (sh.set (off + p / 8) u,off + p / 8 + 1) else (sh,off + p / 8))
    (c : ℕ) : first.1.memset first.2 v (off + e - first.2) c =
      if c = off + p / 8 ∧ 0 < p % 8 then u else if off + p / 8 ≤ c ∧ c < off + e then v else sh c := by
  by_cases hhead : (0 : ℤ) < (p % 8 : ℕ)
  · rw [if_pos hhead] at hfirst
    subst hfirst
    by_cases hc : c = off + p / 8
    · rw [if_pos ⟨hc,by omega⟩, hc, Shadow.memset_outside _ _ (by omega)]
      exact Shadow.set_self _ _ _
    · rw [if_neg (by omega)]
      by_cases hin : off + p / 8 ≤ c ∧ c < off + e
      · rw [if_pos hin, Shadow.memset_inside _ _ (by omega)]
      · rw [if_neg hin, Shadow.memset_outside _ _ (by omega)]
        exact Shadow.set_of_ne _ _ hc
  · rw [if_neg hhead] at hfirst
    subst hfirst
    rw [if_neg (by omega)]
    by_cases hin : off + p / 8 ≤ c ∧ c < off + e
    · rw [if_pos hin, Shadow.memset_inside _ _ (by omega)]
    · rw [if_neg hin, Shadow.memset_outside _ _ (by omega)]

/-- Poisoning runs through, and each granule is treated as the region asks. -/
theorem poison_granules (hsh : sh.Valid) (hsize : 0 < size) (hrange : w.InOneRange addr (addr + size)) :
    ∃ sh', asan_poison_memory_region w true sh addr size = some sh' ∧
      (∀ c < w.SHADOW_OFFSET, sh' c = sh c) ∧
      ∀ g, PoisonGranule addr (addr + size) g (sh (w.SHADOW_OFFSET + g)) (sh' (w.SHADOW_OFFSET + g)) := by
  have hb := toInt_granuleOffset addr
  have he := toInt_granuleOffset (addr + size)
  have hsize0 : (size == 0) = false := beq_false_of_ne hsize.ne'
  rw [asan_poison_memory_region, hsize0, Nat.mod_eq_of_lt (AddrIsInMem.lt hrange.right)]
  simp only [Bool.not_true, Bool.or_false, Bool.false_eq_true, ↓reduceIte, Option.bind_eq_bind,
    endpoint_mem hrange.left, endpoint_mem hrange.right, Option.bind_some, toInt_sle, toInt_slt, BitVec.toInt_zero,
    hb, he, Nat.add_left_cancel_iff, Nat.add_lt_add_iff_left]
  generalize w.SHADOW_OFFSET = off
  by_cases hchunk : addr / 8 = (addr + size) / 8
  · have hoffset : ((addr % 8 : ℕ) : ℤ) < ((addr + size) % 8 : ℕ) := by omega
    rw [if_pos hchunk, ← hchunk, if_pos ⟨hoffset,rfl⟩]
    by_cases hvalue : 0 < (sh (off + addr / 8)).toInt ∧ (sh (off + addr / 8)).toInt ≤ ((addr + size) % 8 : ℕ)
    · rw [if_pos hvalue]
      by_cases hhead : (0 : ℤ) < (addr % 8 : ℕ)
      · rw [if_pos hhead]
        refine ⟨_,rfl,fun c hc => Shadow.set_of_ne _ _ (by omega),fun g => ?_⟩
        by_cases hg : g = addr / 8
        · subst hg
          rw [Shadow.set_self]
          refine .head rfl (by omega) (.inr ⟨hvalue.1,by omega⟩) ?_
          rw [toInt_min, hb, if_neg (by omega)]
        · rw [Shadow.set_of_ne _ _ (by omega)]
          exact .unchanged (hsh _) (by omega)
      · rw [if_neg hhead]
        refine ⟨_,rfl,fun c hc => Shadow.set_of_ne _ _ (by omega),fun g => ?_⟩
        by_cases hg : g = addr / 8
        · subst hg
          rw [Shadow.set_self]
          exact .magic (by omega) (.inr ⟨hvalue.1,by omega⟩)
        · rw [Shadow.set_of_ne _ _ (by omega)]
          exact .unchanged (hsh _) (by omega)
    · rw [if_neg hvalue]
      refine ⟨sh,rfl,fun c hc => rfl,fun g => ?_⟩
      exact .unchanged (hsh _) (by omega)
  · have hlt : addr / 8 < (addr + size) / 8 := by omega
    rw [if_neg hchunk, if_pos hlt]
    have hsegment := segment_eq sh off
      (if sh (off + addr / 8) = 0 then BitVec.ofNat 8 (addr &&& (SHADOW_GRANULARITY - 1))
        else Min (sh (off + addr / 8)) (BitVec.ofNat 8 (addr &&& (SHADOW_GRANULARITY - 1))))
      kAsanUserPoisonedMemoryMagic hlt rfl
    generalize Shadow.memset _ _ _ (off + (addr + size) / 8 - _) = inner at hsegment ⊢
    have hbelow : ∀ c < off, inner c = sh c := by
      intro c hc
      rw [hsegment, if_neg (by omega), if_neg (by omega)]
    have hlast : inner (off + (addr + size) / 8) = sh (off + (addr + size) / 8) := by
      rw [hsegment, if_neg (by omega), if_neg (by omega)]
    have hinner : ∀ g, PoisonGranule addr (addr + size) g (sh (off + g)) (inner (off + g)) := by
      intro g
      rw [hsegment]
      by_cases hhead : off + g = off + addr / 8 ∧ 0 < addr % 8
      · obtain ⟨hg,hhead⟩ := hhead
        have hg : g = addr / 8 := by omega
        subst hg
        rw [if_pos ⟨rfl,hhead⟩]
        refine .head rfl hhead (.inl (by omega)) ?_
        by_cases hzero : sh (off + addr / 8) = 0
        · rw [if_pos hzero, if_pos (toInt_eq_zero.mpr hzero), hb]
        · rw [if_neg hzero, if_neg fun h => hzero (toInt_eq_zero.mp h), toInt_min, hb]
      · rw [if_neg hhead]
        by_cases hin : off + addr / 8 ≤ off + g ∧ off + g < off + (addr + size) / 8
        · rw [if_pos hin]
          exact .magic (by omega) (.inl (by omega))
        · rw [if_neg hin]
          exact .unchanged (hsh _) (by omega)
    by_cases hvalue : 0 < (sh (off + (addr + size) / 8)).toInt ∧
        (sh (off + (addr + size) / 8)).toInt ≤ ((addr + size) % 8 : ℕ)
    · rw [if_pos hvalue]
      refine ⟨_,rfl,fun c hc => ?_,fun g => ?_⟩
      · rw [Shadow.set_of_ne _ _ (by omega), hbelow c hc]
      · by_cases hg : g = (addr + size) / 8
        · subst hg
          rw [Shadow.set_self]
          exact .magic (by omega) (.inr ⟨hvalue.1,by omega⟩)
        · rw [Shadow.set_of_ne _ _ (by omega)]
          exact hinner g
    · rw [if_neg hvalue]
      exact ⟨inner,rfl,hbelow,hinner⟩

/-! ## Unpoisoning -/

/-- What unpoisoning `[p,q)` may do to granule `g`. -/
structure UnpoisonGranule (p q g : ℕ) (v v' : BitVec 8) : Prop where
  valid : v'.toInt < 8
  frame : ∀ k < 8, ¬ (p / 8 * 8 ≤ 8 * g + k ∧ 8 * g + k < q) → (Poisoned v' k ↔ Poisoned v k)
  keep : ∀ k < 8, Poisoned v' k → Poisoned v k
  covered : ∀ k < 8, p ≤ 8 * g + k → 8 * g + k < q → ¬ Poisoned v' k

theorem UnpoisonGranule.unchanged (hv : v.toInt < 8) (hg : g < p / 8 ∨ q ≤ 8 * g ∨ v = 0) :
    UnpoisonGranule p q g v v := by
  refine ⟨hv,fun k hk h => Iff.rfl,fun k hk h => h,fun k hk h1 h2 h => ?_⟩
  rcases hg with hg | hg | hg
  · omega
  · omega
  · exact h.1 (toInt_eq_zero.mpr hg)

theorem not_poisoned_zero (k : ℕ) : ¬ Poisoned 0 k := fun h => h.1 rfl

theorem UnpoisonGranule.clear (hp : p / 8 ≤ g) (hq : 8 * g + 8 ≤ q) : UnpoisonGranule p q g v 0 := by
  refine ⟨by decide,fun k hk h => ?_,fun k hk h => absurd h (not_poisoned_zero k),
    fun k hk h1 h2 => not_poisoned_zero k⟩
  exfalso
  omega

/-- The addressable part is raised to the end of the region. -/
theorem UnpoisonGranule.raise (hp : p / 8 ≤ g) (hg : g = q / 8) (hv : v.toInt < 8) (hzero : v ≠ 0) (hq : 0 < q % 8)
    (hv' : v'.toInt = max v.toInt (q % 8 : ℕ)) : UnpoisonGranule p q g v v' := by
  have hzero' : v.toInt ≠ 0 := fun h => hzero (toInt_eq_zero.mp h)
  refine ⟨by omega,fun k hk h => ?_,fun k hk h => ?_,fun k hk h1 h2 => ?_⟩
  · rw [Poisoned, Poisoned]
    omega
  · rw [Poisoned] at h ⊢
    omega
  · rw [Poisoned]
    omega

/-- Unpoisoning runs through, and each granule is treated as the region asks. -/
theorem unpoison_granules (hsh : sh.Valid) (hsize : 0 < size) (hrange : w.InOneRange addr (addr + size)) :
    ∃ sh', asan_unpoison_memory_region w true sh addr size = some sh' ∧
      (∀ c < w.SHADOW_OFFSET, sh' c = sh c) ∧
      ∀ g, UnpoisonGranule addr (addr + size) g (sh (w.SHADOW_OFFSET + g)) (sh' (w.SHADOW_OFFSET + g)) := by
  have hb := toInt_granuleOffset addr
  have he := toInt_granuleOffset (addr + size)
  have hsize0 : (size == 0) = false := beq_false_of_ne hsize.ne'
  rw [asan_unpoison_memory_region, hsize0, Nat.mod_eq_of_lt (AddrIsInMem.lt hrange.right)]
  simp only [Bool.not_true, Bool.or_false, Bool.false_eq_true, ↓reduceIte, Option.bind_eq_bind,
    endpoint_mem hrange.left, endpoint_mem hrange.right, Option.bind_some, toInt_slt, BitVec.toInt_zero,
    hb, he, Nat.add_left_cancel_iff, Nat.add_lt_add_iff_left]
  generalize w.SHADOW_OFFSET = off
  by_cases hchunk : addr / 8 = (addr + size) / 8
  · have hoffset : ((addr % 8 : ℕ) : ℤ) < ((addr + size) % 8 : ℕ) := by omega
    rw [if_pos hchunk, ← hchunk, if_pos ⟨hoffset,rfl⟩]
    by_cases hvalue : sh (off + addr / 8) ≠ 0
    · rw [if_pos hvalue]
      refine ⟨_,rfl,fun c hc => Shadow.set_of_ne _ _ (by omega),fun g => ?_⟩
      by_cases hg : g = addr / 8
      · subst hg
        rw [Shadow.set_self]
        refine .raise le_rfl hchunk (hsh _) hvalue (by omega) ?_
        rw [toInt_max, he]
      · rw [Shadow.set_of_ne _ _ (by omega)]
        exact .unchanged (hsh _) (by omega)
    · rw [if_neg hvalue]
      refine ⟨sh,rfl,fun c hc => rfl,fun g => .unchanged (hsh _) ?_⟩
      by_cases hg : g = addr / 8
      · rw [hg]
        exact .inr (.inr (not_not.mp hvalue))
      · omega
  · have hlt : addr / 8 < (addr + size) / 8 := by omega
    rw [if_neg hchunk, if_pos hlt]
    have hsegment := segment_eq sh off 0 0 hlt rfl
    generalize Shadow.memset _ _ _ (off + (addr + size) / 8 - _) = inner at hsegment ⊢
    have hbelow : ∀ c < off, inner c = sh c := by
      intro c hc
      rw [hsegment, if_neg (by omega), if_neg (by omega)]
    have hinner : ∀ g, g ≠ (addr + size) / 8 →
        UnpoisonGranule addr (addr + size) g (sh (off + g)) (inner (off + g)) := by
      intro g hg
      rw [hsegment]
      by_cases hhead : off + g = off + addr / 8 ∧ 0 < addr % 8
      · rw [if_pos hhead]
        exact .clear (by omega) (by omega)
      · rw [if_neg hhead]
        by_cases hin : off + addr / 8 ≤ off + g ∧ off + g < off + (addr + size) / 8
        · rw [if_pos hin]
          exact .clear (by omega) (by omega)
        · rw [if_neg hin]
          exact .unchanged (hsh _) (by omega)
    have hlast : inner (off + (addr + size) / 8) = sh (off + (addr + size) / 8) := by
      rw [hsegment, if_neg (by omega), if_neg (by omega)]
    by_cases hvalue : (0 : ℤ) < ((addr + size) % 8 : ℕ) ∧ sh (off + (addr + size) / 8) ≠ 0
    · rw [if_pos hvalue]
      refine ⟨_,rfl,fun c hc => ?_,fun g => ?_⟩
      · rw [Shadow.set_of_ne _ _ (by omega), hbelow c hc]
      · by_cases hg : g = (addr + size) / 8
        · subst hg
          rw [Shadow.set_self]
          refine .raise hlt.le rfl (hsh _) hvalue.2 (by omega) ?_
          rw [toInt_max, he]
        · rw [Shadow.set_of_ne _ _ (by omega)]
          exact hinner g hg
    · rw [if_neg hvalue]
      refine ⟨inner,rfl,hbelow,fun g => ?_⟩
      by_cases hg : g = (addr + size) / 8
      · subst hg
        rw [hlast]
        refine .unchanged (hsh _) ?_
        by_cases hzero : sh (off + (addr + size) / 8) = 0
        · exact .inr (.inr hzero)
        · have hoffset : ¬ (0 : ℤ) < ((addr + size) % 8 : ℕ) := fun h => hvalue ⟨h,hzero⟩
          omega
      · exact hinner g hg

/-! ## Bytes -/

/-- Poisoning a region keeps its outside, makes nothing addressable, and covers it up to the last granule boundary. -/
structure RegionPoisoned (w : WordSize) (sh sh' : Shadow) (p q : ℕ) : Prop where
  valid : sh'.Valid
  frame : ∀ b, ¬ (p ≤ b ∧ b < q) → AddressIsPoisoned w sh' b = AddressIsPoisoned w sh b
  keep : ∀ b, AddressIsPoisoned w sh b = some true → AddressIsPoisoned w sh' b = some true
  covered : ∀ b, p ≤ b → b < q / 8 * 8 → AddressIsPoisoned w sh' b = some true

/-- Unpoisoning a region covers it, poisons nothing, and keeps what is outside from the start of its first granule. -/
structure RegionUnpoisoned (w : WordSize) (sh sh' : Shadow) (p q : ℕ) : Prop where
  valid : sh'.Valid
  frame : ∀ b, ¬ (p / 8 * 8 ≤ b ∧ b < q) → AddressIsPoisoned w sh' b = AddressIsPoisoned w sh b
  keep : ∀ b, AddressIsPoisoned w sh' b = some true → AddressIsPoisoned w sh b = some true
  covered : ∀ b, p ≤ b → b < q → AddressIsPoisoned w sh' b = some false

/-- What lies between two addresses of one range is memory. -/
theorem WordSize.InOneRange.between {c : ℕ} (h : w.InOneRange a b) (ha : a ≤ c) (hb : c ≤ b) :
    w.AddrIsInMem c = true := by
  rw [WordSize.AddrIsInMem, Bool.or_eq_true]
  refine h.imp (fun h => ?_) (fun h => ?_)
  · have hright := (test_iff w b .lowMem).mp h.2
    refine (test_iff w c .lowMem).mpr ?_
    dsimp only at hright ⊢
    omega
  · have hleft := (test_iff w a .highMem).mp h.1
    have hright := (test_iff w b .highMem).mp h.2
    refine (test_iff w c .highMem).mpr ?_
    dsimp only at hleft hright ⊢
    omega

theorem valid_of_granules {off : ℕ} (hsh : sh.Valid) (hbelow : ∀ c < off, sh' c = sh c)
    (hgranule : ∀ g, (sh' (off + g)).toInt < 8) : sh'.Valid := by
  intro c
  by_cases hc : c < off
  · rw [hbelow c hc]
    exact hsh c
  · have h := hgranule (c - off)
    rwa [Nat.add_sub_cancel' (not_lt.mp hc)] at h

theorem poison_region (hsh : sh.Valid) (hsize : 0 < size) (hrange : w.InOneRange addr (addr + size)) :
    ∃ sh', asan_poison_memory_region w true sh addr size = some sh' ∧ RegionPoisoned w sh sh' addr (addr + size) := by
  obtain ⟨sh',hrun,hbelow,hgranule⟩ := poison_granules hsh hsize hrange
  refine ⟨sh',hrun,valid_of_granules hsh hbelow fun g => (hgranule g).valid,fun b hb => ?_,fun b hb => ?_,
    fun b hpb hbq => ?_⟩
  · by_cases hmem : w.AddrIsInMem b = true
    · refine addressIsPoisoned_congr hmem ((hgranule (b / 8)).frame (b % 8) (Nat.mod_lt b (by decide)) ?_)
      rwa [Nat.div_add_mod]
    · rw [addressIsPoisoned_outside hmem, addressIsPoisoned_outside hmem]
  · by_cases hmem : w.AddrIsInMem b = true
    · rw [addressIsPoisoned_iff hmem] at hb ⊢
      exact (hgranule (b / 8)).keep (b % 8) (Nat.mod_lt b (by decide)) hb
    · rw [addressIsPoisoned_outside hmem] at hb
      exact absurd hb (Option.some_ne_none _).symm
  · rw [addressIsPoisoned_iff (hrange.between hpb (by omega))]
    refine (hgranule (b / 8)).covered (b % 8) (Nat.mod_lt b (by decide)) ?_ ?_
    · rwa [Nat.div_add_mod]
    · rwa [Nat.div_add_mod]

theorem unpoison_region (hsh : sh.Valid) (hsize : 0 < size) (hrange : w.InOneRange addr (addr + size)) :
    ∃ sh', asan_unpoison_memory_region w true sh addr size = some sh' ∧
      RegionUnpoisoned w sh sh' addr (addr + size) := by
  obtain ⟨sh',hrun,hbelow,hgranule⟩ := unpoison_granules hsh hsize hrange
  refine ⟨sh',hrun,valid_of_granules hsh hbelow fun g => (hgranule g).valid,fun b hb => ?_,fun b hb => ?_,
    fun b hpb hbq => ?_⟩
  · by_cases hmem : w.AddrIsInMem b = true
    · refine addressIsPoisoned_congr hmem ((hgranule (b / 8)).frame (b % 8) (Nat.mod_lt b (by decide)) ?_)
      rwa [Nat.div_add_mod]
    · rw [addressIsPoisoned_outside hmem, addressIsPoisoned_outside hmem]
  · by_cases hmem : w.AddrIsInMem b = true
    · rw [addressIsPoisoned_iff hmem] at hb ⊢
      exact (hgranule (b / 8)).keep (b % 8) (Nat.mod_lt b (by decide)) hb
    · rw [addressIsPoisoned_outside hmem] at hb
      exact absurd hb (Option.some_ne_none _).symm
  · have hclean : ¬ Poisoned (sh' (w.SHADOW_OFFSET + b / 8)) (b % 8) := by
      refine (hgranule (b / 8)).covered (b % 8) (Nat.mod_lt b (by decide)) ?_ ?_
      · rwa [Nat.div_add_mod]
      · rwa [Nat.div_add_mod]
    rw [addressIsPoisoned_mem (hrange.between hpb (by omega)), decide_eq_false hclean]

/-- Neither call fails a check, and each has its effect on every byte. -/
theorem user_poisoning (hsh : sh.Valid) (hsize : 0 < size) (hrange : w.InOneRange addr (addr + size)) :
    (∃ sh', asan_poison_memory_region w true sh addr size = some sh' ∧
      RegionPoisoned w sh sh' addr (addr + size)) ∧
    ∃ sh', asan_unpoison_memory_region w true sh addr size = some sh' ∧
      RegionUnpoisoned w sh sh' addr (addr + size) :=
  ⟨poison_region hsh hsize hrange,unpoison_region hsh hsize hrange⟩

/-- Both ends are partial granules, and the last one is addressable only in its first bytes. -/
theorem user_poisoning_partial :
    (∃ sh', asan_poison_memory_region .w64 true (fun _ => 3) 5 22 = some sh' ∧
      RegionPoisoned .w64 (fun _ => 3) sh' 5 27) ∧
    ∃ sh', asan_unpoison_memory_region .w64 true (fun _ => 3) 5 22 = some sh' ∧
      RegionUnpoisoned .w64 (fun _ => 3) sh' 5 27 :=
  user_poisoning (fun _ => by decide) (by decide) (.inl ⟨by decide,by decide⟩)

/-! ## Runs -/

inductive Call where
  | poison (addr size : ℕ)
  | unpoison (addr size : ℕ)

namespace Call

def exec (w : WordSize) (sh : Shadow) : Call → Option Shadow
  | poison addr size => asan_poison_memory_region w true sh addr size
  | unpoison addr size => asan_unpoison_memory_region w true sh addr size

/-- The region of the call lies in one range of memory. -/
def InRange (w : WordSize) : Call → Prop
  | poison addr size | unpoison addr size => w.InOneRange addr (addr + size)

theorem exec_valid {call : Call} (hsh : sh.Valid) (hcall : call.InRange w) :
    ∃ sh', call.exec w sh = some sh' ∧ sh'.Valid := by
  cases call with
  | poison addr size =>
    rcases Nat.eq_zero_or_pos size with rfl | hsize
    · exact ⟨sh,rfl,hsh⟩
    · obtain ⟨sh',hrun,hregion⟩ := poison_region hsh hsize hcall
      exact ⟨sh',hrun,hregion.valid⟩
  | unpoison addr size =>
    rcases Nat.eq_zero_or_pos size with rfl | hsize
    · exact ⟨sh,rfl,hsh⟩
    · obtain ⟨sh',hrun,hregion⟩ := unpoison_region hsh hsize hcall
      exact ⟨sh',hrun,hregion.valid⟩

end Call

/-- No sequence of calls fails a check, and none leaves a shadow byte that is no value. -/
theorem calls_valid {calls : List Call} (hsh : sh.Valid) (hcalls : ∀ call ∈ calls, call.InRange w) :
    ∃ sh', calls.foldlM (Call.exec w) sh = some sh' ∧ sh'.Valid := by
  induction calls generalizing sh with
  | nil => exact ⟨sh,rfl,hsh⟩
  | cons call calls ih =>
    obtain ⟨sh₁,h₁,hsh₁⟩ := Call.exec_valid hsh (hcalls call List.mem_cons_self)
    obtain ⟨sh',hrun,hsh'⟩ := ih hsh₁ fun c hc => hcalls c (List.mem_cons_of_mem _ hc)
    refine ⟨sh',?_,hsh'⟩
    rw [List.foldlM_cons, h₁]
    exact hrun

end CompilerRt.AsanMapping
