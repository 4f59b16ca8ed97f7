import CompilerRt.Lib.BitMask
import Mathlib

/-! # The shadow mapping of ThreadSanitizer

`lib/tsan/rtl/tsan_platform.h` without the COMPAT layout. A cell of application memory has `kShadowCnt` shadow words.
-/
namespace CompilerRt.Tsan.Platform

abbrev uptr := BitVec 64

/-- The layouts: C and C++, and Go, on Windows or elsewhere. -/
inductive Layout where
  | cpp
  | go (win32 : Bool)
  deriving DecidableEq

/-- `TSAN_SHADOW_COUNT`. -/
inductive ShadowCount where
  | two
  | four
  | eight
  deriving DecidableEq

def kShadowCell : uptr := 8

def kShadowSize : uptr := 8

def kPageSize : uptr := 1 <<< 12

def ShadowCount.kShadowCnt : ShadowCount → uptr
  | two => 2
  | four => 4
  | eight => 8

def kLinuxAppMemMsk : uptr := 0x7c0000000000

def kLinuxShadowMsk (win32 : Bool) : uptr := if win32 then 0x010000000000 else 0x100000000000

namespace Layout
variable (l : Layout) (n : ShadowCount)

def kLinuxAppMemBeg : uptr := match l with
  | cpp => 0x7cf000000000
  | go _ => 0x000000000000

def kLinuxAppMemEnd : uptr := match l with
  | cpp => 0x7fffffffffff
  | go _ => 0x00fcffffffff

def MemToShadow (addr : uptr) : uptr := match l with
  | cpp => (addr &&& ~~~(kLinuxAppMemMsk ||| (kShadowCell - 1))) * n.kShadowCnt
  | go win32 => (addr &&& ~~~(kShadowCell - 1)) * n.kShadowCnt ||| kLinuxShadowMsk win32

def kLinuxShadowBeg : uptr := l.MemToShadow n l.kLinuxAppMemBeg

def kLinuxShadowEnd : uptr := l.MemToShadow n l.kLinuxAppMemEnd ||| (kPageSize - 1)

def IsAppMem (mem : uptr) : Bool := l.kLinuxAppMemBeg ≤ mem && mem ≤ l.kLinuxAppMemEnd

def IsShadowMem (mem : uptr) : Bool := l.kLinuxShadowBeg n ≤ mem && mem ≤ l.kLinuxShadowEnd n

/-- None where the `CHECK` fails. -/
def ShadowToMem (shadow : uptr) : Option uptr :=
  if l.IsShadowMem n shadow then
    some (match l with
      | cpp => shadow / n.kShadowCnt ||| kLinuxAppMemMsk
      | go win32 => (shadow &&& ~~~kLinuxShadowMsk win32) / n.kShadowCnt)
  else none

end Layout

/-! ## What the mapping is for -/

/-- The number of the cell of an address. -/
def cell (a : uptr) : ℕ := a.toNat / 8

/-- The addresses of the bytes of the shadow words of an address. -/
def shadowBytes (l : Layout) (n : ShadowCount) (a : uptr) : Set ℕ :=
  Set.Ico (l.MemToShadow n a).toNat ((l.MemToShadow n a).toNat + n.kShadowCnt.toNat * kShadowSize.toNat)

/-- The shadow of an address is in shadow memory and leads back to the cell. -/
structure Shadowed (l : Layout) (n : ShadowCount) (a : uptr) : Prop where
  isShadowMem : ∀ p ∈ shadowBytes l n a, l.IsShadowMem n (BitVec.ofNat 64 p)
  notAppMem : ∀ p ∈ shadowBytes l n a, ¬l.IsAppMem (BitVec.ofNat 64 p)
  lt : ∀ p ∈ shadowBytes l n a, p < 2 ^ 64
  back : l.ShadowToMem n (l.MemToShadow n a) = some (BitVec.ofNat 64 (cell a * 8))

/-- The shadows of two addresses are the same or apart, as their cells are. -/
structure Separated (l : Layout) (n : ShadowCount) (a b : uptr) : Prop where
  eq_iff : l.MemToShadow n a = l.MemToShadow n b ↔ cell a = cell b
  disjoint : cell a ≠ cell b → Disjoint (shadowBytes l n a) (shadowBytes l n b)
  left : Shadowed l n a
  right : Shadowed l n b

/-! ## Values -/

variable {l : Layout} {n : ShadowCount} {a b x : uptr} {w : Bool}

/-- The scale as a number. -/
def ShadowCount.cnt (n : ShadowCount) : ℕ := n.kShadowCnt.toNat

@[simp] theorem ShadowCount.cnt_two : ShadowCount.two.cnt = 2 := rfl
@[simp] theorem ShadowCount.cnt_four : ShadowCount.four.cnt = 4 := rfl
@[simp] theorem ShadowCount.cnt_eight : ShadowCount.eight.cnt = 8 := rfl

theorem kLinuxAppMemMsk_eq : kLinuxAppMemMsk = BitVec.ofNat 64 (31 * 2 ^ 42) := by decide

/-- The bit that marks the shadow of Go. -/
def shadowBit (w : Bool) : ℕ := if w then 40 else 44

@[simp] theorem shadowBit_true : shadowBit true = 40 := rfl
@[simp] theorem shadowBit_false : shadowBit false = 44 := rfl

theorem kLinuxShadowMsk_eq (w : Bool) : kLinuxShadowMsk w = BitVec.twoPow 64 (shadowBit w) := by
  cases w <;> decide

theorem isAppMem_cpp : Layout.cpp.IsAppMem a ↔ 0x7cf000000000 ≤ a.toNat ∧ a.toNat ≤ 0x7fffffffffff := by
  simp [Layout.IsAppMem, BitVec.le_def, Layout.kLinuxAppMemBeg, Layout.kLinuxAppMemEnd]

theorem isAppMem_go : (Layout.go w).IsAppMem a ↔ a.toNat ≤ 0xfcffffffff := by
  simp [Layout.IsAppMem, BitVec.le_def, Layout.kLinuxAppMemBeg, Layout.kLinuxAppMemEnd]

theorem Layout.isShadowMem_iff :
    l.IsShadowMem n a ↔ (l.kLinuxShadowBeg n).toNat ≤ a.toNat ∧ a.toNat ≤ (l.kLinuxShadowEnd n).toNat := by
  simp [Layout.IsShadowMem, BitVec.le_def]

/-- An address without its place in the cell, scaled. -/
theorem toNat_scale (n : ShadowCount) (hx : x.toNat < 2 ^ 47) :
    ((x &&& ~~~(kShadowCell - 1)) * n.kShadowCnt).toNat = cell x * 8 * n.cnt := by
  have hlow : (x &&& ~~~(kShadowCell - 1)).toNat = cell x * 8 := BitMask.toNat_and_not_low x 3
  have hcell : cell x * 8 ≤ x.toNat := Nat.div_mul_le_self x.toNat 8
  rw [BitVec.toNat_mul, hlow]
  change cell x * 8 * n.cnt % 2 ^ 64 = _
  apply Nat.mod_eq_of_lt
  cases n <;> simp only [ShadowCount.cnt_two, ShadowCount.cnt_four, ShadowCount.cnt_eight] <;> omega

/-- The last byte of shadow memory is the last one of the last cell's shadow. -/
theorem kLinuxShadowEnd_eq (l : Layout) (n : ShadowCount) :
    (l.kLinuxShadowEnd n).toNat + 1 = (l.MemToShadow n l.kLinuxAppMemEnd).toNat + n.cnt * 8 := by
  cases l with
  | cpp => cases n <;> decide
  | go win32 => cases win32 <;> cases n <;> decide

theorem mem_shadowBytes {p : ℕ} : p ∈ shadowBytes l n a ↔
    (l.MemToShadow n a).toNat ≤ p ∧ p < (l.MemToShadow n a).toNat + n.cnt * 8 := Iff.rfl

theorem memToShadow_mem : (l.MemToShadow n a).toNat ∈ shadowBytes l n a := by
  refine mem_shadowBytes.mpr ⟨le_rfl,?_⟩
  cases n <;> simp

/-- The shadow of an address lies between those of the first and the last one. -/
theorem shadowed_of_bounds (hbeg : (l.kLinuxShadowBeg n).toNat ≤ (l.MemToShadow n a).toNat)
    (hend : (l.MemToShadow n a).toNat ≤ (l.MemToShadow n l.kLinuxAppMemEnd).toNat)
    (happ : ∀ p ∈ shadowBytes l n a, p < 2 ^ 64 → ¬l.IsAppMem (BitVec.ofNat 64 p))
    (hback : l.IsShadowMem n (l.MemToShadow n a) →
      l.ShadowToMem n (l.MemToShadow n a) = some (BitVec.ofNat 64 (cell a * 8))) : Shadowed l n a := by
  have hlt : ∀ p ∈ shadowBytes l n a, p ≤ (l.kLinuxShadowEnd n).toNat := by
    intro p hp
    rw [mem_shadowBytes] at hp
    have hlast := kLinuxShadowEnd_eq l n
    omega
  have hlt' : ∀ p ∈ shadowBytes l n a, p < 2 ^ 64 := fun p hp => (hlt p hp).trans_lt (BitVec.isLt _)
  have hshadow : ∀ p ∈ shadowBytes l n a, l.IsShadowMem n (BitVec.ofNat 64 p) := by
    intro p hp
    rw [Layout.isShadowMem_iff, BitVec.toNat_ofNat, Nat.mod_eq_of_lt (hlt' p hp)]
    exact ⟨hbeg.trans (mem_shadowBytes.mp hp).1,hlt p hp⟩
  refine ⟨hshadow,fun p hp => happ p hp (hlt' p hp),hlt',hback ?_⟩
  have hself := hshadow _ memToShadow_mem
  rwa [BitVec.ofNat_toNat, BitVec.setWidth_eq] at hself

/-- Where the mapping scales both cells and adds the same, it keeps them apart. -/
theorem Separated.of_affine {K : ℤ} (ha : ((l.MemToShadow n a).toNat : ℤ) = cell a * 8 * n.cnt + K)
    (hb : ((l.MemToShadow n b).toNat : ℤ) = cell b * 8 * n.cnt + K) (hl : Shadowed l n a) (hr : Shadowed l n b) :
    Separated l n a b := by
  constructor
  · constructor
    · intro heq
      rw [heq] at ha
      cases n <;> simp only [ShadowCount.cnt_two, ShadowCount.cnt_four, ShadowCount.cnt_eight] at ha hb <;> omega
    · intro heq
      apply BitVec.eq_of_toNat_eq
      rw [heq] at ha
      exact_mod_cast ha.trans hb.symm
  · intro hne
    rw [Set.disjoint_left]
    intro p hpa hpb
    rw [mem_shadowBytes] at hpa hpb
    cases n <;> simp only [ShadowCount.cnt_two, ShadowCount.cnt_four, ShadowCount.cnt_eight] at ha hb hpa hpb <;> omega
  · exact hl
  · exact hr

/-! ## C and C++ -/

theorem toNat_memToShadow_cpp (ha : Layout.cpp.IsAppMem a) :
    (Layout.cpp.MemToShadow n a).toNat + 31 * 2 ^ 42 * n.cnt = cell a * 8 * n.cnt := by
  rw [isAppMem_cpp] at ha
  have hhigh : (a &&& ~~~kLinuxAppMemMsk).toNat = a.toNat % 2 ^ 42 := by
    rw [kLinuxAppMemMsk_eq]
    exact BitMask.toNat_and_not_high (by omega)
  have hlt : (a &&& ~~~kLinuxAppMemMsk).toNat < 2 ^ 47 := by omega
  have hscale := toNat_scale n hlt
  rw [cell, hhigh, BitVec.and_assoc, ← BitVec.not_or] at hscale
  rw [Layout.MemToShadow, hscale, cell, ← Nat.add_mul]
  congr 1
  omega

theorem shadowed_cpp (ha : Layout.cpp.IsAppMem a) : Shadowed .cpp n a := by
  have hval := toNat_memToShadow_cpp (n := n) ha
  have hbeg := toNat_memToShadow_cpp (n := n) (a := Layout.cpp.kLinuxAppMemBeg) (by decide)
  have hend := toNat_memToShadow_cpp (n := n) (a := Layout.cpp.kLinuxAppMemEnd) (by decide)
  have hcbeg : cell Layout.cpp.kLinuxAppMemBeg = 0xf9e00000000 := by decide
  have hcend : cell Layout.cpp.kLinuxAppMemEnd = 0xfffffffffff := by decide
  rw [hcbeg] at hbeg
  rw [hcend] at hend
  rw [isAppMem_cpp] at ha
  have hcell : 0xf9e00000000 ≤ cell a ∧ cell a ≤ 0xfffffffffff := by
    rw [cell]
    omega
  refine shadowed_of_bounds ?_ ?_ (fun p hp hp64 => ?_) fun hshadow => ?_
  · rw [Layout.kLinuxShadowBeg]
    cases n <;> simp only [ShadowCount.cnt_two, ShadowCount.cnt_four, ShadowCount.cnt_eight] at hbeg hval <;> omega
  · cases n <;> simp only [ShadowCount.cnt_two, ShadowCount.cnt_four, ShadowCount.cnt_eight] at hend hval <;> omega
  · rw [isAppMem_cpp, BitVec.toNat_ofNat, Nat.mod_eq_of_lt hp64]
    rw [mem_shadowBytes] at hp
    cases n <;> simp only [ShadowCount.cnt_two, ShadowCount.cnt_four, ShadowCount.cnt_eight] at hval hp <;> omega
  · have hdiv : (Layout.cpp.MemToShadow n a / n.kShadowCnt).toNat = cell a * 8 - 31 * 2 ^ 42 := by
      rw [BitVec.toNat_udiv]
      change (Layout.cpp.MemToShadow n a).toNat / n.cnt = _
      cases n <;> simp only [ShadowCount.cnt_two, ShadowCount.cnt_four, ShadowCount.cnt_eight] at hval ⊢ <;> omega
    have hlow : (Layout.cpp.MemToShadow n a / n.kShadowCnt).toNat < 2 ^ 42 := by omega
    rw [Layout.ShadowToMem, if_pos hshadow]
    congr 1
    apply BitVec.eq_of_toNat_eq
    rw [kLinuxAppMemMsk_eq, BitMask.toNat_or_high hlow (by decide), hdiv, BitVec.toNat_ofNat]
    omega

/-! ## Go -/

/-- The cell of an address, scaled. -/
def scaled (n : ShadowCount) (a : uptr) : uptr := (a &&& ~~~(kShadowCell - 1)) * n.kShadowCnt

theorem memToShadow_go : (Layout.go w).MemToShadow n a = scaled n a ||| BitVec.twoPow 64 (shadowBit w) := by
  rw [Layout.MemToShadow, kLinuxShadowMsk_eq]
  rfl

theorem toNat_scaled (ha : (Layout.go w).IsAppMem a) : (scaled n a).toNat = cell a * 8 * n.cnt := by
  rw [isAppMem_go] at ha
  exact toNat_scale n (by omega)

theorem toNat_memToShadow_go (ha : (Layout.go w).IsAppMem a) (hclear : (scaled n a).getLsbD (shadowBit w) = false) :
    ((Layout.go w).MemToShadow n a).toNat = cell a * 8 * n.cnt + 2 ^ shadowBit w := by
  rw [memToShadow_go, BitMask.toNat_or_twoPow_of_clear hclear (by cases w <;> decide), toNat_scaled ha]

/-- The shadow is behind application memory. -/
theorem two_pow_shadowBit_le : 2 ^ shadowBit w ≤ ((Layout.go w).MemToShadow n a).toNat := by
  rw [memToShadow_go]
  apply Nat.ge_two_pow_of_testBit
  rw [BitVec.testBit_toNat, BitVec.getLsbD_or, BitVec.getLsbD_twoPow]
  cases w <;> simp

theorem shadowToMem_go
    (hshadow : (Layout.go w).IsShadowMem n ((Layout.go w).MemToShadow n a)) :
    (Layout.go w).ShadowToMem n ((Layout.go w).MemToShadow n a) =
      some (BitVec.ofNat 64 ((scaled n a &&& ~~~BitVec.twoPow 64 (shadowBit w)).toNat / n.cnt)) := by
  rw [Layout.ShadowToMem, if_pos hshadow]
  congr 1
  apply BitVec.eq_of_toNat_eq
  rw [memToShadow_go, kLinuxShadowMsk_eq, BitMask.or_and_not_twoPow, BitVec.toNat_udiv, BitVec.toNat_ofNat]
  exact (Nat.mod_eq_of_lt ((Nat.div_le_self _ _).trans_lt (BitVec.isLt _))).symm

theorem shadowed_go (ha : (Layout.go w).IsAppMem a) (hclear : (scaled n a).getLsbD (shadowBit w) = false)
    (hend : ((Layout.go w).MemToShadow n a).toNat ≤ ((Layout.go w).MemToShadow n (Layout.go w).kLinuxAppMemEnd).toNat) :
    Shadowed (.go w) n a := by
  refine shadowed_of_bounds ?_ hend (fun p hp hp64 => ?_) fun hshadow => ?_
  · have hbeg : ((Layout.go w).kLinuxShadowBeg n).toNat = 2 ^ shadowBit w := by
      cases w <;> cases n <;> decide
    rw [hbeg]
    exact two_pow_shadowBit_le
  · have hle : 2 ^ shadowBit w ≤ p := two_pow_shadowBit_le.trans (mem_shadowBytes.mp hp).1
    rw [isAppMem_go, BitVec.toNat_ofNat, Nat.mod_eq_of_lt hp64]
    cases w <;> simp only [shadowBit_true, shadowBit_false] at hle <;> omega
  · rw [shadowToMem_go hshadow, BitMask.and_not_twoPow_of_clear hclear, toNat_scaled ha]
    congr 2
    cases n <;> simp

/-! ### Linux -/

theorem scaled_clear_linux (ha : (Layout.go false).IsAppMem a) : (scaled n a).getLsbD (shadowBit false) = false := by
  rw [← BitVec.testBit_toNat, toNat_scaled ha]
  rw [isAppMem_go] at ha
  apply Nat.testBit_lt_two_pow
  rw [cell]
  cases n <;> simp only [ShadowCount.cnt_two, ShadowCount.cnt_four, ShadowCount.cnt_eight, shadowBit_false] <;> omega

theorem shadowed_linux (ha : (Layout.go false).IsAppMem a) : Shadowed (.go false) n a := by
  have hval := toNat_memToShadow_go (n := n) ha (scaled_clear_linux ha)
  have happ : (Layout.go false).IsAppMem (Layout.go false).kLinuxAppMemEnd := by decide
  have hlast := toNat_memToShadow_go (n := n) happ (scaled_clear_linux happ)
  have hcell : cell a ≤ cell (Layout.go false).kLinuxAppMemEnd := Nat.div_le_div_right (isAppMem_go.mp ha)
  refine shadowed_go ha (scaled_clear_linux ha) ?_
  rw [hval, hlast]
  exact Nat.add_le_add_right (Nat.mul_le_mul_right _ (Nat.mul_le_mul_right 8 hcell)) _

/-! ### Windows -/

/-- On Windows the bit is one of the scaled address: the address has to be in a block where it is clear, and the one
that differs from it in that bit must be one of the application as well. -/
def Fits (n : ShadowCount) (a : uptr) : Prop :=
  a.toNat / (2 ^ 40 / n.cnt) % 2 = 0 ∧ a.toNat + 2 ^ 40 / n.cnt ≤ (Layout.go true).kLinuxAppMemEnd.toNat

theorem scaled_bit_windows (ha : (Layout.go true).IsAppMem a) :
    (scaled n a).getLsbD (shadowBit true) = decide (a.toNat / (2 ^ 40 / n.cnt) % 2 = 1) := by
  rw [← BitVec.testBit_toNat, toNat_scaled ha, Nat.testBit_eq_decide_div_mod_eq, cell, shadowBit_true]
  congr 2
  cases n <;> simp only [ShadowCount.cnt_two, ShadowCount.cnt_four, ShadowCount.cnt_eight] <;> omega

theorem Fits.clear (ha : (Layout.go true).IsAppMem a) (h : Fits n a) :
    (scaled n a).getLsbD (shadowBit true) = false := by
  rw [scaled_bit_windows ha, h.1]
  rfl

/-- The last address of the application is in a block where the bit is set. -/
theorem toNat_memToShadow_windows_last : ((Layout.go true).MemToShadow n (Layout.go true).kLinuxAppMemEnd).toNat =
    cell (Layout.go true).kLinuxAppMemEnd * 8 * n.cnt := by
  cases n <;> decide

theorem Fits.shadowed (ha : (Layout.go true).IsAppMem a) (h : Fits n a) : Shadowed (.go true) n a := by
  have hclear := h.clear ha
  obtain ⟨-,hle⟩ := h
  refine shadowed_go ha hclear ?_
  rw [toNat_memToShadow_go ha hclear, toNat_memToShadow_windows_last, cell, cell, shadowBit_true]
  change a.toNat + 2 ^ 40 / n.cnt ≤ 0xfcffffffff at hle
  change a.toNat / 8 * 8 * n.cnt + 2 ^ 40 ≤ 0xfcffffffff / 8 * 8 * n.cnt
  cases n <;> simp only [ShadowCount.cnt_two, ShadowCount.cnt_four, ShadowCount.cnt_eight] at hle ⊢ <;> omega

theorem Shadowed.fits (ha : (Layout.go true).IsAppMem a) (h : Shadowed (.go true) n a) : Fits n a := by
  have hshadow := h.isShadowMem _ memToShadow_mem
  rw [BitVec.ofNat_toNat, BitVec.setWidth_eq] at hshadow
  have hscaled := toNat_scaled (n := n) ha
  have hbit := scaled_bit_windows (n := n) ha
  have hlt := isAppMem_go.mp ha
  cases hset : (scaled n a).getLsbD (shadowBit true) with
  | true =>
    -- the way back loses the bit
    have hback := h.back
    rw [shadowToMem_go hshadow] at hback
    have hclear := BitMask.toNat_and_not_twoPow_of_set hset
    have hnum := congrArg BitVec.toNat (Option.some.inj hback)
    rw [BitVec.toNat_ofNat, BitVec.toNat_ofNat] at hnum
    rw [hscaled] at hclear
    rw [cell] at hclear hnum
    cases n <;> simp only [ShadowCount.cnt_two, ShadowCount.cnt_four, ShadowCount.cnt_eight, shadowBit_true]
      at hclear hnum <;> omega
  | false =>
    have hval := toNat_memToShadow_go ha hset
    have hle := (Layout.isShadowMem_iff.mp hshadow).2
    have hlast := kLinuxShadowEnd_eq (.go true) n
    rw [toNat_memToShadow_windows_last] at hlast
    rw [hset, eq_comm, decide_eq_false_iff_not] at hbit
    refine ⟨by omega,?_⟩
    change a.toNat + 2 ^ 40 / n.cnt ≤ 0xfcffffffff
    change _ = 0xfcffffffff / 8 * 8 * n.cnt + n.cnt * 8 at hlast
    rw [cell] at hval
    cases n <;> simp only [ShadowCount.cnt_two, ShadowCount.cnt_four, ShadowCount.cnt_eight, shadowBit_true]
      at hval hlast ⊢ <;> omega

/-! ## All layouts -/

theorem separated_cpp (ha : Layout.cpp.IsAppMem a) (hb : Layout.cpp.IsAppMem b) : Separated .cpp n a b := by
  have hva := toNat_memToShadow_cpp (n := n) ha
  have hvb := toNat_memToShadow_cpp (n := n) hb
  refine .of_affine (K := -(31 * 2 ^ 42 * n.cnt)) ?_ ?_ (shadowed_cpp ha) (shadowed_cpp hb)
  · have hcast : ((Layout.cpp.MemToShadow n a).toNat : ℤ) + 31 * 2 ^ 42 * n.cnt = cell a * 8 * n.cnt := by exact_mod_cast hva
    omega
  · have hcast : ((Layout.cpp.MemToShadow n b).toNat : ℤ) + 31 * 2 ^ 42 * n.cnt = cell b * 8 * n.cnt := by exact_mod_cast hvb
    omega

theorem separated_go (ha : (Layout.go w).IsAppMem a) (hb : (Layout.go w).IsAppMem b)
    (hca : (scaled n a).getLsbD (shadowBit w) = false) (hcb : (scaled n b).getLsbD (shadowBit w) = false)
    (hl : Shadowed (.go w) n a) (hr : Shadowed (.go w) n b) : Separated (.go w) n a b := by
  refine .of_affine (K := 2 ^ shadowBit w) ?_ ?_ hl hr
  · exact_mod_cast toNat_memToShadow_go ha hca
  · exact_mod_cast toNat_memToShadow_go hb hcb

/-- The mapping keeps the cells of application memory apart, except on Windows, where it does so for the addresses
that fit. -/
theorem memToShadow_separated (l : Layout) (n : ShadowCount) (a b : uptr) (ha : l.IsAppMem a) (hb : l.IsAppMem b) :
    Separated l n a b ↔ (l = .go true → Fits n a ∧ Fits n b) := by
  constructor
  · rintro h rfl
    exact ⟨h.left.fits ha,h.right.fits hb⟩
  · intro h
    match l with
    | .cpp => exact separated_cpp ha hb
    | .go false =>
      exact separated_go ha hb (scaled_clear_linux ha) (scaled_clear_linux hb) (shadowed_linux ha) (shadowed_linux hb)
    | .go true =>
      obtain ⟨hfa,hfb⟩ := h rfl
      exact separated_go ha hb (hfa.clear ha) (hfb.clear hb) (hfa.shadowed ha) (hfb.shadowed hb)

/-- Two addresses of different cells with one shadow. -/
theorem memToShadow_collision : (Layout.go true).IsAppMem 0 ∧ (Layout.go true).IsAppMem (1 <<< 37) ∧
    (Layout.go true).MemToShadow .eight 0 = (Layout.go true).MemToShadow .eight (1 <<< 37) ∧
    cell 0 ≠ cell (1 <<< 37) ∧ ¬Separated (.go true) .eight 0 (1 <<< 37) := by
  have heq : (Layout.go true).MemToShadow .eight 0 = (Layout.go true).MemToShadow .eight (1 <<< 37) := by decide
  have hne : cell 0 ≠ cell (1 <<< 37) := by decide
  exact ⟨by decide,by decide,heq,hne,fun h => hne (h.eq_iff.mp heq)⟩

/-- Addresses of a heap of C and of the first blocks of Go on Windows. -/
theorem memToShadow_separated_heap : Separated .cpp .four 0x7d0000000000 0x7d0000000008 ∧
    Separated (.go true) .eight 0x1000 0x4000000000 := by
  constructor
  · refine (memToShadow_separated _ _ _ _ ?_ ?_).mpr ?_
    · decide
    · decide
    · exact nofun
  · refine (memToShadow_separated _ _ _ _ ?_ ?_).mpr fun _ => ?_
    · decide
    · decide
    · exact ⟨⟨by decide,by decide⟩,⟨by decide,by decide⟩⟩

end CompilerRt.Tsan.Platform
