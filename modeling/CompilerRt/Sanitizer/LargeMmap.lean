import CompilerRt.Lib.BitMask
import CompilerRt.Lib.DoublyLinked
import CompilerRt.Lib.Transition
import Mathlib

/-! # The allocator of large blocks

`LargeMmapAllocator` of `lib/sanitizer_common/sanitizer_allocator64.h`: a mapping for each block, with a header in the
page before the block. The headers are in a doubly linked list.
-/
namespace CompilerRt.Sanitizer

def kPageSizeBits : ℕ := 12
def kPageSize : ℕ := 1 <<< kPageSizeBits

/-- `x - 1`, which wraps for zero. -/
def mask (x : ℕ) : ℕ := (x + (2^64 - 1)) % 2^64

def IsPowerOfTwo (x : ℕ) : Bool := x &&& mask x == 0

/-- None where the boundary is not a power of two. -/
def RoundUpTo (size boundary : ℕ) : Option ℕ :=
  if IsPowerOfTwo boundary then
    some (BitVec.ofNat 64 (size + boundary - 1) &&& ~~~BitVec.ofNat 64 (boundary - 1)).toNat
  else none

structure Header where
  map_beg : ℕ
  map_size : ℕ
  size : ℕ
  next : Option ℕ
  prev : Option ℕ

/-- What was asked for and what was mapped for it. -/
structure Block where
  res : ℕ
  size : ℕ
  map_beg : ℕ
  map_size : ℕ
deriving DecidableEq

/-- The headers by their addresses, the list, and the blocks that are live, the newest first. -/
structure LargeMmap where
  headers : ℕ → Header
  list_ : Option ℕ
  live : List Block

namespace LargeMmap

def Init : LargeMmap := ⟨fun _ => ⟨0,0,0,none,none⟩,none,[]⟩

def GetHeader (p : ℕ) : ℕ := p - kPageSize
def GetUser (h : ℕ) : ℕ := h + kPageSize

def RoundUpMapSize (size : ℕ) : Option ℕ := (RoundUpTo size kPageSize).map fun n => (n + kPageSize) % 2^64

/-- The size of the mapping, as it wraps. -/
def mapSize (size alignment : ℕ) : Option ℕ := (RoundUpMapSize size).map fun map_size =>
  if alignment > kPageSize then (map_size + alignment) % 2^64 else map_size

/-- The first address behind the header's page that is aligned. -/
def blockBegin (map_beg alignment : ℕ) : ℕ :=
  let res := (map_beg + kPageSize) % 2^64
  if res &&& mask alignment ≠ 0 then (res + alignment + (2^64 - (res &&& mask alignment))) % 2^64 else res

/-- `if (q) q->next = v`. -/
def setNext (headers : ℕ → Header) (q v : Option ℕ) : ℕ → Header := match q with
  | none => headers
  | some l => Function.update headers l { headers l with next := v }

/-- `if (q) q->prev = v`. -/
def setPrev (headers : ℕ → Header) (q v : Option ℕ) : ℕ → Header := match q with
  | none => headers
  | some l => Function.update headers l { headers l with prev := v }

variable (s : LargeMmap)

/-- The block with its header is put to the front. -/
def insert (b : Block) : LargeMmap :=
  let h := GetHeader b.res
  let headers := Function.update s.headers h ⟨b.map_beg,b.map_size,b.size,s.list_,none⟩
  ⟨setPrev headers s.list_ (some h),some h,b :: s.live⟩

/-- With the address where the memory is mapped; the block is zero where the size is too large, and none where a check
fails. -/
def Allocate (map_beg size alignment : ℕ) : Option (ℕ × LargeMmap) :=
  if IsPowerOfTwo alignment then
    (mapSize size alignment).bind fun map_size =>
      if map_size < size then some (0,s)
      else
        let map_end := (map_beg + map_size) % 2^64
        let res := blockBegin map_beg alignment
        if res &&& mask alignment = 0 ∧ (res + size) % 2^64 ≤ map_end then
          some (res,s.insert ⟨res,size,map_beg,map_size⟩)
        else none
  else none

/-- With the mapping that is unmapped. -/
def Deallocate (p : ℕ) : (ℕ × ℕ) × LargeMmap :=
  let h := GetHeader p
  let prev := (s.headers h).prev
  let next := (s.headers h).next
  let headers := setPrev (setNext s.headers prev next) next prev
  (((headers h).map_beg,(headers h).map_size),
    ⟨headers,if s.list_ = some h then next else s.list_,s.live.filter fun b => b.res ≠ p⟩)

/-- The loop over the list, with none where it does not end. -/
def find (test : ℕ → Bool) : ℕ → Option ℕ → Option (Option ℕ)
  | 0, _ => none
  | _ + 1, none => some none
  | fuel + 1, some l => if test l then some (some l) else find test fuel (s.headers l).next

def PointerIsMine (fuel p : ℕ) : Option Bool :=
  if p % kPageSize ≠ 0 then some false
  else (s.find (fun l => GetUser l == p) fuel s.list_).map Option.isSome

def GetActuallyAllocatedSize (p : ℕ) : Option ℕ :=
  (RoundUpMapSize (s.headers (GetHeader p)).size).map fun n => (n + (2^64 - kPageSize)) % 2^64

/-- The first byte of the block, or zero. -/
def GetBlockBegin (fuel p : ℕ) : Option ℕ :=
  (s.find (fun l => GetUser l ≤ p && p < GetUser l + (s.headers l).size) fuel s.list_).map fun l =>
    match l with
    | none => 0
    | some l => GetUser l

/-- Memory that is mapped anew: whole pages, none of them zero or the last one, and none of a block that is live. -/
def Fresh (map_beg map_size : ℕ) : Prop :=
  map_beg % kPageSize = 0 ∧ 0 < map_beg ∧ map_beg + map_size < 2^64 ∧
    ∀ b ∈ s.live, map_beg + map_size ≤ b.map_beg ∨ b.map_beg + b.map_size ≤ map_beg

instance (map_beg map_size : ℕ) : Decidable (s.Fresh map_beg map_size) :=
  inferInstanceAs (Decidable (_ ∧ _ ∧ _ ∧ _))

inductive Op where
  | Allocate (map_beg size alignment : ℕ)
  | Deallocate (p : ℕ)

/-- Sizes are words, alignments powers of two, and the memory for a size that is not too large is fresh. -/
def Asked (map_beg size alignment : ℕ) : Prop :=
  size < 2^64 ∧ (∃ k < 64, alignment = 2^k) ∧
    ∀ map_size, mapSize size alignment = some map_size → size ≤ map_size → s.Fresh map_beg map_size

open Classical in
/-- What is given back is live. -/
noncomputable def step : Op → Option LargeMmap
  | .Allocate map_beg size alignment =>
    if s.Asked map_beg size alignment then (s.Allocate map_beg size alignment).map Prod.snd else none
  | .Deallocate p => if p ∈ s.live.map Block.res then some (s.Deallocate p).2 else none

/-! ## Sizes and addresses -/

variable {map_beg map_size size alignment k x : ℕ}

theorem mask_pow (hk : k < 64) : mask (2^k) = 2^k - 1 := by
  have hpos := Nat.two_pow_pos k
  have hlt : 2^k < 2^64 := Nat.pow_lt_pow_right (by decide) hk
  rw [mask]
  omega

theorem and_mask_pow (hk : k < 64) (x : ℕ) : x &&& mask (2^k) = x % 2^k := by
  rw [mask_pow hk, Nat.and_two_pow_sub_one_eq_mod]

theorem isPowerOfTwo_pow (hk : k < 64) : IsPowerOfTwo (2^k) = true := by
  rw [IsPowerOfTwo, and_mask_pow hk, Nat.mod_self]
  rfl

theorem roundUpTo_pow (hk : k < 64) (x : ℕ) :
    RoundUpTo x (2^k) = some ((x + 2^k - 1) % 2^64 / 2^k * 2^k) := by
  rw [RoundUpTo, if_pos (isPowerOfTwo_pow hk), BitMask.toNat_and_not_low, BitVec.toNat_ofNat]

/-- Whole pages. -/
def pages (size : ℕ) : ℕ := (size + 4095) / 4096 * 4096

theorem le_pages (size : ℕ) : size ≤ pages size := by
  rw [pages]
  omega

/-- The size of the mapping that is needed: whole pages, a page for the header, and room to align. -/
def needed (size alignment : ℕ) : ℕ := pages size + 4096 + if 4096 < alignment then alignment else 0

theorem kPageSize_eq : kPageSize = 4096 := rfl

/-- The size is computed as it wraps, and is below the size asked for just where it wraps. -/
theorem mapSize_eq (hsize : size < 2^64) (hk : k < 64) : mapSize size (2^k) = some (needed size (2^k) % 2^64) ∧
    (needed size (2^k) % 2^64 < size ↔ 2^64 ≤ needed size (2^k)) := by
  have hpow : 2^k ≤ 2^63 := Nat.pow_le_pow_right (by decide) (by omega)
  have hpage : RoundUpTo size kPageSize = some ((size + 4096 - 1) % 2^64 / 4096 * 4096) :=
    roundUpTo_pow (k := 12) (by decide) size
  rw [mapSize, RoundUpMapSize, hpage, Option.map_some, Option.map_some, kPageSize_eq, needed, pages, Option.some_inj]
  generalize 2^k = a at hpow ⊢
  by_cases ha : 4096 < a
  · rw [if_pos ha, if_pos ha]
    omega
  · rw [if_neg ha, if_neg ha]
    omega

/-- Where the block begins: aligned, behind the header's page, and with room for its size. -/
theorem blockBegin_eq (hk : k < 64) (hpage : map_beg % 4096 = 0) (hend : map_beg + needed size (2^k) < 2^64) :
    blockBegin map_beg (2^k) % 2^k = 0 ∧ map_beg + 4096 ≤ blockBegin map_beg (2^k) ∧
      blockBegin map_beg (2^k) + pages size ≤ map_beg + needed size (2^k) ∧ blockBegin map_beg (2^k) % 4096 = 0 := by
  have hpages : pages size % 4096 = 0 := Nat.mul_mod_left ..
  rw [needed] at hend ⊢
  rw [blockBegin]
  rw [kPageSize_eq, Nat.mod_eq_of_lt (a := map_beg + 4096) (by omega), and_mask_pow hk]
  by_cases hle : k ≤ 12
  · have hdvd : 2^k ∣ map_beg + 4096 := by
      have hpow : 2^k ∣ 4096 := Nat.pow_dvd_pow 2 hle
      exact (Nat.dvd_add (hpow.trans (Nat.dvd_of_mod_eq_zero hpage)) hpow)
    have hmod : (map_beg + 4096) % 2^k = 0 := Nat.mod_eq_zero_of_dvd hdvd
    rw [if_neg (not_not_intro hmod)]
    exact ⟨hmod,le_rfl,by omega,by omega⟩
  · have hpow : 2^12 * 2^(k - 12) = 2^k := by rw [← Nat.pow_add, Nat.add_sub_cancel' (by omega)]
    have hlarge : 4096 < 2^k := by
      have hmono : 2^13 ≤ 2^k := Nat.pow_le_pow_right (by decide) (by omega)
      omega
    rw [if_pos hlarge] at hend ⊢
    by_cases hmod : (map_beg + 4096) % 2^k = 0
    · rw [if_neg (not_not_intro hmod)]
      exact ⟨hmod,le_rfl,by omega,by omega⟩
    · rw [if_pos hmod]
      have hlt := Nat.mod_lt (map_beg + 4096) (Nat.two_pow_pos k)
      have hrem : (map_beg + 4096) % 2^k % 4096 = 0 := by
        have hdvd : 4096 ∣ 2^k := ⟨2^(k - 12),hpow.symm⟩
        rw [Nat.mod_mod_of_dvd _ hdvd]
        omega
      have hwrap : (map_beg + 4096 + 2^k + (2^64 - (map_beg + 4096) % 2^k)) % 2^64 =
          map_beg + 4096 + 2^k - (map_beg + 4096) % 2^k := by
        generalize (map_beg + 4096) % 2^k = r at *
        omega
      rw [hwrap]
      have hdiv := Nat.div_add_mod (map_beg + 4096) (2^k)
      have hup : map_beg + 4096 + 2^k - (map_beg + 4096) % 2^k = 2^k * ((map_beg + 4096) / 2^k + 1) := by
        rw [Nat.mul_succ]
        omega
      refine ⟨?_,by omega,by omega,?_⟩
      · rw [hup, Nat.mul_mod_right]
      · rw [hup, ← hpow, Nat.mul_assoc]
        exact Nat.mul_mod_right 4096 _

end LargeMmap
end CompilerRt.Sanitizer
