import CompilerRt.Asan.Poisoning
import Mathlib

/-! # Poisoning by the run-time library

The first part of `lib/asan/asan_poisoning.cc`: whole granules, and the partial redzone to the right of an object.
-/
namespace CompilerRt.AsanMapping

def AddrIsAlignedByGranularity (a : ℕ) : Bool := (a &&& (SHADOW_GRANULARITY - 1)) == 0

def PoisonShadow (w : WordSize) (sh : Shadow) (addr size : ℕ) (value : BitVec 8) : Option Shadow :=
  let end_addr := (addr + size) % 2^w.bits
  if AddrIsAlignedByGranularity addr && AddrIsAlignedByGranularity end_addr then do
    let shadow_beg ← MemToShadow w addr
    let shadow_end ← MemToShadow w end_addr
    return sh.memset shadow_beg value (shadow_end - shadow_beg)
  else none

/-- What the loop stores for the granule `i` bytes behind the address. -/
def redzoneValue (size i : ℕ) (value : BitVec 8) : BitVec 8 :=
  if i + SHADOW_GRANULARITY ≤ size then 0 else if i ≥ size then value else BitVec.ofNat 8 (size - i)

def PoisonShadowPartialRightRedzone (w : WordSize) (sh : Shadow) (addr size redzone_size : ℕ) (value : BitVec 8) :
    Option Shadow :=
  if AddrIsAlignedByGranularity addr then do
    let shadow ← MemToShadow w addr
    return (List.range ((redzone_size + SHADOW_GRANULARITY - 1) / SHADOW_GRANULARITY)).foldl
      (fun sh k => sh.set (shadow + k) (redzoneValue size (SHADOW_GRANULARITY * k) value)) sh
  else none

/-- A stretch of the shadow with new values. -/
def Shadow.fill (sh : Shadow) (chunk n : ℕ) (values : ℕ → BitVec 8) : Shadow :=
  fun c => if chunk ≤ c ∧ c < chunk + n then values (c - chunk) else sh c

variable {w : WordSize} {sh : Shadow} {addr size chunk n : ℕ} {value : BitVec 8} {values : ℕ → BitVec 8}

theorem Shadow.memset_eq_fill : sh.memset chunk value n = sh.fill chunk n fun _ => value := rfl

theorem Shadow.fill_inside {k : ℕ} (h : k < n) : sh.fill chunk n values (chunk + k) = values k := by
  rw [Shadow.fill, if_pos (by omega), Nat.add_sub_cancel_left]

theorem Shadow.fill_outside {c : ℕ} (h : c < chunk ∨ chunk + n ≤ c) : sh.fill chunk n values c = sh c :=
  if_neg (by omega)

theorem foldl_set_range (sh : Shadow) (shadow n : ℕ) (values : ℕ → BitVec 8) :
    (List.range n).foldl (fun sh k => sh.set (shadow + k) (values k)) sh = sh.fill shadow n values := by
  induction n with
  | zero =>
    funext c
    exact (if_neg (by omega)).symm
  | succ n ih =>
    rw [List.range_succ, List.foldl_append, ih, List.foldl_cons, List.foldl_nil]
    funext c
    by_cases hlast : c = shadow + n
    · rw [hlast, Shadow.set_self, Shadow.fill_inside (Nat.lt_succ_self n)]
    · rw [Shadow.set_of_ne _ _ hlast]
      by_cases hc : shadow ≤ c ∧ c < shadow + n
      · rw [Shadow.fill, if_pos hc, Shadow.fill, if_pos (by omega)]
      · rw [Shadow.fill, if_neg hc, Shadow.fill, if_neg (by omega)]

theorem aligned_of_mod (h : addr % 8 = 0) : AddrIsAlignedByGranularity addr = true := by
  rw [AddrIsAlignedByGranularity, granuleOffset, h]
  rfl

theorem poisonShadow_eq (haddr : addr % 8 = 0) (hsize : size % 8 = 0) (hrange : w.InOneRange addr (addr + size)) :
    PoisonShadow w sh addr size value = some (sh.memset (w.SHADOW_OFFSET + addr / 8) value (size / 8)) := by
  have hlt := AddrIsInMem.lt hrange.right
  have hcount : w.SHADOW_OFFSET + (addr + size) / 8 - (w.SHADOW_OFFSET + addr / 8) = size / 8 := by
    omega
  rw [PoisonShadow, Nat.mod_eq_of_lt hlt, aligned_of_mod haddr, aligned_of_mod (by omega), memToShadow_mem hrange.left, memToShadow_mem hrange.right]
  dsimp only [Option.bind_eq_bind, Option.bind_some]
  rw [hcount]
  rfl

theorem poisonShadowPartialRightRedzone_eq {redzone_size : ℕ} (haddr : addr % 8 = 0) (hsize : redzone_size % 8 = 0)
    (hmem : w.AddrIsInMem addr = true) :
    PoisonShadowPartialRightRedzone w sh addr size redzone_size value =
      some (sh.fill (w.SHADOW_OFFSET + addr / 8) (redzone_size / 8) fun k => redzoneValue size (8 * k) value) := by
  have hcount : (redzone_size + SHADOW_GRANULARITY - 1) / SHADOW_GRANULARITY = redzone_size / 8 := by
    have hgranularity : SHADOW_GRANULARITY = 8 := rfl
    rw [hgranularity]
    omega
  rw [PoisonShadowPartialRightRedzone, if_pos (aligned_of_mod haddr), memToShadow_mem hmem, hcount]
  dsimp only [Option.bind_eq_bind, Option.bind_some]
  rw [foldl_set_range]
  rfl

end CompilerRt.AsanMapping
