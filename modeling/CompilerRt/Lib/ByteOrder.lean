import Mathlib.Data.Nat.Notation
import Mathlib.Tactic.Ring

/-! # Numbers as bytes in either byte order

The bytes of a number, least significant first or last, and the number that a run of bytes stands for.
-/
namespace CompilerRt.ByteOrder

inductive Order
  | little
  | big
  deriving DecidableEq,Repr

abbrev Byte := BitVec 8

def leBytes : ℕ → ℕ → List Byte
  | 0, _ => []
  | k + 1, n => BitVec.ofNat 8 n :: leBytes k (n / 256)

def leNat : List Byte → ℕ
  | [] => 0
  | b :: bs => b.toNat + 256 * leNat bs

/-- The `k` low bytes of `n`, in the order they have in memory. -/
def toBytes : Order → ℕ → ℕ → List Byte
  | .little, k, n => leBytes k n
  | .big, k, n => (leBytes k n).reverse

/-- The number that is loaded from these bytes. -/
def ofBytes : Order → List Byte → ℕ
  | .little, bs => leNat bs
  | .big, bs => leNat bs.reverse

@[simp] theorem length_leBytes (k n : ℕ) : (leBytes k n).length = k := by
  induction k generalizing n with
  | zero => rfl
  | succ k ih => rw [leBytes,List.length_cons,ih]

@[simp] theorem length_toBytes (order : Order) (k n : ℕ) : (toBytes order k n).length = k := by
  cases order <;> simp [toBytes]

/-- Only what fits into the bytes counts. -/
theorem leBytes_mod (k n : ℕ) : leBytes k (n % 256 ^ k) = leBytes k n := by
  induction k generalizing n with
  | zero => rfl
  | succ k ih =>
    rw [leBytes,leBytes,Nat.pow_succ,Nat.mul_comm,Nat.mod_mul_right_div_self,ih]
    congr 1
    apply BitVec.eq_of_toNat_eq
    rw [BitVec.toNat_ofNat,BitVec.toNat_ofNat]
    exact Nat.mod_mul_right_mod n 256 (256 ^ k)

theorem leBytes_add (j k n : ℕ) : leBytes (j + k) n = leBytes j n ++ leBytes k (n / 256 ^ j) := by
  induction j generalizing n with
  | zero => simp [leBytes]
  | succ j ih => rw [Nat.add_right_comm,leBytes,leBytes,ih,List.cons_append,Nat.div_div_eq_div_mul,Nat.pow_succ,Nat.mul_comm]

theorem leNat_leBytes (k n : ℕ) : leNat (leBytes k n) = n % 256 ^ k := by
  induction k generalizing n with
  | zero => simp [leBytes,leNat,Nat.mod_one]
  | succ k ih =>
    have hb : (BitVec.ofNat 8 n).toNat = n % 256 := BitVec.toNat_ofNat n 8
    rw [leBytes,leNat,ih,hb,Nat.pow_succ,Nat.mul_comm (256 ^ k),Nat.mod_mul]

theorem ofBytes_toBytes (order : Order) (k n : ℕ) : ofBytes order (toBytes order k n) = n % 256 ^ k := by
  cases order with
  | little => exact leNat_leBytes k n
  | big => rw [ofBytes,toBytes,List.reverse_reverse,leNat_leBytes]

theorem ofBytes_toBytes_of_lt (order : Order) {k n : ℕ} (h : n < 256 ^ k) :
    ofBytes order (toBytes order k n) = n := by
  rw [ofBytes_toBytes,Nat.mod_eq_of_lt h]

theorem leNat_append (xs ys : List Byte) : leNat (xs ++ ys) = leNat xs + 256 ^ xs.length * leNat ys := by
  induction xs with
  | nil => simp [leNat]
  | cons b xs ih =>
    rw [List.cons_append,leNat,leNat,ih,List.length_cons,Nat.pow_succ]
    ring

/-- Two halves written low half first are one number in the little-endian order. -/
theorem ofBytes_little_append (xs ys : List Byte) :
    ofBytes .little (xs ++ ys) = ofBytes .little xs + 256 ^ xs.length * ofBytes .little ys := leNat_append xs ys

end CompilerRt.ByteOrder
