import CompilerRt.Lib.ByteOrder
import Mathlib.Data.Nat.Bitwise
import Mathlib.Tactic.Linarith

/-! # Bytes in memory and LEB128 numbers

A partial memory holds a list of bytes from an address on. A LEB128 number is groups of seven bits, the least
significant first; all bytes but the last have the high bit set.
-/
namespace CompilerRt
open ByteOrder

abbrev ByteMemory := ℕ → Option Byte

namespace ByteMemory
variable {m : ByteMemory} {p : ℕ} {b : Byte} {xs ys : List Byte}

def Holds (m : ByteMemory) : ℕ → List Byte → Prop
  | _, [] => True
  | p, b :: bs => m p = some b ∧ Holds m (p + 1) bs

def read (m : ByteMemory) : ℕ → ℕ → Option (List Byte)
  | _, 0 => some []
  | p, k + 1 => do
    let b ← m p
    let bs ← read m (p + 1) k
    return b :: bs

theorem holds_append : m.Holds p (xs ++ ys) ↔ m.Holds p xs ∧ m.Holds (p + xs.length) ys := by
  induction xs generalizing p with
  | nil => simp [Holds]
  | cons b xs ih =>
    rw [List.cons_append,Holds,Holds,ih,List.length_cons,Nat.add_assoc,Nat.add_comm 1,and_assoc]

theorem Holds.read (h : m.Holds p xs) : m.read p xs.length = some xs := by
  induction xs generalizing p with
  | nil => rfl
  | cons b xs ih =>
    rw [List.length_cons,ByteMemory.read,h.1,ih h.2]
    rfl

/-- Only these bytes are there. -/
def ofList (base : ℕ) (bytes : List Byte) : ByteMemory := fun a => if a < base then none else bytes[a - base]?

theorem holds_ofList_append (base : ℕ) (xs ys : List Byte) :
    (ofList base (xs ++ ys)).Holds (base + xs.length) ys := by
  induction ys generalizing xs with
  | nil => trivial
  | cons b ys ih =>
    have hget : (xs ++ b :: ys)[xs.length]? = some b := by
      rw [List.getElem?_append_right (Nat.le_refl _),Nat.sub_self]
      rfl
    refine ⟨?_,?_⟩
    · rw [ofList,if_neg (by omega),Nat.add_sub_cancel_left,hget]
    · have htail := ih (xs ++ [b])
      rwa [List.append_assoc,List.singleton_append,List.length_append,List.length_singleton,← Nat.add_assoc] at htail

theorem holds_ofList (base : ℕ) (bytes : List Byte) : (ofList base bytes).Holds base bytes :=
  holds_ofList_append base [] bytes

end ByteMemory

namespace Leb128

/-- The bytes of a LEB128 number. -/
def IsLeb128 (bs : List Byte) : Prop :=
  ∃ init last, bs = init ++ [last] ∧ (∀ b ∈ init, 128 ≤ b.toNat) ∧ last.toNat < 128

def value : List Byte → ℕ
  | [] => 0
  | b :: bs => b.toNat % 128 + 128 * value bs

theorem isLeb128_cons {b : Byte} {bs : List Byte} (h : IsLeb128 (b :: bs)) :
    (bs = [] ∧ b.toNat < 128) ∨ (128 ≤ b.toNat ∧ IsLeb128 bs) := by
  obtain ⟨init,last,heq,hinit,hlast⟩ := h
  cases init with
  | nil =>
    obtain ⟨rfl,rfl⟩ := List.cons.inj heq
    exact Or.inl ⟨rfl,hlast⟩
  | cons a init =>
    obtain ⟨rfl,rfl⟩ := List.cons.inj heq
    exact Or.inr ⟨hinit b List.mem_cons_self,init,last,rfl,fun x hx => hinit x (List.mem_cons_of_mem b hx),hlast⟩

theorem not_isLeb128_nil : ¬IsLeb128 [] := by
  rintro ⟨init,last,heq,-,-⟩
  cases init <;> simp at heq

theorem IsLeb128.ne_nil {bs : List Byte} (h : IsLeb128 bs) : bs ≠ [] := by
  rintro rfl
  exact not_isLeb128_nil h

theorem and_low (b : Byte) : (b &&& 0x7f).toNat = b.toNat % 128 := by
  rw [BitVec.toNat_and]
  exact Nat.and_two_pow_sub_one_eq_mod b.toNat 7

theorem and_high (b : Byte) : b &&& 0x80 = 0 ↔ b.toNat < 128 := by
  have h : ∀ b : Byte, b &&& 0x80 = 0 ↔ b.toNat < 128 := by decide
  exact h b

/-- The next group lies above the bits that are there. -/
theorem or_group {r g k : ℕ} (h : r < 2 ^ k) : r ||| g * 2 ^ k = r + g * 2 ^ k := by
  rw [Nat.or_comm,Nat.mul_comm,← Nat.two_pow_add_eq_or_of_lt h,Nat.add_comm]

/-! ## The canonical encoding -/

/-- As few groups as there can be. -/
def encode (n : ℕ) : List Byte :=
  if n < 128 then [BitVec.ofNat 8 n] else BitVec.ofNat 8 (128 + n % 128) :: encode (n / 128)

theorem encode_last {n : ℕ} (hn : n < 128) : encode n = [BitVec.ofNat 8 n] := by rw [encode,if_pos hn]

theorem encode_more {n : ℕ} (hn : 128 ≤ n) : encode n = BitVec.ofNat 8 (128 + n % 128) :: encode (n / 128) := by
  rw [encode,if_neg (Nat.not_lt.mpr hn)]

theorem isLeb128_encode (n : ℕ) : IsLeb128 (encode n) := by
  induction n using Nat.strong_induction_on with
  | _ n ih =>
    rcases Nat.lt_or_ge n 128 with hn | hn
    · rw [encode_last hn]
      refine ⟨[],_,rfl,by simp,?_⟩
      rw [BitVec.toNat_ofNat]
      omega
    · obtain ⟨init,last,heq,hinit,hlast⟩ := ih (n / 128) (by omega)
      rw [encode_more hn,heq]
      refine ⟨_ :: init,last,rfl,?_,hlast⟩
      intro b hb
      rcases List.mem_cons.mp hb with rfl | hb
      · rw [BitVec.toNat_ofNat]
        omega
      · exact hinit b hb

theorem value_encode (n : ℕ) : value (encode n) = n := by
  induction n using Nat.strong_induction_on with
  | _ n ih =>
    rcases Nat.lt_or_ge n 128 with hn | hn
    · rw [encode_last hn,value,value,BitVec.toNat_ofNat]
      omega
    · rw [encode_more hn,value,ih (n / 128) (by omega),BitVec.toNat_ofNat]
      omega

theorem length_encode_le {n k : ℕ} (hn : n < 128 ^ (k + 1)) : (encode n).length ≤ k + 1 := by
  induction k generalizing n with
  | zero =>
    rw [encode_last (by simpa using hn)]
    exact le_rfl
  | succ k ih =>
    rcases Nat.lt_or_ge n 128 with hlt | hge
    · rw [encode_last hlt]
      exact Nat.succ_le_succ (Nat.zero_le _)
    · rw [encode_more hge,List.length_cons]
      exact Nat.succ_le_succ (ih (Nat.div_lt_of_lt_mul (by rwa [pow_succ'] at hn)))

end Leb128
end CompilerRt
