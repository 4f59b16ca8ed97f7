import CompilerRt.Unwind.Lsda

/-! # Reading back a LEB128 number

`readULEB128` shifts each group as an `int`, whatever the width of its result.
-/
namespace CompilerRt.Unwind
open ByteOrder Leb128

/-- The number and the address behind its encoding. -/
def ReadsBack (T : Target) (m : ByteMemory) (p n : ℕ) : Prop :=
  ∃ r : T.Word, readULEB128 T m p = .ok (r,p + (encode n).length) ∧ r.toNat = n

theorem small_encode_iff (n : ℕ) : Small (encode n) ↔ n < 2 ^ 31 := by
  unfold Small
  rw [value_encode]
  constructor
  · rintro ⟨-,hn⟩
    exact hn
  · intro hn
    exact ⟨length_encode_le (k := 4) (hn.trans (by decide)),hn⟩

theorem readULEB128_encode {T : Target} {m : ByteMemory} {p n : ℕ} (rest : List Byte) (hm : m.Holds p (encode n ++ rest)) :
    readULEB128 T m p =
      if n < 2 ^ 31 then .ok (BitVec.ofNat T.bits n,p + (encode n).length) else .error .undefined := by
  have hread := readULEB128_eq (T := T) (isLeb128_encode n) (ByteMemory.holds_append.mp hm).1
  rw [value_encode] at hread
  exact hread.trans (if_congr (small_encode_iff n) rfl rfl)

/-- From 2^31 on the fifth group does not fit an `int`. -/
theorem readsBack_iff (T : Target) (m : ByteMemory) (p n : ℕ) (rest : List Byte) (hn : n < 2 ^ T.bits)
    (hm : m.Holds p (encode n ++ rest)) : ReadsBack T m p n ↔ n < 2 ^ 31 := by
  unfold ReadsBack
  rw [readULEB128_encode rest hm]
  constructor
  · rintro ⟨r,hr,-⟩
    by_contra hge
    rw [if_neg hge] at hr
    cases hr
  · intro hlt
    rw [if_pos hlt]
    refine ⟨_,rfl,?_⟩
    rw [BitVec.toNat_ofNat]
    exact Nat.mod_eq_of_lt hn

/-- A 64-bit target. -/
def littleEndian64 : Target := ⟨.little,8,Or.inr rfl,id⟩

theorem holds_encode (base n : ℕ) : (ByteMemory.ofList base (encode n)).Holds base (encode n ++ []) := by
  rw [List.append_nil]
  exact ByteMemory.holds_ofList base (encode n)

/-- The encoding `80 80 80 80 08`. -/
theorem not_readsBack : ¬∀ (T : Target) (m : ByteMemory) (p n : ℕ) (rest : List Byte), n < 2 ^ T.bits →
    m.Holds p (encode n ++ rest) → ReadsBack T m p n := by
  intro h
  obtain ⟨r,hr,-⟩ := h littleEndian64 _ 0x1000 (2 ^ 31) [] (by decide) (holds_encode 0x1000 (2 ^ 31))
  rw [readULEB128_encode [] (holds_encode 0x1000 (2 ^ 31)),if_neg (lt_irrefl _)] at hr
  cases hr

/-- The encoding `ff ff ff ff 07`. -/
theorem readsBack_iff_largest : ReadsBack littleEndian64 (ByteMemory.ofList 0x1000 (encode (2 ^ 31 - 1))) 0x1000 (2 ^ 31 - 1) :=
  (readsBack_iff littleEndian64 _ 0x1000 (2 ^ 31 - 1) [] (by decide) (holds_encode 0x1000 (2 ^ 31 - 1))).mpr (by decide)

end CompilerRt.Unwind
