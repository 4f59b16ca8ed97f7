import CompilerRt.Sanitizer.Libc
import Mathlib

/-! # Comparing strings

The interceptors `memcmp`, `strcmp` and `strncmp` of `lib/tsan/rtl/tsan_interceptors.cc`, and how they and the
functions of `sanitizer_libc.cc` with the same names compare. A plain `char` has a sign.
-/
namespace CompilerRt.Tsan.StringInterceptors
open Sanitizer

/-- The loop of `memcmp`: where it stops, and the difference there. -/
def memcmpLoop : CString → CString → ℕ → ℕ × ℤ
  | c1 :: s1, c2 :: s2, n + 1 =>
    let res : ℤ := c1.toNat - c2.toNat
    if res ≠ 0 then (0,res)
    else
      let (len,res) := memcmpLoop s1 s2 n
      (len + 1,res)
  | _, _, _ => (0,0)

/-- The result, and how many bytes of either argument are taken as read. -/
def memcmp (s1 s2 : CString) (n : ℕ) : ℤ × ℕ :=
  let (len,res) := memcmpLoop s1 s2 n
  (res,if len < n then len + 1 else n)

def strcmpLoop : CString → CString → ℕ
  | c1 :: s1, c2 :: s2 => if c1 ≠ c2 then 0 else strcmpLoop s1 s2 + 1
  | _, _ => 0

def strcmp (s1 s2 : CString) : ℤ × ℕ :=
  let len := strcmpLoop s1 s2
  (schar (s1.getD len '\x00') - schar (s2.getD len '\x00'),len + 1)

def strncmpLoop : CString → CString → ℕ → ℕ
  | c1 :: s1, c2 :: s2, n + 1 => if c1 ≠ c2 then 0 else strncmpLoop s1 s2 n + 1
  | _, _, _ => 0

def strncmp (s1 s2 : CString) (n : ℕ) : ℤ × ℕ :=
  let len := strncmpLoop s1 s2 n
  (if len = n then 0 else schar (s1.getD len '\x00') - schar (s2.getD len '\x00'),if len < n then len + 1 else n)

/-! ## Comparison at the first difference -/

/-- The result of comparing the first two characters that differ; a string that ends has its NUL there. -/
def firstDifference (d : Char → Char → ℤ) : CString → CString → ℤ
  | [], [] => 0
  | [], c2 :: _ => d '\x00' c2
  | c1 :: _, [] => d c1 '\x00'
  | c1 :: s1, c2 :: s2 => if c1 ≠ c2 then d c1 c2 else firstDifference d s1 s2

/-- The order of the C standard, where characters are unsigned. -/
def standardOrder : CString → CString → Ordering := List.compareLex fun c1 c2 => compare c1.toNat c2.toNat

/-- Characters of one byte. -/
def IsBytes (s : CString) : Prop := ∀ c ∈ s, c.toNat < 256

/-- No NUL before the end. -/
def IsString (s : CString) : Prop := IsBytes s ∧ '\x00' ∉ s

/-- What holds of the first characters that differ, the NULs at the ends among them, if there are such. -/
def AtDifference (Q : Char → Char → Prop) (s1 s2 : CString) : Prop := ∀ i, (∀ j < i, s1.getD j '\x00' = s2.getD j '\x00') →
  s1.getD i '\x00' ≠ s2.getD i '\x00' → Q (s1.getD i '\x00') (s2.getD i '\x00')

/-- They are both ASCII, or neither is. -/
def SameHalf : CString → CString → Prop := AtDifference fun c1 c2 => c1.toNat < 128 ↔ c2.toNat < 128

section Characters
variable {c c1 c2 : Char}

theorem schar_eq (h : c.toNat < 256) : schar c = if c.toNat < 128 then (c.toNat : ℤ) else c.toNat - 256 := by
  rw [schar, BitVec.toInt_eq_toNat_cond, BitVec.toNat_ofNat, Nat.mod_eq_of_lt h]
  split_ifs <;> omega

/-- The sign is extended, which keeps the order. -/
theorem unsignedOf_eq (h : c.toNat < 256) : unsignedOf c = if c.toNat < 128 then c.toNat else c.toNat + (2^32 - 256) := by
  rw [unsignedOf, schar_eq h, BitVec.toNat_ofInt]
  split_ifs <;> omega

theorem unsignedOf_lt_iff (h1 : c1.toNat < 256) (h2 : c2.toNat < 256) :
    unsignedOf c1 < unsignedOf c2 ↔ c1.toNat < c2.toNat := by
  rw [unsignedOf_eq h1, unsignedOf_eq h2]
  split_ifs <;> omega

theorem toNat_ne (h : c1 ≠ c2) : c1.toNat ≠ c2.toNat := fun heq => h (Char.toNat_inj.mp heq)

theorem compare_ite {p : Prop} [Decidable p] : compare (if p then -1 else 1 : ℤ) 0 = if p then .lt else .gt := by
  split_ifs <;> rfl

theorem compare_unsigned (h1 : c1.toNat < 256) (h2 : c2.toNat < 256) (hne : c1 ≠ c2) :
    compare (if unsignedOf c1 < unsignedOf c2 then -1 else 1 : ℤ) 0 = compare c1.toNat c2.toNat := by
  have hne := toNat_ne hne
  simp only [compare_ite, unsignedOf_lt_iff h1 h2, Nat.compare_eq_ite_lt]
  split_ifs <;> first | rfl | omega

theorem compare_sub (c1 c2 : Char) : compare ((c1.toNat : ℤ) - c2.toNat) 0 = compare c1.toNat c2.toNat := by
  rw [Nat.compare_eq_ite_lt, compare, instOrdInt]
  simp only [compareOfLessAndEq]
  split_ifs <;> first | rfl | omega

theorem compare_signed_iff (h1 : c1.toNat < 256) (h2 : c2.toNat < 256) (hne : c1 ≠ c2) :
    compare (if schar c1 < schar c2 then -1 else 1 : ℤ) 0 = compare c1.toNat c2.toNat ↔
      (c1.toNat < 128 ↔ c2.toNat < 128) := by
  have hne := toNat_ne hne
  rw [compare_ite, schar_eq h1, schar_eq h2, Nat.compare_eq_ite_lt]
  split_ifs <;> simp <;> omega

theorem compare_sub_signed_iff (h1 : c1.toNat < 256) (h2 : c2.toNat < 256) (hne : c1 ≠ c2) :
    compare (schar c1 - schar c2) 0 = compare c1.toNat c2.toNat ↔ (c1.toNat < 128 ↔ c2.toNat < 128) := by
  have hne := toNat_ne hne
  rw [schar_eq h1, schar_eq h2, Nat.compare_eq_ite_lt, compare, instOrdInt]
  simp only [compareOfLessAndEq]
  split_ifs <;> simp <;> omega

end Characters

/-! ## Strings -/

section Strings
variable {d : Char → Char → ℤ} {Q Q' : Char → Char → Prop} {s1 s2 : CString} {c1 c2 : Char} {n : ℕ}

theorem atDifference_of_ne (h1 : s1.getD 0 '\x00' = c1) (h2 : s2.getD 0 '\x00' = c2) (h : c1 ≠ c2) :
    AtDifference Q s1 s2 ↔ Q c1 c2 := by
  subst h1 h2
  constructor
  · intro hq
    exact hq 0 (fun j hj => absurd hj (Nat.not_lt_zero j)) h
  · intro hq i hi hne
    cases i with
    | zero => exact hq
    | succ i => exact absurd (hi 0 (Nat.succ_pos i)) h

theorem atDifference_nil_cons (h : '\x00' ≠ c2) : AtDifference Q [] (c2 :: s2) ↔ Q '\x00' c2 :=
  atDifference_of_ne rfl rfl h

theorem atDifference_cons_nil (h : c1 ≠ '\x00') : AtDifference Q (c1 :: s1) [] ↔ Q c1 '\x00' :=
  atDifference_of_ne rfl rfl h

theorem atDifference_cons_cons (h : c1 ≠ c2) : AtDifference Q (c1 :: s1) (c2 :: s2) ↔ Q c1 c2 :=
  atDifference_of_ne rfl rfl h

theorem atDifference_cons (c : Char) : AtDifference Q (c :: s1) (c :: s2) ↔ AtDifference Q s1 s2 := by
  constructor
  · intro h i hi hne
    refine h (i + 1) (fun j hj => ?_) hne
    cases j with
    | zero => rfl
    | succ j => exact hi j (Nat.lt_of_succ_lt_succ hj)
  · intro h i hi hne
    cases i with
    | zero => exact absurd rfl hne
    | succ i => exact h i (fun j hj => hi (j + 1) (Nat.succ_lt_succ hj)) hne

theorem getD_lt (h : IsBytes s1) (i : ℕ) : (s1.getD i '\x00').toNat < 256 := by
  rw [List.getD_eq_getElem?_getD]
  cases hi : s1[i]? with
  | none => decide
  | some c => exact h c (List.mem_of_getElem? hi)

theorem atDifference_congr (h1 : IsBytes s1) (h2 : IsBytes s2)
    (h : ∀ c1 c2 : Char, c1.toNat < 256 → c2.toNat < 256 → c1 ≠ c2 → (Q c1 c2 ↔ Q' c1 c2)) :
    AtDifference Q s1 s2 ↔ AtDifference Q' s1 s2 := by
  refine forall_congr' fun i => imp_congr_right fun _ => forall_congr' fun hne => ?_
  exact h _ _ (getD_lt h1 i) (getD_lt h2 i) hne

/-- The comparison is the standard one if it is right about the characters that decide it. -/
theorem firstDifference_iff (hend : s1.length = s2.length ∨ '\x00' ∉ s1 ∧ '\x00' ∉ s2) :
    compare (firstDifference d s1 s2) 0 = standardOrder s1 s2 ↔
      AtDifference (fun c1 c2 => compare (d c1 c2) 0 = compare c1.toNat c2.toNat) s1 s2 := by
  induction s1 generalizing s2 with
  | nil =>
    cases s2 with
    | nil => exact iff_of_true rfl fun i _ hne => absurd rfl hne
    | cons c2 s2 =>
      rcases hend with hlen | ⟨-,h0⟩
      · cases hlen
      · have hne : '\x00' ≠ c2 := fun heq => h0 (heq ▸ List.mem_cons_self)
        have hlt : compare ('\x00').toNat c2.toNat = .lt := by
          have hpos := toNat_ne hne
          rw [Nat.compare_eq_lt]
          exact Nat.pos_of_ne_zero hpos.symm
        rw [atDifference_nil_cons hne, firstDifference, standardOrder, List.compareLex_nil_cons, hlt]
  | cons c1 s1 ih =>
    cases s2 with
    | nil =>
      rcases hend with hlen | ⟨h0,-⟩
      · cases hlen
      · have hne : c1 ≠ '\x00' := fun heq => h0 (heq ▸ List.mem_cons_self)
        have hgt : compare c1.toNat ('\x00').toNat = .gt := by
          have hpos := toNat_ne hne
          rw [Nat.compare_eq_gt]
          exact Nat.pos_of_ne_zero hpos
        rw [atDifference_cons_nil hne, firstDifference, standardOrder, List.compareLex_cons_nil, hgt]
    | cons c2 s2 =>
      rw [firstDifference, standardOrder, List.compareLex_cons_cons]
      split_ifs with hne
      · have hord : compare c1.toNat c2.toNat ≠ .eq := fun heq => toNat_ne hne (Nat.compare_eq_eq.mp heq)
        have hthen : ∀ o, (compare c1.toNat c2.toNat).then o = compare c1.toNat c2.toNat := by
          intro o
          cases h : compare c1.toNat c2.toNat with
          | lt => rfl
          | eq => exact absurd h hord
          | gt => rfl
        rw [hthen, atDifference_cons_cons hne]
      · rw [not_ne_iff.mp hne, Nat.compare_eq_eq.mpr rfl, atDifference_cons]
        refine ih (hend.imp Nat.succ.inj fun h => ?_)
        exact ⟨fun hm => h.1 (List.mem_cons_of_mem _ hm),fun hm => h.2 (List.mem_cons_of_mem _ hm)⟩

/-! ## The loops -/

theorem internal_memcmp_eq (h1 : n ≤ s1.length) (h2 : n ≤ s2.length) : internal_memcmp s1 s2 n =
    firstDifference (fun c1 c2 => if schar c1 < schar c2 then -1 else 1) (s1.take n) (s2.take n) := by
  induction n generalizing s1 s2 with
  | zero => simp [internal_memcmp, firstDifference]
  | succ n ih =>
    cases s1 with
    | nil => cases h1
    | cons c1 s1 =>
      cases s2 with
      | nil => cases h2
      | cons c2 s2 =>
        rw [internal_memcmp, List.take_succ_cons, List.take_succ_cons, firstDifference,
          ih (Nat.le_of_succ_le_succ h1) (Nat.le_of_succ_le_succ h2)]

theorem internal_strcmp_eq : internal_strcmp s1 s2 =
    firstDifference (fun c1 c2 => if unsignedOf c1 < unsignedOf c2 then -1 else 1) s1 s2 := by
  induction s1 generalizing s2 with
  | nil => cases s2 <;> rfl
  | cons c1 s1 ih =>
    cases s2 with
    | nil => rfl
    | cons c2 s2 => rw [internal_strcmp, firstDifference, ih]

theorem internal_strncmp_eq : internal_strncmp s1 s2 n =
    firstDifference (fun c1 c2 => if unsignedOf c1 < unsignedOf c2 then -1 else 1) (s1.take n) (s2.take n) := by
  induction n generalizing s1 s2 with
  | zero => simp [internal_strncmp, firstDifference]
  | succ n ih =>
    cases s1 with
    | nil => cases s2 <;> rfl
    | cons c1 s1 =>
      cases s2 with
      | nil => rfl
      | cons c2 s2 => rw [internal_strncmp, List.take_succ_cons, List.take_succ_cons, firstDifference, ih]

theorem memcmp_eq (h1 : n ≤ s1.length) (h2 : n ≤ s2.length) : (memcmp s1 s2 n).1 =
    firstDifference (fun c1 c2 => (c1.toNat : ℤ) - c2.toNat) (s1.take n) (s2.take n) := by
  change (memcmpLoop s1 s2 n).2 = _
  induction n generalizing s1 s2 with
  | zero => simp [memcmpLoop, firstDifference]
  | succ n ih =>
    cases s1 with
    | nil => cases h1
    | cons c1 s1 =>
      cases s2 with
      | nil => cases h2
      | cons c2 s2 =>
        have hne : (c1.toNat : ℤ) - c2.toNat ≠ 0 ↔ c1 ≠ c2 := by
          rw [sub_ne_zero, Ne, Ne, Int.ofNat_inj, Char.toNat_inj]
        rw [memcmpLoop, List.take_succ_cons, List.take_succ_cons, firstDifference]
        dsimp only
        simp only [hne]
        split_ifs
        · rfl
        · exact ih (Nat.le_of_succ_le_succ h1) (Nat.le_of_succ_le_succ h2)

theorem strcmp_eq : (strcmp s1 s2).1 = firstDifference (fun c1 c2 => schar c1 - schar c2) s1 s2 := by
  change schar (s1.getD (strcmpLoop s1 s2) '\x00') - schar (s2.getD (strcmpLoop s1 s2) '\x00') = _
  induction s1 generalizing s2 with
  | nil => cases s2 <;> rfl
  | cons c1 s1 ih =>
    cases s2 with
    | nil => rfl
    | cons c2 s2 =>
      rw [strcmpLoop, firstDifference, ← ih]
      split_ifs <;> rfl

theorem strncmp_eq : (strncmp s1 s2 n).1 =
    firstDifference (fun c1 c2 => schar c1 - schar c2) (s1.take n) (s2.take n) := by
  change (if strncmpLoop s1 s2 n = n then 0 else
    schar (s1.getD (strncmpLoop s1 s2 n) '\x00') - schar (s2.getD (strncmpLoop s1 s2 n) '\x00')) = _
  induction n generalizing s1 s2 with
  | zero => cases s1 <;> cases s2 <;> rfl
  | succ n ih =>
    cases s1 with
    | nil => cases s2 <;> rfl
    | cons c1 s1 =>
      cases s2 with
      | nil => rfl
      | cons c2 s2 =>
        rw [strncmpLoop, List.take_succ_cons, List.take_succ_cons, firstDifference, ← ih]
        by_cases hne : c1 ≠ c2
        · rw [if_pos hne, if_pos hne, if_neg (Nat.succ_ne_zero n).symm]
          rfl
        · rw [if_neg hne, if_neg hne]
          simp only [Nat.add_right_cancel_iff]
          rfl

end Strings

/-! ## The six comparisons -/

inductive Comparison where
  | internal_memcmp (n : ℕ)
  | internal_strcmp
  | internal_strncmp (n : ℕ)
  | memcmp (n : ℕ)
  | strcmp
  | strncmp (n : ℕ)

namespace Comparison

def result (s1 s2 : CString) : Comparison → ℤ
  | internal_memcmp n => Sanitizer.internal_memcmp s1 s2 n
  | internal_strcmp => Sanitizer.internal_strcmp s1 s2
  | internal_strncmp n => Sanitizer.internal_strncmp s1 s2 n
  | memcmp n => (StringInterceptors.memcmp s1 s2 n).1
  | strcmp => (StringInterceptors.strcmp s1 s2).1
  | strncmp n => (StringInterceptors.strncmp s1 s2 n).1

/-- What of an argument is compared. -/
def part (s : CString) : Comparison → CString
  | internal_memcmp n | memcmp n | internal_strncmp n | strncmp n => s.take n
  | internal_strcmp | strcmp => s

/-- Memory of at least `n` bytes, or strings. -/
def Accepts (s1 s2 : CString) : Comparison → Prop
  | internal_memcmp n | memcmp n => (IsBytes s1 ∧ n ≤ s1.length) ∧ IsBytes s2 ∧ n ≤ s2.length
  | internal_strncmp _ | strncmp _ | internal_strcmp | strcmp => IsString s1 ∧ IsString s2

/-- The result has the sign that the standard asks for. -/
def IsStandard (s1 s2 : CString) (f : Comparison) : Prop :=
  compare (f.result s1 s2) 0 = standardOrder (f.part s1) (f.part s2)

instance (s1 s2 : CString) (f : Comparison) : Decidable (f.IsStandard s1 s2) := inferInstanceAs (Decidable (_ = _))

/-- Where plain characters are compared, those that decide have the same sign. -/
def SignsAgree (s1 s2 : CString) : Comparison → Prop
  | internal_strcmp | internal_strncmp _ | memcmp _ => True
  | internal_memcmp n | strncmp n => SameHalf (s1.take n) (s2.take n)
  | strcmp => SameHalf s1 s2

end Comparison

section Standard
variable {s1 s2 : CString} {n : ℕ}

theorem IsBytes.take (h : IsBytes s1) (n : ℕ) : IsBytes (s1.take n) := fun c hc => h c (List.mem_of_mem_take hc)

theorem IsString.take (h : IsString s1) (n : ℕ) : IsString (s1.take n) :=
  ⟨h.1.take n,fun hc => h.2 (List.mem_of_mem_take hc)⟩

theorem take_length_eq (h1 : n ≤ s1.length) (h2 : n ≤ s2.length) : (s1.take n).length = (s2.take n).length := by
  rw [List.length_take, List.length_take, Nat.min_eq_left h1, Nat.min_eq_left h2]

theorem unsigned_standard (h1 : IsBytes s1) (h2 : IsBytes s2) : AtDifference (fun c1 c2 =>
    compare (if unsignedOf c1 < unsignedOf c2 then -1 else 1 : ℤ) 0 = compare c1.toNat c2.toNat) s1 s2 :=
  fun i _ hne => compare_unsigned (getD_lt h1 i) (getD_lt h2 i) hne

/-- All comparisons give the sign of the standard, but for characters of which one is ASCII where they take plain
characters. -/
theorem comparison_standard_iff (f : Comparison) (h : f.Accepts s1 s2) : f.IsStandard s1 s2 ↔ f.SignsAgree s1 s2 := by
  unfold Comparison.IsStandard
  cases f with
  | internal_memcmp n =>
    obtain ⟨⟨h1,hn1⟩,h2,hn2⟩ := h
    rw [Comparison.result, internal_memcmp_eq hn1 hn2, Comparison.part, Comparison.part,
      firstDifference_iff (Or.inl (take_length_eq hn1 hn2))]
    exact atDifference_congr (h1.take n) (h2.take n) fun _ _ => compare_signed_iff
  | internal_strcmp =>
    rw [Comparison.result, internal_strcmp_eq, Comparison.part, Comparison.part,
      firstDifference_iff (Or.inr ⟨h.1.2,h.2.2⟩)]
    exact iff_of_true (unsigned_standard h.1.1 h.2.1) trivial
  | internal_strncmp n =>
    have h1 := h.1.take n
    have h2 := h.2.take n
    rw [Comparison.result, internal_strncmp_eq, Comparison.part, Comparison.part,
      firstDifference_iff (Or.inr ⟨h1.2,h2.2⟩)]
    exact iff_of_true (unsigned_standard h1.1 h2.1) trivial
  | memcmp n =>
    obtain ⟨⟨h1,hn1⟩,h2,hn2⟩ := h
    rw [Comparison.result, memcmp_eq hn1 hn2, Comparison.part, Comparison.part,
      firstDifference_iff (Or.inl (take_length_eq hn1 hn2))]
    exact iff_of_true (fun i _ _ => compare_sub _ _) trivial
  | strcmp =>
    rw [Comparison.result, strcmp_eq, Comparison.part, Comparison.part, firstDifference_iff (Or.inr ⟨h.1.2,h.2.2⟩)]
    exact atDifference_congr h.1.1 h.2.1 fun _ _ => compare_sub_signed_iff
  | strncmp n =>
    have h1 := h.1.take n
    have h2 := h.2.take n
    rw [Comparison.result, strncmp_eq, Comparison.part, Comparison.part, firstDifference_iff (Or.inr ⟨h1.2,h2.2⟩)]
    exact atDifference_congr h1.1 h2.1 fun _ _ => compare_sub_signed_iff

theorem comparison_standard_iff_abc : Comparison.strcmp.IsStandard ['a','b'] ['a','c'] ↔
    Comparison.strcmp.SignsAgree ['a','b'] ['a','c'] :=
  comparison_standard_iff .strcmp ⟨⟨by simp [IsBytes],by decide⟩,⟨by simp [IsBytes],by decide⟩⟩

/-- A byte that is not ASCII comes before a letter. -/
theorem comparison_not_standard : ¬(Comparison.internal_memcmp 1).IsStandard ['\x80'] ['a'] ∧
    ¬Comparison.strcmp.IsStandard ['\x80'] ['a'] ∧ ¬(Comparison.strncmp 1).IsStandard ['\x80'] ['a'] := by
  decide

end Standard
end CompilerRt.Tsan.StringInterceptors
