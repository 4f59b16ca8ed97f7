import Mathlib

/-! # Strings of the sanitizers' own C library

The functions of `lib/sanitizer_common/sanitizer_libc.cc` that flags and requests are read with. A string is the list
of its characters in front of the final zero, and a pointer into it is the rest from there on.
-/
namespace CompilerRt.Sanitizer

abbrev CString := List Char

def IsSpace (c : Char) : Bool := c = ' ' || c = '\n' || c = '\t' || c = '\x0c' || c = '\r' || c = '\x0b'

def IsDigit (c : Char) : Bool := '0' ≤ c && c ≤ '9'

/-- The value of a plain `char`, which has a sign. -/
def schar (c : Char) : ℤ := (BitVec.ofNat 8 c.toNat).toInt

/-- Its conversion to `unsigned`. -/
def unsignedOf (c : Char) : ℕ := (BitVec.ofInt 32 (schar c)).toNat

/-- Memory that both pointers have at least `n` characters of. -/
def internal_memcmp : CString → CString → ℕ → ℤ
  | c1 :: s1, c2 :: s2, n + 1 => if c1 ≠ c2 then if schar c1 < schar c2 then -1 else 1 else internal_memcmp s1 s2 n
  | _, _, _ => 0

/-- A string that ends compares with its final zero. -/
def internal_strcmp : CString → CString → ℤ
  | [], [] => 0
  | [], c2 :: _ => if unsignedOf '\x00' < unsignedOf c2 then -1 else 1
  | c1 :: _, [] => if unsignedOf c1 < unsignedOf '\x00' then -1 else 1
  | c1 :: s1, c2 :: s2 => if c1 ≠ c2 then if unsignedOf c1 < unsignedOf c2 then -1 else 1 else internal_strcmp s1 s2

def internal_strncmp : CString → CString → ℕ → ℤ
  | _, _, 0 => 0
  | [], [], _ + 1 => 0
  | [], c2 :: _, _ + 1 => if unsignedOf '\x00' < unsignedOf c2 then -1 else 1
  | c1 :: _, [], _ + 1 => if unsignedOf c1 < unsignedOf '\x00' then -1 else 1
  | c1 :: s1, c2 :: s2, n + 1 =>
    if c1 ≠ c2 then if unsignedOf c1 < unsignedOf c2 then -1 else 1 else internal_strncmp s1 s2 n

def internal_strchr : CString → Char → Option CString
  | [], _ => none
  | a :: s, c => if a = c then some (a :: s) else internal_strchr s c

abbrev internal_strlen (s : CString) : ℕ := s.length

def internal_strstr (haystack needle : CString) : Option CString :=
  let len1 := internal_strlen haystack
  let len2 := internal_strlen needle
  if len1 < len2 then none
  else ((List.range (len1 - len2 + 1)).find? fun pos => internal_memcmp (haystack.drop pos) needle len2 = 0).map
    fun pos => haystack.drop pos

def UINT64_MAX : ℕ := 2 ^ 64 - 1

def INT64_MAX : ℕ := 2 ^ 63 - 1

def INT64_MIN : ℤ := -2 ^ 63

/-- The sign, if one is written, and what follows it. -/
def strtollSign : CString → ℤ × CString
  | '+' :: nptr => (1,nptr)
  | '-' :: nptr => (-1,nptr)
  | nptr => (1,nptr)

/-- The loop over the digits. -/
def strtollDigits (res : ℕ) (have_digits : Bool) : CString → ℕ × Bool × CString
  | [] => (res,have_digits,[])
  | c :: nptr =>
    if IsDigit c then
      let res := if res ≤ UINT64_MAX / 10 then res * 10 % 2^64 else UINT64_MAX
      let digit := c.toNat - '0'.toNat
      strtollDigits (if res ≤ UINT64_MAX - digit then (res + digit) % 2^64 else UINT64_MAX) true nptr
    else (res,have_digits,c :: nptr)

/-- The number, and the pointer that is stored in `*endptr`. -/
def internal_simple_strtoll (nptr : CString) : ℤ × CString :=
  let old_nptr := nptr.dropWhile IsSpace
  let (sgn,nptr) := strtollSign old_nptr
  let (res,have_digits,nptr) := strtollDigits 0 false nptr
  (if sgn > 0 then min INT64_MAX res else if res > INT64_MAX then INT64_MIN else res * -1,
    if have_digits then nptr else old_nptr)

def internal_atoll (nptr : CString) : ℤ := (internal_simple_strtoll nptr).1

/-! ## Search -/

variable {s r t : CString} {c : Char} {n : ℕ}

theorem internal_memcmp_eq_zero (h : t.length ≤ s.length) : internal_memcmp s t t.length = 0 ↔ t <+: s := by
  induction t generalizing s with
  | nil => simp [internal_memcmp]
  | cons b t ih =>
    cases s with
    | nil => simp at h
    | cons a s =>
      simp only [List.length_cons, Nat.add_le_add_iff_right] at h
      rw [List.length_cons, internal_memcmp, List.cons_prefix_cons]
      split_ifs with hne hlt
      · simp [Ne.symm hne]
      · simp [Ne.symm hne]
      · rw [ih h]
        simp [not_ne_iff.mp hne]

theorem internal_strncmp_eq_zero : internal_strncmp s t t.length = 0 ↔ t <+: s := by
  induction t generalizing s with
  | nil => cases s <;> simp [internal_strncmp]
  | cons b t ih =>
    cases s with
    | nil =>
      rw [List.length_cons, internal_strncmp]
      split_ifs <;> simp
    | cons a s =>
      rw [List.length_cons, internal_strncmp, List.cons_prefix_cons]
      split_ifs with hne hlt
      · simp [Ne.symm hne]
      · simp [Ne.symm hne]
      · rw [ih]
        simp [not_ne_iff.mp hne]

theorem le_of_occurs {i : ℕ} (hi : i ≤ s.length) (h : t <+: s.drop i) : i + t.length ≤ s.length := by
  have hle := h.length_le
  rw [List.length_drop] at hle
  omega

theorem memcmp_drop {i : ℕ} (h : i + t.length ≤ s.length) :
    (internal_memcmp (s.drop i) t t.length = 0) ↔ t <+: s.drop i := by
  apply internal_memcmp_eq_zero
  rw [List.length_drop]
  omega

/-- The first occurrence. -/
theorem internal_strstr_eq_some : internal_strstr s t = some r ↔
    ∃ i ≤ s.length, t <+: s.drop i ∧ r = s.drop i ∧ ∀ j < i, ¬t <+: s.drop j := by
  rw [internal_strstr]
  dsimp only [internal_strlen]
  by_cases hlen : s.length < t.length
  · rw [if_pos hlen]
    constructor
    · intro h
      cases h
    · rintro ⟨i,hi,hocc,-⟩
      have hle := le_of_occurs hi hocc
      omega
  · rw [if_neg hlen]
    simp only [Option.map_eq_some_iff, List.find?_range_eq_some, List.mem_range, decide_eq_true_eq, Bool.not_eq_true',
      decide_eq_false_iff_not]
    constructor
    · intro ⟨i,⟨hzero,hlt,hfirst⟩,hr⟩
      refine ⟨i,by omega,(memcmp_drop (by omega)).mp hzero,hr.symm,fun j hj hocc => ?_⟩
      exact hfirst j hj ((memcmp_drop (by omega)).mpr hocc)
    · intro ⟨i,hi,hocc,hr,hfirst⟩
      have hle := le_of_occurs hi hocc
      refine ⟨i,⟨(memcmp_drop hle).mpr hocc,by omega,fun j hj hzero => ?_⟩,hr.symm⟩
      exact hfirst j hj ((memcmp_drop (by omega)).mp hzero)

theorem internal_strstr_eq_none : internal_strstr s t = none ↔ ∀ i ≤ s.length, ¬t <+: s.drop i := by
  rw [internal_strstr]
  dsimp only [internal_strlen]
  by_cases hlen : s.length < t.length
  · rw [if_pos hlen]
    simp only [true_iff]
    intro i hi hocc
    have hle := le_of_occurs hi hocc
    omega
  · rw [if_neg hlen]
    simp only [Option.map_eq_none_iff, List.find?_range_eq_none, Bool.not_eq_true', decide_eq_false_iff_not]
    constructor
    · intro h i hi hocc
      have hle := le_of_occurs hi hocc
      exact h i (by omega) ((memcmp_drop hle).mpr hocc)
    · intro h i hi hzero
      exact h i (by omega) ((memcmp_drop (by omega)).mp hzero)

/-- A character that a first part does not have is looked for in the rest. -/
theorem internal_strchr_append (h : c ∉ s) : internal_strchr (s ++ r) c = internal_strchr r c := by
  induction s with
  | nil => rfl
  | cons a s ih =>
    rw [List.mem_cons, not_or] at h
    rw [List.cons_append, internal_strchr, if_neg (Ne.symm h.1), ih h.2]

/-! ## Numbers -/

def decimal (digits : CString) : ℕ := digits.foldl (fun v c => 10 * v + (c.toNat - '0'.toNat)) 0

/-- The string begins with a number: blanks, a sign or none, and all digits that follow. -/
structure Number (blanks sign digits rest : CString) : Prop where
  all_blank : ∀ c ∈ blanks, IsSpace c
  sign_cases : sign = [] ∨ sign = ['+'] ∨ sign = ['-']
  all_digits : ∀ c ∈ digits, IsDigit c
  behind_blanks : ∀ c ∈ (sign ++ digits ++ rest).head?, ¬IsSpace c
  no_sign : sign = [] → ∀ c ∈ (digits ++ rest).head?, c ≠ '+' ∧ c ≠ '-'
  behind_digits : ∀ c ∈ rest.head?, ¬IsDigit c

theorem digit_le (h : IsDigit c = true) : c.toNat - '0'.toNat ≤ 9 := by
  simp only [IsDigit, Bool.and_eq_true, decide_eq_true_eq] at h
  have hle : c.toNat ≤ '9'.toNat := h.2
  exact Nat.sub_le_of_le_add hle

/-- One more digit of a number that stays at the largest one when it is too large. -/
theorem saturate_digit (v : ℕ) {d : ℕ} (h : d ≤ 9) :
    (let res := if min UINT64_MAX v ≤ UINT64_MAX / 10 then min UINT64_MAX v * 10 % 2^64 else UINT64_MAX
      if res ≤ UINT64_MAX - d then (res + d) % 2^64 else UINT64_MAX) = min UINT64_MAX (10 * v + d) := by
  unfold UINT64_MAX
  dsimp only
  split_ifs <;> omega

/-- The loop reads all digits, and the accumulator never wraps. -/
theorem strtollDigits_eq (v : ℕ) (have_digits : Bool) {digits rest : CString} (hd : ∀ c ∈ digits, IsDigit c)
    (hr : ∀ c ∈ rest.head?, ¬IsDigit c) : strtollDigits (min UINT64_MAX v) have_digits (digits ++ rest) =
      (min UINT64_MAX (digits.foldl (fun v c => 10 * v + (c.toNat - '0'.toNat)) v),have_digits || !digits.isEmpty,rest) := by
  induction digits generalizing v have_digits with
  | nil =>
    rw [List.foldl_nil, List.isEmpty_nil, Bool.not_true, Bool.or_false, List.nil_append]
    cases rest with
    | nil => rfl
    | cons c rest => rw [strtollDigits, if_neg (hr c rfl)]
  | cons c digits ih =>
    have hc := hd c List.mem_cons_self
    rw [List.cons_append, strtollDigits, if_pos hc, List.foldl_cons]
    dsimp only
    rw [saturate_digit v (digit_le hc), ih _ true fun c hc => hd c (List.mem_cons_of_mem _ hc)]
    simp

theorem strtollSign_eq {blanks sign digits rest : CString} (h : Number blanks sign digits rest) :
    strtollSign (sign ++ digits ++ rest) = (if sign = ['-'] then -1 else 1,digits ++ rest) := by
  rcases h.sign_cases with hs | hs | hs
  · subst hs
    have hno := h.no_sign rfl
    rw [List.nil_append, if_neg (by simp)]
    unfold strtollSign
    split
    next heq =>
      rw [heq] at hno
      exact absurd rfl (hno '+' rfl).1
    next heq =>
      rw [heq] at hno
      exact absurd rfl (hno '-' rfl).2
    next => rfl
  · subst hs
    rfl
  · subst hs
    rfl

/-- The number is read to its last digit. -/
theorem strtoll_number {blanks sign digits rest : CString} (h : Number blanks sign digits rest) :
    internal_simple_strtoll (blanks ++ sign ++ digits ++ rest) =
      (max INT64_MIN (min INT64_MAX ((if sign = ['-'] then -1 else 1) * decimal digits)),
        if digits = [] then sign ++ rest else rest) := by
  have hdrop : (blanks ++ (sign ++ digits ++ rest)).dropWhile IsSpace = sign ++ digits ++ rest := by
    rw [List.dropWhile_append_of_pos h.all_blank]
    cases ht : sign ++ digits ++ rest with
    | nil => rfl
    | cons c t =>
      have hc := h.behind_blanks
      rw [ht] at hc
      exact List.dropWhile_cons_of_neg (hc c rfl)
  have hloop := strtollDigits_eq 0 false h.all_digits h.behind_digits
  rw [Nat.min_zero, Bool.false_or] at hloop
  rw [List.append_assoc, List.append_assoc, ← List.append_assoc sign, internal_simple_strtoll, hdrop]
  dsimp only
  rw [strtollSign_eq h]
  dsimp only
  rw [hloop]
  refine Prod.ext ?_ ?_
  · dsimp only
    rw [← decimal]
    unfold UINT64_MAX INT64_MAX INT64_MIN
    split_ifs <;> omega
  · cases digits <;> simp

/-- Every string begins with a number, which may have no digits. -/
theorem exists_number (s : CString) :
    ∃ blanks sign digits rest, s = blanks ++ sign ++ digits ++ rest ∧ Number blanks sign digits rest := by
  obtain ⟨sign,t,hst,hsign,hno⟩ : ∃ sign t, s.dropWhile IsSpace = sign ++ t ∧
      (sign = [] ∨ sign = ['+'] ∨ sign = ['-']) ∧ (sign = [] → ∀ c ∈ t.head?, c ≠ '+' ∧ c ≠ '-') := by
    cases hs : s.dropWhile IsSpace with
    | nil => exact ⟨[],[],rfl,Or.inl rfl,nofun⟩
    | cons c t =>
      by_cases hplus : c = '+'
      · exact ⟨['+'],t,by rw [hplus]; rfl,Or.inr (Or.inl rfl),nofun⟩
      · by_cases hminus : c = '-'
        · exact ⟨['-'],t,by rw [hminus]; rfl,Or.inr (Or.inr rfl),nofun⟩
        · refine ⟨[],c :: t,rfl,Or.inl rfl,fun _ a ha => ?_⟩
          cases ha
          exact ⟨hplus,hminus⟩
  have hhead : ∀ (p : Char → Bool) (l : CString), ∀ c ∈ (l.dropWhile p).head?, ¬p c = true := by
    intro p l c hc
    have hne := List.head?_dropWhile_not p l
    rw [hc] at hne
    simpa using hne
  refine ⟨s.takeWhile IsSpace,sign,t.takeWhile IsDigit,t.dropWhile IsDigit,?_,?_,hsign,?_,?_,?_,hhead _ _⟩
  · rw [List.append_assoc, List.append_assoc, List.takeWhile_append_dropWhile, ← hst, List.takeWhile_append_dropWhile]
  · exact fun c hc => List.mem_takeWhile_imp hc
  · exact fun c hc => List.mem_takeWhile_imp hc
  · rw [List.append_assoc, List.takeWhile_append_dropWhile, ← hst]
    exact hhead _ _
  · rw [List.takeWhile_append_dropWhile]
    exact hno

/-- Of every string the number at its beginning is read: its value, at the limits of the range when it is outside, and
where it ends, or where it should begin when it has no digits. -/
theorem strtoll_every (s : CString) : ∃ blanks sign digits rest, s = blanks ++ sign ++ digits ++ rest ∧
    Number blanks sign digits rest ∧ internal_simple_strtoll s =
      (max INT64_MIN (min INT64_MAX ((if sign = ['-'] then -1 else 1) * decimal digits)),
        if digits = [] then sign ++ rest else rest) := by
  obtain ⟨blanks,sign,digits,rest,rfl,h⟩ := exists_number s
  exact ⟨blanks,sign,digits,rest,rfl,h,strtoll_number h⟩

end CompilerRt.Sanitizer
