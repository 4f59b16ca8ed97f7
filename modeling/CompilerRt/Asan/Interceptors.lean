import Mathlib

/-! # String interceptors

The checks that `lib/asan/asan_interceptors.cc` makes before it calls the functions of libc that copy bytes, with
`replace_str` and `replace_intrin` set. An address is a number, and no range wraps.
-/
namespace CompilerRt.AsanInterceptors

abbrev Memory := ℕ → BitVec 8

def RangesOverlap (offset1 length1 offset2 length2 : ℕ) : Bool :=
  !(decide (offset1 + length1 ≤ offset2) || decide (offset2 + length2 ≤ offset1))

inductive Report where
  | access (address : ℕ) (isWrite : Bool)
  | overlap (name : String) (offset1 length1 offset2 length2 : ℕ)

inductive Check where
  | ASAN_READ_RANGE (offset size : ℕ)
  | ASAN_WRITE_RANGE (offset size : ℕ)
  | CHECK_RANGES_OVERLAP (name : String) (offset1 length1 offset2 length2 : ℕ)

/-- The first and the last byte; `bad` are the bytes that may not be accessed. -/
def ACCESS_MEMORY_RANGE (bad : ℕ → Bool) (offset size : ℕ) (isWrite : Bool) : Option Report :=
  if size > 0 then
    if bad offset then some (.access offset isWrite)
    else if bad (offset + size - 1) then some (.access (offset + size - 1) isWrite)
    else none
  else none

def Check.run (bad : ℕ → Bool) : Check → Option Report
  | ASAN_READ_RANGE offset size => ACCESS_MEMORY_RANGE bad offset size false
  | ASAN_WRITE_RANGE offset size => ACCESS_MEMORY_RANGE bad offset size true
  | CHECK_RANGES_OVERLAP name offset1 length1 offset2 length2 =>
    if RangesOverlap offset1 length1 offset2 length2 then some (.overlap name offset1 length1 offset2 length2) else none

/-! ## Lengths -/

def strnlen (mem : Memory) (s : ℕ) : ℕ → ℕ
  | 0 => 0
  | maxlen + 1 => if mem s = 0 then 0 else strnlen mem (s + 1) maxlen + 1

/-- The string ends in the address space. -/
def strlen (mem : Memory) (s : ℕ) : ℕ := strnlen mem s (2^64 - s)

section Length
variable {mem : Memory} {s n : ℕ}

theorem strnlen_le (mem : Memory) (s n : ℕ) : strnlen mem s n ≤ n := by
  induction n generalizing s with
  | zero => exact le_rfl
  | succ n ih =>
    rw [strnlen]
    split_ifs
    · exact Nat.zero_le _
    · exact Nat.succ_le_succ (ih (s + 1))

theorem ne_zero_of_lt_strnlen {i : ℕ} (h : i < strnlen mem s n) : mem (s + i) ≠ 0 := by
  induction n generalizing s i with
  | zero => cases h
  | succ n ih =>
    rw [strnlen] at h
    split_ifs at h with h0
    · cases h
    · cases i with
      | zero => exact h0
      | succ i =>
        have hi := ih (Nat.lt_of_succ_lt_succ h)
        rw [Nat.add_right_comm] at hi
        exact hi

theorem eq_zero_of_strnlen_lt (h : strnlen mem s n < n) : mem (s + strnlen mem s n) = 0 := by
  induction n generalizing s with
  | zero => cases h
  | succ n ih =>
    rw [strnlen] at h ⊢
    split_ifs at h ⊢ with h0
    · exact h0
    · have hi := ih (Nat.lt_of_succ_lt_succ h)
      rw [Nat.add_right_comm] at hi
      exact hi

/-- What is read of a string, at most `n` bytes, is the string and its NUL. -/
theorem no_zero_before_iff {i : ℕ} : i < n ∧ (∀ j < i, mem (s + j) ≠ 0) ↔ i < min n (strnlen mem s n + 1) := by
  rw [Nat.lt_min, Nat.lt_succ_iff]
  refine and_congr_right fun hi => ⟨fun h => ?_,fun h j hj => ne_zero_of_lt_strnlen (hj.trans_le h)⟩
  by_contra hlt
  have hlt := Nat.not_le.mp hlt
  exact h _ hlt (eq_zero_of_strnlen_lt (hlt.trans hi))

end Length

/-! ## The interceptors -/

/-- A call of a function that copies bytes to `to_`. -/
inductive Call where
  | memcpy (size : ℕ)
  | strcat
  | strncat (size : ℕ)
  | strcpy
  | strncpy (size : ℕ)

section Checks
variable (mem : Memory) (to_ from_ : ℕ)

def memcpy (size : ℕ) : List Check :=
  (if to_ ≠ from_ then [.CHECK_RANGES_OVERLAP "memcpy" to_ size from_ size] else []) ++
    [.ASAN_WRITE_RANGE from_ size,.ASAN_READ_RANGE to_ size]

def strcat : List Check :=
  let from_length := strlen mem from_
  let to_length := strlen mem to_
  [.ASAN_READ_RANGE from_ (from_length + 1),.ASAN_READ_RANGE to_ to_length,
      .ASAN_WRITE_RANGE (to_ + to_length) (from_length + 1)] ++
    if from_length > 0 then
      [.CHECK_RANGES_OVERLAP "strcat" to_ (from_length + to_length + 1) from_ (from_length + 1)]
    else []

def strncat (size : ℕ) : List Check :=
  let from_length := strnlen mem from_ size
  let copy_length := min size (from_length + 1)
  let to_length := strlen mem to_
  [.ASAN_READ_RANGE from_ copy_length,.ASAN_READ_RANGE to_ to_length,
      .ASAN_WRITE_RANGE (to_ + to_length) (from_length + 1)] ++
    if from_length > 0 then [.CHECK_RANGES_OVERLAP "strncat" to_ (to_length + copy_length + 1) from_ copy_length]
    else []

def strcpy : List Check :=
  let from_size := strlen mem from_ + 1
  [.CHECK_RANGES_OVERLAP "strcpy" to_ from_size from_ from_size,.ASAN_READ_RANGE from_ from_size,
    .ASAN_WRITE_RANGE to_ from_size]

def strncpy (size : ℕ) : List Check :=
  let from_size := min size (strnlen mem from_ size + 1)
  [.CHECK_RANGES_OVERLAP "strncpy" to_ from_size from_ from_size,.ASAN_READ_RANGE from_ from_size,
    .ASAN_WRITE_RANGE to_ size]

def Call.checks : Call → List Check
  | memcpy size => AsanInterceptors.memcpy to_ from_ size
  | strcat => AsanInterceptors.strcat mem to_ from_
  | strncat size => AsanInterceptors.strncat mem to_ from_ size
  | strcpy => AsanInterceptors.strcpy mem to_ from_
  | strncpy size => AsanInterceptors.strncpy mem to_ from_ size

/-- The first check that fails is reported, and the call is not made. -/
def Call.intercept (bad : ℕ → Bool) (call : Call) : Option Report := (call.checks mem to_ from_).findSome? (Check.run bad)

end Checks

/-! ## What the functions do -/

section Libc
variable (mem : Memory) (to_ from_ : ℕ)

/-- The bytes that libc reads of the source. -/
def Call.sourceBytes : Call → Set ℕ
  | memcpy size => {a | ∃ i < size, a = from_ + i}
  | strcat | strcpy => {a | ∃ i < 2^64 - from_, (∀ j < i, mem (from_ + j) ≠ 0) ∧ a = from_ + i}
  | strncat size | strncpy size => {a | ∃ i < size, (∀ j < i, mem (from_ + j) ≠ 0) ∧ a = from_ + i}

/-- The destination, which a concatenation has when it appends something. -/
def Call.destination : Call → Set ℕ
  | memcpy size => if to_ ≠ from_ then Set.Ico to_ (to_ + size) else ∅
  | strncpy size => Set.Ico to_ (to_ + size)
  | strcpy => Set.Ico to_ (to_ + (strlen mem from_ + 1))
  | strcat => if 0 < strlen mem from_ then Set.Ico to_ (to_ + (strlen mem to_ + strlen mem from_ + 1)) else ∅
  | strncat size =>
    if 0 < strnlen mem from_ size then Set.Ico to_ (to_ + (strlen mem to_ + strnlen mem from_ size + 1)) else ∅

/-- The strings that the call takes end in the address space. -/
def Call.NoWrap : Call → Prop
  | memcpy _ | strncpy _ => True
  | strcpy => from_ + strlen mem from_ < 2^64
  | strcat => from_ + strlen mem from_ < 2^64 ∧ to_ + strlen mem to_ < 2^64
  | strncat _ => to_ + strlen mem to_ < 2^64

/-- Where all accesses are good, overlapping parameters are reported if the destination has a byte of the source, and
only then. -/
def Call.Exact (call : Call) : Prop :=
  ∀ bad, (∀ check ∈ call.checks mem to_ from_, ∀ address isWrite, check.run bad ≠ some (.access address isWrite)) →
    ((∃ name offset1 length1 offset2 length2,
        call.intercept mem to_ from_ bad = some (.overlap name offset1 length1 offset2 length2)) ↔
      (call.sourceBytes mem from_ ∩ call.destination mem to_ from_).Nonempty)

/-- The source of `strncpy` does not begin in the padding, nor that of `strncat` right behind the result unless it is
cut off. -/
def Call.Apart : Call → Prop
  | strncpy size => ¬(to_ + (strnlen mem from_ size + 1) ≤ from_ ∧ from_ < to_ + size)
  | strncat size =>
    ¬(0 < strnlen mem from_ size ∧ strnlen mem from_ size < size ∧
      from_ = to_ + (strlen mem to_ + strnlen mem from_ size + 1))
  | memcpy _ | strcat | strcpy => True

end Libc

/-! ## Ranges -/

theorem RangesOverlap_iff (offset1 length1 offset2 length2 : ℕ) : RangesOverlap offset1 length1 offset2 length2 = true ↔
    offset2 < offset1 + length1 ∧ offset1 < offset2 + length2 := by
  simp [RangesOverlap]

/-- Two ranges that are empty together. -/
theorem rangesOverlap_iff_nonempty {offset1 length1 offset2 length2 : ℕ} (h : length1 = 0 → length2 = 0)
    (h' : length2 = 0 → length1 = 0) : RangesOverlap offset1 length1 offset2 length2 = true ↔
      ({a | ∃ i < length2, a = offset2 + i} ∩ Set.Ico offset1 (offset1 + length1)).Nonempty := by
  rw [RangesOverlap_iff]
  constructor
  · intro ⟨h₁,h₂⟩
    refine ⟨max offset1 offset2,⟨max offset1 offset2 - offset2,by omega,by omega⟩,?_⟩
    rw [Set.mem_Ico]
    omega
  · rintro ⟨a,⟨i,hi,rfl⟩,ha⟩
    rw [Set.mem_Ico] at ha
    omega

section Reports
variable {mem : Memory} {to_ from_ : ℕ} {call : Call} {bad : ℕ → Bool}

/-- One of the checks is about ranges that overlap. -/
def Overlaps (checks : List Check) : Prop := ∃ name offset1 length1 offset2 length2,
  .CHECK_RANGES_OVERLAP name offset1 length1 offset2 length2 ∈ checks ∧ RangesOverlap offset1 length1 offset2 length2 = true

theorem ACCESS_MEMORY_RANGE_cases (bad : ℕ → Bool) (offset size : ℕ) (isWrite : Bool) :
    ACCESS_MEMORY_RANGE bad offset size isWrite = none ∨
      ∃ address, ACCESS_MEMORY_RANGE bad offset size isWrite = some (.access address isWrite) := by
  unfold ACCESS_MEMORY_RANGE
  split_ifs
  · exact Or.inr ⟨_,rfl⟩
  · exact Or.inr ⟨_,rfl⟩
  · exact Or.inl rfl
  · exact Or.inl rfl

theorem run_good (check : Check) (address : ℕ) (isWrite : Bool) :
    check.run (fun _ => false) ≠ some (.access address isWrite) := by
  cases check with
  | ASAN_READ_RANGE offset size => simp [Check.run, ACCESS_MEMORY_RANGE]
  | ASAN_WRITE_RANGE offset size => simp [Check.run, ACCESS_MEMORY_RANGE]
  | CHECK_RANGES_OVERLAP name offset1 length1 offset2 length2 =>
    rw [Check.run]
    split_ifs <;> simp

/-- Where no access is bad the report is that of the overlap, if there is one. -/
theorem report_iff {checks : List Check}
    (h : ∀ check ∈ checks, ∀ address isWrite, check.run bad ≠ some (.access address isWrite)) :
    (∃ name offset1 length1 offset2 length2,
        checks.findSome? (Check.run bad) = some (.overlap name offset1 length1 offset2 length2)) ↔ Overlaps checks := by
  induction checks with
  | nil => simp [Overlaps]
  | cons check checks ih =>
    have hih := ih fun c hc => h c (List.mem_cons_of_mem check hc)
    have hgood := h check List.mem_cons_self
    cases check with
    | CHECK_RANGES_OVERLAP name offset1 length1 offset2 length2 =>
      by_cases hov : RangesOverlap offset1 length1 offset2 length2 = true
      · rw [List.findSome?_cons, Check.run, if_pos hov]
        exact iff_of_true ⟨_,_,_,_,_,rfl⟩ ⟨_,_,_,_,_,List.mem_cons_self,hov⟩
      · rw [List.findSome?_cons, Check.run, if_neg hov]
        refine hih.trans ⟨fun ⟨n,o₁,l₁,o₂,l₂,hm,hr⟩ => ⟨n,o₁,l₁,o₂,l₂,List.mem_cons_of_mem _ hm,hr⟩,?_⟩
        rintro ⟨n,o₁,l₁,o₂,l₂,hm,hr⟩
        rcases List.mem_cons.mp hm with heq | hm
        · cases heq
          exact absurd hr hov
        · exact ⟨n,o₁,l₁,o₂,l₂,hm,hr⟩
    | ASAN_READ_RANGE offset size | ASAN_WRITE_RANGE offset size =>
      rcases ACCESS_MEMORY_RANGE_cases bad offset size _ with hnone | ⟨address,hsome⟩
      · rw [List.findSome?_cons, Check.run, hnone]
        simpa [Overlaps] using hih
      · exact absurd hsome (hgood address _)

/-- Whether the reports are right does not depend on what is poisoned. -/
theorem exact_iff_overlaps : call.Exact mem to_ from_ ↔
    (Overlaps (call.checks mem to_ from_) ↔ (call.sourceBytes mem from_ ∩ call.destination mem to_ from_).Nonempty) := by
  constructor
  · intro h
    have hgood := h (fun _ => false) fun check _ => run_good check
    exact (report_iff fun check _ => run_good check).symm.trans hgood
  · intro h bad hbad
    exact (report_iff hbad).trans h

end Reports

/-! ## Exactness -/

section Exact
variable {mem : Memory} {to_ from_ n : ℕ}

/-- The source of a function that stops at a NUL. -/
theorem sourceBytes_eq : {a | ∃ i < n, (∀ j < i, mem (from_ + j) ≠ 0) ∧ a = from_ + i} =
    {a | ∃ i < min n (strnlen mem from_ n + 1), a = from_ + i} := by
  ext a
  refine exists_congr fun i => ?_
  rw [← no_zero_before_iff, and_assoc]

theorem sourceBytes_strlen (h : from_ + strlen mem from_ < 2^64) :
    {a | ∃ i < 2^64 - from_, (∀ j < i, mem (from_ + j) ≠ 0) ∧ a = from_ + i} =
      {a | ∃ i < strlen mem from_ + 1, a = from_ + i} := by
  rw [sourceBytes_eq, ← strlen, Nat.min_eq_right (by omega)]

theorem exact_memcpy (size : ℕ) : (Call.memcpy size).Exact mem to_ from_ := by
  rw [exact_iff_overlaps]
  by_cases hne : to_ ≠ from_
  · have hov : Overlaps ((Call.memcpy size).checks mem to_ from_) ↔ RangesOverlap to_ size from_ size = true := by
      simp [Overlaps, Call.checks, memcpy, hne]
    rw [hov, rangesOverlap_iff_nonempty id id, Call.destination, if_pos hne, Call.sourceBytes]
  · simp [Overlaps, Call.checks, memcpy, Call.destination, hne]

theorem exact_strcpy (h : Call.strcpy.NoWrap mem to_ from_) : Call.strcpy.Exact mem to_ from_ := by
  have hov : Overlaps (Call.strcpy.checks mem to_ from_) ↔
      RangesOverlap to_ (strlen mem from_ + 1) from_ (strlen mem from_ + 1) = true := by
    simp [Overlaps, Call.checks, strcpy]
  rw [exact_iff_overlaps, hov, rangesOverlap_iff_nonempty id id, Call.destination, Call.sourceBytes, sourceBytes_strlen h]

theorem exact_strcat (h : Call.strcat.NoWrap mem to_ from_) : Call.strcat.Exact mem to_ from_ := by
  rw [exact_iff_overlaps]
  by_cases hpos : 0 < strlen mem from_
  · have hov : Overlaps (Call.strcat.checks mem to_ from_) ↔
        RangesOverlap to_ (strlen mem from_ + strlen mem to_ + 1) from_ (strlen mem from_ + 1) = true := by
      simp [Overlaps, Call.checks, strcat, hpos]
    rw [hov, rangesOverlap_iff_nonempty (by omega) (by omega), Call.destination, if_pos hpos, Call.sourceBytes,
      sourceBytes_strlen h.1, Nat.add_comm (strlen mem from_) (strlen mem to_)]
  · simp [Overlaps, Call.checks, strcat, Call.destination, hpos]

/-- The padding is not looked at. -/
theorem exact_strncpy_iff (size : ℕ) :
    (Call.strncpy size).Exact mem to_ from_ ↔ (Call.strncpy size).Apart mem to_ from_ := by
  have hov : Overlaps ((Call.strncpy size).checks mem to_ from_) ↔
      RangesOverlap to_ (min size (strnlen mem from_ size + 1)) from_ (min size (strnlen mem from_ size + 1)) = true := by
    simp [Overlaps, Call.checks, strncpy]
  have hle := strnlen_le mem from_ size
  have hmem : ((Call.strncpy size).sourceBytes mem from_ ∩ (Call.strncpy size).destination mem to_ from_).Nonempty ↔
      RangesOverlap to_ size from_ (min size (strnlen mem from_ size + 1)) = true := by
    rw [rangesOverlap_iff_nonempty (by omega) (by omega), Call.destination, Call.sourceBytes, sourceBytes_eq]
  rw [exact_iff_overlaps, hov, hmem, RangesOverlap_iff, RangesOverlap_iff, Call.Apart]
  omega

/-- The NUL of the source is counted with that of the result. -/
theorem exact_strncat_iff (size : ℕ) :
    (Call.strncat size).Exact mem to_ from_ ↔ (Call.strncat size).Apart mem to_ from_ := by
  have hle := strnlen_le mem from_ size
  rw [exact_iff_overlaps, Call.Apart]
  by_cases hpos : 0 < strnlen mem from_ size
  · have hov : Overlaps ((Call.strncat size).checks mem to_ from_) ↔
        RangesOverlap to_ (strlen mem to_ + min size (strnlen mem from_ size + 1) + 1) from_
          (min size (strnlen mem from_ size + 1)) = true := by
      simp [Overlaps, Call.checks, strncat, hpos]
    have hmem : ((Call.strncat size).sourceBytes mem from_ ∩ (Call.strncat size).destination mem to_ from_).Nonempty ↔
        RangesOverlap to_ (strlen mem to_ + strnlen mem from_ size + 1) from_
          (min size (strnlen mem from_ size + 1)) = true := by
      rw [rangesOverlap_iff_nonempty (by omega) (by omega), Call.destination, if_pos hpos, Call.sourceBytes,
        sourceBytes_eq]
    rw [hov, hmem, RangesOverlap_iff, RangesOverlap_iff]
    omega
  · simp [Overlaps, Call.checks, strncat, Call.destination, hpos]

end Exact
end CompilerRt.AsanInterceptors
