import CompilerRt.Sanitizer.Libc

/-! # Formatted text

The pieces of `lib/sanitizer_common/sanitizer_printf.cc` that put text into a buffer. A buffer of length `n` takes
`n - 1` characters and drops the others.
-/
namespace CompilerRt.Sanitizer

def AppendChar (n : ℕ) (buff : CString) (c : Char) : CString := if buff.length < n - 1 then buff ++ [c] else buff

def AppendString (n : ℕ) (buff s : CString) : CString := s.foldl (AppendChar n) buff

def kMaxLen : ℕ := 30

/-- The digits of a number, the last one first. -/
def numBuffer (base : ℕ) : ℕ → ℕ → List ℕ
  | 0, _ => []
  | k + 1, num => num % base :: if num / base > 0 then numBuffer base k (num / base) else []

def digitChar (digit : ℕ) : Char := if digit < 10 then Char.ofNat ('0'.toNat + digit) else Char.ofNat ('a'.toNat + digit - 10)

def unsignedText (num base : ℕ) : CString := (numBuffer base kMaxLen num).reverse.map digitChar

def AppendUnsigned (n : ℕ) (buff : CString) (num base : ℕ) : CString := AppendString n buff (unsignedText num base)

variable {n num base : ℕ} {s t : CString}

theorem appendString_take : AppendString n (s.take (n - 1)) t = (s ++ t).take (n - 1) := by
  induction t generalizing s with
  | nil => rw [List.append_nil]; rfl
  | cons c t ih =>
    have hchar : AppendChar n (s.take (n - 1)) c = (s ++ [c]).take (n - 1) := by
      rw [AppendChar, List.length_take]
      split_ifs with h
      · rw [List.take_of_length_le (by omega), List.take_of_length_le (by simp; omega)]
      · rw [List.take_append_of_le_length (by omega)]
    have hih := ih (s := s ++ [c])
    rw [List.append_assoc, List.singleton_append, ← hchar] at hih
    exact hih

theorem numBuffer_lt (hb : 0 < base) : ∀ k num, ∀ d ∈ numBuffer base k num, d < base := by
  intro k
  induction k with
  | zero => simp [numBuffer]
  | succ k ih =>
    intro num d hd
    rw [numBuffer, List.mem_cons] at hd
    rcases hd with rfl | hd
    · exact Nat.mod_lt num hb
    · split_ifs at hd with hpos
      · exact ih _ d hd
      · cases hd

/-- The digits denote the number. -/
theorem numBuffer_value : ∀ k num, num < base ^ k →
    (numBuffer base k num).foldr (fun d v => d + base * v) 0 = num := by
  intro k
  induction k with
  | zero =>
    intro num h
    have hzero : num = 0 := by simpa using h
    simp [numBuffer, hzero]
  | succ k ih =>
    intro num h
    rw [numBuffer, List.foldr_cons]
    split_ifs with hpos
    · rw [ih _ (Nat.div_lt_of_lt_mul (by rwa [Nat.pow_succ, Nat.mul_comm] at h))]
      exact Nat.mod_add_div num base
    · rw [List.foldr_nil, Nat.mul_zero, Nat.add_zero]
      have hdiv := Nat.mod_add_div num base
      rw [Nat.eq_zero_of_not_pos hpos, Nat.mul_zero, Nat.add_zero] at hdiv
      exact hdiv

/-- The digit that a character stands for. -/
def charDigit (c : Char) : ℕ := if IsDigit c then c.toNat - '0'.toNat else c.toNat - 'a'.toNat + 10

/-- The number that the text denotes in the base. -/
def textValue (base : ℕ) (s : CString) : ℕ := s.foldl (fun v c => base * v + charDigit c) 0

theorem charDigit_digitChar {d : ℕ} (h : d < 16) : charDigit (digitChar d) = d := by
  have hall : ∀ d < 16, charDigit (digitChar d) = d := by decide
  exact hall d h

theorem digitChar_plain {d : ℕ} (h : d < 16) : digitChar d ≠ ' ' ∧ digitChar d ≠ '\n' := by
  have hall : ∀ d < 16, digitChar d ≠ ' ' ∧ digitChar d ≠ '\n' := by decide
  exact hall d h

theorem unsignedText_plain (hb : 0 < base) (hle : base ≤ 16) : ∀ c ∈ unsignedText num base, c ≠ ' ' ∧ c ≠ '\n' := by
  intro c hc
  simp only [unsignedText, List.mem_map, List.mem_reverse] at hc
  obtain ⟨d,hd,rfl⟩ := hc
  exact digitChar_plain ((numBuffer_lt hb _ _ d hd).trans_le hle)

theorem textValue_unsignedText (hb : 0 < base) (hle : base ≤ 16) (h : num < base ^ kMaxLen) :
    textValue base (unsignedText num base) = num := by
  have hfold : ∀ l : List ℕ, (∀ d ∈ l, d < 16) →
      textValue base (l.reverse.map digitChar) = l.foldr (fun d v => d + base * v) 0 := by
    intro l hl
    rw [textValue, List.map_reverse, List.foldl_reverse, List.foldr_map]
    induction l with
    | nil => rfl
    | cons d l ih =>
      rw [List.foldr_cons, List.foldr_cons, ih fun x hx => hl x (List.mem_cons_of_mem d hx),
        charDigit_digitChar (hl d List.mem_cons_self), Nat.add_comm]
  rw [unsignedText, hfold _ fun d hd => (numBuffer_lt hb _ _ d hd).trans_le hle]
  exact numBuffer_value _ _ h

end CompilerRt.Sanitizer
