import CompilerRt.Sanitizer.Printf
import Mathlib

/-! # VSNPrintf in memory

`lib/sanitizer_common/sanitizer_printf.cc` as it writes to memory: the pieces of text go through a pointer that
stops at the last character of the buffer, while their characters are all counted. A failed `RAW_CHECK` has no result.
-/
namespace CompilerRt.Sanitizer.Snprintf

/-- The memory and `*buff`. -/
structure Cursor where
  memory : ℕ → Char
  buff : ℕ

inductive WordSize
  | w32
  | w64
  deriving DecidableEq

def WordSize.bits : WordSize → ℕ
  | .w32 => 32
  | .w64 => 64

/-- What `va_arg` takes. -/
inductive Arg (w : WordSize)
  | int (v : BitVec 32)
  | word (v : BitVec w.bits)
  | string (s : Option CString)

abbrev Appended := BitVec 32 × Cursor

section Append
variable (buff_end : ℕ)

def AppendChar (c : Char) (b : Cursor) : Appended :=
  if b.buff < buff_end then (1,⟨Function.update b.memory b.buff c,b.buff + 1⟩) else (1,b)

/-- The loops that append one character after the other. -/
def AppendChars (s : CString) (b : Cursor) : Appended :=
  s.foldl (fun r c => (r.1 + (AppendChar buff_end c r.2).1,(AppendChar buff_end c r.2).2)) (0,b)

/-- The loop that fills `num_buffer`, the last digit first. -/
def fillNumBuffer (base : ℕ) : ℕ → ℕ → Option (List ℕ)
  | 0, _ => none
  | room + 1, num =>
    if num / base > 0 then (fillNumBuffer base room (num / base)).map (num % base :: ·) else some [num % base]

def AppendUnsigned (num : BitVec 64) (base minimal_num_length : ℕ) (b : Cursor) : Option Appended :=
  if (base = 10 ∨ base = 16) ∧ minimal_num_length < kMaxLen then
    (fillNumBuffer base kMaxLen num.toNat).map fun num_buffer =>
      let num_buffer := num_buffer ++ List.replicate (minimal_num_length - num_buffer.length) 0
      AppendChars buff_end (num_buffer.reverse.map digitChar) b
  else none

def AppendSignedDecimal (num : BitVec 64) (b : Cursor) : Option Appended :=
  if num.slt 0 then
    let (result,b) := AppendChar buff_end '-' b
    (AppendUnsigned buff_end (-num) 10 0 b).map fun (k,b) => (result + k,b)
  else AppendUnsigned buff_end num 10 0 b

def AppendString (s : Option CString) (b : Cursor) : Appended := AppendChars buff_end (s.getD "<null>".toList) b

def AppendPointer (w : WordSize) (ptr_value : BitVec 64) (b : Cursor) : Option Appended :=
  let (result,b) := AppendString buff_end (some "0x".toList) b
  (AppendUnsigned buff_end ptr_value 16 (if w = .w64 then 12 else 8) b).map fun (k,b) => (result + k,b)

variable {w : WordSize}

/-- The `switch` on the character after `%` or `%z`. -/
def convert (have_z : Bool) (c : Char) (args : List (Arg w)) (b : Cursor) : Option (Appended × List (Arg w)) :=
  if c = 'd' then
    match have_z, args with
    | true, .word v :: args => (AppendSignedDecimal buff_end (v.signExtend 64) b).map (·,args)
    | false, .int v :: args => (AppendSignedDecimal buff_end (v.signExtend 64) b).map (·,args)
    | _, _ => none
  else if c = 'u' ∨ c = 'x' then
    let base := if c = 'u' then 10 else 16
    match have_z, args with
    | true, .word v :: args => (AppendUnsigned buff_end (v.setWidth 64) base 0 b).map (·,args)
    | false, .int v :: args => (AppendUnsigned buff_end (v.setWidth 64) base 0 b).map (·,args)
    | _, _ => none
  else if have_z then none
  else if c = 'p' then
    match args with
    | .word v :: args => (AppendPointer buff_end w (v.setWidth 64) b).map (·,args)
    | _ => none
  else if c = 's' then
    match args with
    | .string s :: args => some (AppendString buff_end s b,args)
    | _ => none
  else if c = 'c' then
    match args with
    | .int v :: args => some (AppendChar buff_end (Char.ofNat (v.toNat % 256)) b,args)
    | _ => none
  else if c = '%' then some (AppendChar buff_end '%' b,args)
  else none

/-- The loop over the format. -/
def formatLoop : CString → List (Arg w) → BitVec 32 → Cursor → Option Appended
  | [], _, result, b => some (result,b)
  | c :: cur, args, result, b =>
    if c ≠ '%' then
      let (k,b) := AppendChar buff_end c b
      formatLoop cur args (result + k) b
    else
      match cur with
      | [] => none
      | 'z' :: c :: cur => (convert buff_end true c args b).bind fun ((k,b),args) => formatLoop cur args (result + k) b
      | c :: cur => (convert buff_end false c args b).bind fun ((k,b),args) => formatLoop cur args (result + k) b

end Append

def NUL : Char := Char.ofNat 0

/-- The return value and the memory. -/
def VSNPrintf {w : WordSize} (memory : ℕ → Char) (buff : ℕ) (buff_length : BitVec 32) (format : CString)
    (args : List (Arg w)) : Option (BitVec 32 × (ℕ → Char)) :=
  if (0 : BitVec 32).slt buff_length then
    let buff_end := buff + buff_length.toNat - 1
    (formatLoop buff_end format args 0 ⟨memory,buff⟩).bind fun (result,b) =>
      if b.buff ≤ buff_end then some (result,(AppendChar (buff_end + 1) NUL b).2.memory) else none
  else none

/-- The length becomes an `int`. -/
def internal_snprintf {w : WordSize} (memory : ℕ → Char) (buffer : ℕ) (length : BitVec w.bits) (format : CString)
    (args : List (Arg w)) : Option (BitVec 32 × (ℕ → Char)) :=
  VSNPrintf memory buffer (length.setWidth 32) format args

/-! ## The text -/

def signedText (v : ℤ) : CString := if v < 0 then '-' :: Nat.toDigits 10 v.natAbs else Nat.toDigits 10 v.natAbs

def paddedText (minimal_num_length base num : ℕ) : CString :=
  List.replicate (minimal_num_length - (Nat.toDigits base num).length) '0' ++ Nat.toDigits base num

/-- A part of a format, with the argument that it takes. -/
inductive Piece (w : WordSize)
  | char (c : Char) (h : c ≠ '%')
  | d (v : BitVec 32)
  | zd (v : BitVec w.bits)
  | u (v : BitVec 32)
  | zu (v : BitVec w.bits)
  | x (v : BitVec 32)
  | zx (v : BitVec w.bits)
  | p (v : BitVec w.bits)
  | s (s : Option CString)
  | c (v : BitVec 32)
  | percent

namespace Piece
variable {w : WordSize}

def format : Piece w → CString
  | .char ch _ => [ch]
  | .d _ => ['%', 'd']
  | .zd _ => ['%', 'z', 'd']
  | .u _ => ['%', 'u']
  | .zu _ => ['%', 'z', 'u']
  | .x _ => ['%', 'x']
  | .zx _ => ['%', 'z', 'x']
  | .p _ => ['%', 'p']
  | .s _ => ['%', 's']
  | .c _ => ['%', 'c']
  | .percent => ['%', '%']

def args : Piece w → List (Arg w)
  | .char _ _ => []
  | .d v | .u v | .x v | .c v => [.int v]
  | .zd v | .zu v | .zx v | .p v => [.word v]
  | .s str => [.string str]
  | .percent => []

/-- What the part is formatted to. -/
def text : Piece w → CString
  | .char ch _ => [ch]
  | .d v => signedText v.toInt
  | .zd v => signedText v.toInt
  | .u v => Nat.toDigits 10 v.toNat
  | .zu v => Nat.toDigits 10 v.toNat
  | .x v => Nat.toDigits 16 v.toNat
  | .zx v => Nat.toDigits 16 v.toNat
  | .p v => '0' :: 'x' :: paddedText (if w = .w64 then 12 else 8) 16 v.toNat
  | .s str => str.getD "<null>".toList
  | .c v => [Char.ofNat (v.toNat % 256)]
  | .percent => ['%']

end Piece

section Digits
variable {base k num : ℕ}

theorem fillNumBuffer_eq (hk : 0 < k) (h : num < base ^ k) :
    fillNumBuffer base k num = some (numBuffer base k num) := by
  induction k generalizing num with
  | zero => exact absurd hk (Nat.lt_irrefl 0)
  | succ k ih =>
    rw [fillNumBuffer, numBuffer]
    by_cases hdiv : num / base > 0
    · have hlt : num / base < base ^ k := Nat.div_lt_of_lt_mul (by rwa [Nat.pow_succ, Nat.mul_comm] at h)
      have hpos : 0 < k := by
        rcases Nat.eq_zero_or_pos k with rfl | hpos
        · rw [Nat.pow_zero] at hlt
          omega
        · exact hpos
      rw [if_pos hdiv, if_pos hdiv, ih hpos hlt]
      rfl
    · rw [if_neg hdiv, if_neg hdiv]

theorem digitChar_eq {d : ℕ} (h : d < 16) : digitChar d = Nat.digitChar d := by
  have hall : ∀ d < 16, digitChar d = Nat.digitChar d := by decide
  exact hall d h

theorem map_numBuffer (hb : 1 < base) (hle : base ≤ 16) (hk : 0 < k) (h : num < base ^ k) :
    (numBuffer base k num).reverse.map digitChar = Nat.toDigits base num := by
  induction k generalizing num with
  | zero => exact absurd hk (Nat.lt_irrefl 0)
  | succ k ih =>
    have hmod := Nat.mod_lt num (Nat.lt_of_succ_lt hb)
    rw [numBuffer, List.reverse_cons, List.map_append, List.map_singleton, digitChar_eq (by omega),
      Nat.toDigits_eq_if hb]
    by_cases hlt : num < base
    · rw [if_pos hlt, if_neg (by rw [Nat.div_eq_of_lt hlt]; exact Nat.lt_irrefl 0), Nat.mod_eq_of_lt hlt]
      rfl
    · have hdiv : num / base > 0 := Nat.div_pos (Nat.le_of_not_lt hlt) (Nat.lt_of_succ_lt hb)
      have hsmall : num / base < base ^ k := Nat.div_lt_of_lt_mul (by rwa [Nat.pow_succ, Nat.mul_comm] at h)
      have hpos : 0 < k := by
        rcases Nat.eq_zero_or_pos k with rfl | hpos
        · rw [Nat.pow_zero] at hsmall
          omega
        · exact hpos
      rw [if_neg hlt, if_pos hdiv, ih hpos hsmall]

end Digits

/-! ## The buffer -/

/-- The cursor has put this into the buffer and nothing anywhere else. -/
structure Holds (memory : ℕ → Char) (buffer : ℕ) (held : CString) (b : Cursor) : Prop where
  buff : b.buff = buffer + held.length
  inside : ∀ i (hi : i < held.length), b.memory (buffer + i) = held[i]
  outside : ∀ a, a < buffer ∨ buffer + held.length ≤ a → b.memory a = memory a

/-- What was appended is the result, and the buffer takes as much of the text as has room. -/
def Appends (memory : ℕ → Char) (buffer n : ℕ) (held s : CString) : Option Appended → Prop
  | none => False
  | some (k,b) => k = BitVec.ofNat 32 s.length ∧ Holds memory buffer (Sanitizer.AppendString n held s) b

section Buffer
variable {memory : ℕ → Char} {buffer n : ℕ} {held s t : CString} {b : Cursor}

theorem Appends.elim {r : Option Appended} (h : Appends memory buffer n held s r) :
    ∃ b, r = some (BitVec.ofNat 32 s.length,b) ∧ Holds memory buffer (Sanitizer.AppendString n held s) b := by
  rcases r with _ | ⟨k,b⟩
  · exact False.elim h
  · obtain ⟨rfl,hb⟩ := h
    exact ⟨b,rfl,hb⟩

theorem appendString_append : Sanitizer.AppendString n held (s ++ t) =
    Sanitizer.AppendString n (Sanitizer.AppendString n held s) t := by
  rw [Sanitizer.AppendString, List.foldl_append]
  rfl

/-- One character, against the buffer as a list. -/
theorem Holds.appendChar (h : Holds memory buffer held b) (hn : 1 ≤ n) (c : Char) :
    Appends memory buffer n held [c] (some (AppendChar (buffer + n - 1) c b)) := by
  have hbuff := h.buff
  have hlist : Sanitizer.AppendString n held [c] = Sanitizer.AppendChar n held c := rfl
  rw [AppendChar]
  by_cases hroom : held.length < n - 1
  · rw [if_pos (by omega)]
    refine ⟨rfl,?_⟩
    rw [hlist, Sanitizer.AppendChar, if_pos hroom]
    constructor
    · rw [List.length_append, List.length_singleton]
      dsimp only
      omega
    · intro i hi
      rw [List.length_append, List.length_singleton] at hi
      dsimp only
      by_cases hlast : i = held.length
      · subst hlast
        rw [hbuff, Function.update_self, List.getElem_concat_length rfl]
      · have hlt : i < held.length := by omega
        rw [Function.update_of_ne (by omega), h.inside i hlt, List.getElem_append_left hlt]
    · intro a ha
      rw [List.length_append, List.length_singleton] at ha
      dsimp only
      rw [Function.update_of_ne (by omega), h.outside a (by omega)]
  · rw [if_neg (by omega)]
    refine ⟨rfl,?_⟩
    rw [hlist, Sanitizer.AppendChar, if_neg hroom]
    exact h

theorem appendChars_cons (buff_end : ℕ) (c : Char) (s : CString) (b : Cursor) :
    AppendChars buff_end (c :: s) b =
      ((AppendChar buff_end c b).1 + (AppendChars buff_end s (AppendChar buff_end c b).2).1,
        (AppendChars buff_end s (AppendChar buff_end c b).2).2) := by
  have hadd : ∀ (s : CString) (k : BitVec 32) (b : Cursor),
      s.foldl (fun r c => (r.1 + (AppendChar buff_end c r.2).1,(AppendChar buff_end c r.2).2)) (k,b) =
        (k + (AppendChars buff_end s b).1,(AppendChars buff_end s b).2) := by
    intro s
    induction s with
    | nil => intro k b; simp [AppendChars]
    | cons c s ih =>
      intro k b
      rw [AppendChars, List.foldl_cons, List.foldl_cons, ih, ih]
      dsimp only
      rw [zero_add, add_assoc]
  rw [AppendChars, List.foldl_cons, hadd]
  dsimp only
  rw [zero_add]

theorem Holds.appendChars (h : Holds memory buffer held b) (hn : 1 ≤ n) (s : CString) :
    Appends memory buffer n held s (some (AppendChars (buffer + n - 1) s b)) := by
  induction s generalizing held b with
  | nil => exact ⟨rfl,h⟩
  | cons c s ih =>
    obtain ⟨b₁,hchar,hb₁⟩ := (h.appendChar hn c).elim
    obtain ⟨b₂,hchars,hb₂⟩ := (ih hb₁).elim
    rw [appendChars_cons, Option.some.inj hchar, Option.some.inj hchars]
    refine ⟨?_,hb₂⟩
    rw [List.length_singleton, List.length_cons, BitVec.ofNat_add_ofNat, Nat.add_comm]

/-- A text after another. -/
theorem Appends.append {r : Option Appended} {f : Cursor → Option Appended} (h : Appends memory buffer n held s r)
    (hf : ∀ b, Holds memory buffer (Sanitizer.AppendString n held s) b →
      Appends memory buffer n (Sanitizer.AppendString n held s) t (f b)) :
    Appends memory buffer n held (s ++ t) (r.bind fun (k,b) => (f b).map fun (k',b) => (k + k',b)) := by
  obtain ⟨b₁,rfl,hb₁⟩ := h.elim
  obtain ⟨b₂,hfb,hb₂⟩ := (hf b₁ hb₁).elim
  rw [Option.bind_some]
  dsimp only
  rw [hfb]
  refine ⟨?_,?_⟩
  · rw [List.length_append, BitVec.ofNat_add_ofNat]
  · rw [appendString_append]
    exact hb₂

theorem Holds.appendUnsigned (h : Holds memory buffer held b) (hn : 1 ≤ n) (num : BitVec 64)
    {base minimal_num_length : ℕ} (hbase : base = 10 ∨ base = 16) (hpad : minimal_num_length < kMaxLen) :
    Appends memory buffer n held (paddedText minimal_num_length base num.toNat)
      (AppendUnsigned (buffer + n - 1) num base minimal_num_length b) := by
  have hlt : num.toNat < base ^ kMaxLen := by
    refine num.isLt.trans_le ?_
    rcases hbase with rfl | rfl <;> decide
  have hdigits := map_numBuffer (by omega) (by omega) (by decide) hlt
  have hlen : (numBuffer base kMaxLen num.toNat).length = (Nat.toDigits base num.toNat).length := by
    rw [← hdigits, List.length_map, List.length_reverse]
  have htext : (numBuffer base kMaxLen num.toNat ++
      List.replicate (minimal_num_length - (numBuffer base kMaxLen num.toNat).length) 0).reverse.map digitChar =
        paddedText minimal_num_length base num.toNat := by
    rw [List.reverse_append, List.map_append, hdigits, hlen, List.reverse_replicate, List.map_replicate]
    rfl
  rw [AppendUnsigned, if_pos ⟨hbase,hpad⟩, fillNumBuffer_eq (by decide) hlt, Option.map_some]
  dsimp only
  rw [htext]
  exact h.appendChars hn _

theorem paddedText_zero (base num : ℕ) : paddedText 0 base num = Nat.toDigits base num := by
  rw [paddedText, Nat.zero_sub]
  rfl

theorem Holds.appendNumber (h : Holds memory buffer held b) (hn : 1 ≤ n) (num : BitVec 64) {base : ℕ}
    (hbase : base = 10 ∨ base = 16) :
    Appends memory buffer n held (Nat.toDigits base num.toNat) (AppendUnsigned (buffer + n - 1) num base 0 b) := by
  rw [← paddedText_zero]
  exact h.appendUnsigned hn num hbase (by decide)

theorem Holds.appendSignedDecimal (h : Holds memory buffer held b) (hn : 1 ≤ n) (num : BitVec 64) :
    Appends memory buffer n held (signedText num.toInt) (AppendSignedDecimal (buffer + n - 1) num b) := by
  have hslt : num.slt 0 = true ↔ num.toInt < 0 := by
    rw [BitVec.slt_iff_toInt_lt]
    rfl
  have htoInt := BitVec.toInt_eq_toNat_cond num
  rw [AppendSignedDecimal, signedText]
  by_cases hneg : num.toInt < 0
  · have habs : (-num).toNat = num.toInt.natAbs := by
      rw [BitVec.toNat_neg]
      split_ifs at htoInt <;> omega
    rw [if_pos (hslt.mpr hneg), if_pos hneg, ← habs]
    exact (h.appendChar hn '-').append fun b hb => hb.appendNumber hn (-num) (Or.inl rfl)
  · have habs : num.toNat = num.toInt.natAbs := by
      split_ifs at htoInt <;> omega
    rw [if_neg (fun hlt => hneg (hslt.mp hlt)), if_neg hneg, ← habs]
    exact h.appendNumber hn num (Or.inl rfl)

theorem Holds.appendPointer (h : Holds memory buffer held b) (hn : 1 ≤ n) (w : WordSize) (ptr_value : BitVec 64) :
    Appends memory buffer n held ('0' :: 'x' :: paddedText (if w = .w64 then 12 else 8) 16 ptr_value.toNat)
      (AppendPointer (buffer + n - 1) w ptr_value b) := by
  have hpad : (if w = .w64 then 12 else 8) < kMaxLen := by
    split_ifs <;> decide
  exact (h.appendChars hn "0x".toList).append fun b hb => hb.appendUnsigned hn ptr_value (Or.inr rfl) hpad

end Buffer

/-! ## The format -/

section Format
variable {w : WordSize} {memory : ℕ → Char} {buffer n : ℕ} {held : CString} {b : Cursor}

theorem bind_map_args {r : Option Appended} {args : List (Arg w)} (buff_end : ℕ) (cur : CString)
    (result : BitVec 32) :
    ((r.map (·,args)).bind fun ((k,b),args) => formatLoop buff_end cur args (result + k) b) =
      r.bind fun (k,b) => formatLoop buff_end cur args (result + k) b := by
  cases r <;> rfl

theorem formatLoop_percent {c : Char} {args args' : List (Arg w)} {r : Option Appended} {buff_end : ℕ} (hc : c ≠ 'z')
    (hr : convert buff_end false c args b = r.map (·,args')) (cur : CString) (result : BitVec 32) :
    formatLoop buff_end ('%' :: c :: cur) args result b =
      r.bind fun (k,b) => formatLoop buff_end cur args' (result + k) b := by
  rw [formatLoop.eq_def]
  dsimp only
  rw [if_neg (not_not_intro rfl), ← bind_map_args, ← hr]
  split
  · next heq => cases heq
  · next heq => exact absurd (List.cons.inj heq).1 hc
  · next heq =>
    obtain ⟨rfl,rfl⟩ := List.cons.inj heq
    rfl

theorem formatLoop_percent_z {c : Char} {args args' : List (Arg w)} {r : Option Appended} {buff_end : ℕ}
    (hr : convert buff_end true c args b = r.map (·,args')) (cur : CString) (result : BitVec 32) :
    formatLoop buff_end ('%' :: 'z' :: c :: cur) args result b =
      r.bind fun (k,b) => formatLoop buff_end cur args' (result + k) b := by
  rw [formatLoop.eq_def]
  dsimp only
  rw [if_neg (not_not_intro rfl), ← bind_map_args, ← hr]
  rfl

/-- The step that the loop takes for a part of the format. -/
theorem formatLoop_piece (hn : 1 ≤ n) (piece : Piece w) (h : Holds memory buffer held b) :
    ∃ r, Appends memory buffer n held piece.text r ∧ ∀ cur args result,
      formatLoop (buffer + n - 1) (piece.format ++ cur) (piece.args ++ args) result b =
        r.bind fun (k,b) => formatLoop (buffer + n - 1) cur args (result + k) b := by
  cases piece with
  | char c hc =>
    refine ⟨_,h.appendChar hn c,fun cur args result => ?_⟩
    change formatLoop _ (c :: cur) args result b = _
    rw [formatLoop.eq_def]
    dsimp only
    rw [if_pos hc]
    rfl
  | d v =>
    have hv := h.appendSignedDecimal hn (v.signExtend 64)
    rw [BitVec.toInt_signExtend_of_le (by decide)] at hv
    exact ⟨_,hv,fun cur args => formatLoop_percent (by decide) rfl cur⟩
  | zd v =>
    have hv := h.appendSignedDecimal hn (v.signExtend 64)
    rw [BitVec.toInt_signExtend_of_le (by cases w <;> decide)] at hv
    exact ⟨_,hv,fun cur args => formatLoop_percent_z rfl cur⟩
  | u v =>
    have hv := h.appendNumber hn (v.setWidth 64) (Or.inl rfl)
    rw [BitVec.toNat_setWidth_of_le (by decide)] at hv
    exact ⟨_,hv,fun cur args => formatLoop_percent (by decide) rfl cur⟩
  | zu v =>
    have hv := h.appendNumber hn (v.setWidth 64) (Or.inl rfl)
    rw [BitVec.toNat_setWidth_of_le (by cases w <;> decide)] at hv
    exact ⟨_,hv,fun cur args => formatLoop_percent_z rfl cur⟩
  | x v =>
    have hv := h.appendNumber hn (v.setWidth 64) (Or.inr rfl)
    rw [BitVec.toNat_setWidth_of_le (by decide)] at hv
    exact ⟨_,hv,fun cur args => formatLoop_percent (by decide) rfl cur⟩
  | zx v =>
    have hv := h.appendNumber hn (v.setWidth 64) (Or.inr rfl)
    rw [BitVec.toNat_setWidth_of_le (by cases w <;> decide)] at hv
    exact ⟨_,hv,fun cur args => formatLoop_percent_z rfl cur⟩
  | p v =>
    have hv := h.appendPointer hn w (v.setWidth 64)
    rw [BitVec.toNat_setWidth_of_le (by cases w <;> decide)] at hv
    exact ⟨_,hv,fun cur args => formatLoop_percent (by decide) rfl cur⟩
  | s str => exact ⟨_,h.appendChars hn _,fun cur args => formatLoop_percent (by decide) rfl cur⟩
  | c v => exact ⟨_,h.appendChar hn _,fun cur args => formatLoop_percent (by decide) rfl cur⟩
  | percent => exact ⟨_,h.appendChar hn _,fun cur args => formatLoop_percent (by decide) rfl cur⟩

theorem formatLoop_pieces (hn : 1 ≤ n) (pieces : List (Piece w)) (result : BitVec 32)
    (h : Holds memory buffer held b) :
    ∃ b', formatLoop (buffer + n - 1) (pieces.flatMap Piece.format) (pieces.flatMap Piece.args) result b =
        some (result + BitVec.ofNat 32 (pieces.flatMap Piece.text).length,b') ∧
      Holds memory buffer (Sanitizer.AppendString n held (pieces.flatMap Piece.text)) b' := by
  induction pieces generalizing held b result with
  | nil =>
    refine ⟨b,?_,h⟩
    change some (result,b) = some (result + 0,b)
    rw [add_zero]
  | cons piece pieces ih =>
    obtain ⟨r,hr,hloop⟩ := formatLoop_piece hn piece h
    obtain ⟨b₁,rfl,hb₁⟩ := hr.elim
    obtain ⟨b₂,htail,hb₂⟩ := ih (result + BitVec.ofNat 32 piece.text.length) hb₁
    refine ⟨b₂,?_,?_⟩
    · rw [List.flatMap_cons, List.flatMap_cons, List.flatMap_cons, hloop, Option.bind_some]
      dsimp only
      rw [htail, List.length_append, BitVec.add_assoc, BitVec.ofNat_add_ofNat]
    · rw [List.flatMap_cons, appendString_append]
      exact hb₂

end Format

/-! ## The result -/

/-- The return value is the length of the text, of which the buffer holds as much as fits, and a NUL. -/
def Formatted (text : CString) (buffer length : ℕ) (memory : ℕ → Char) : Option (BitVec 32 × (ℕ → Char)) → Prop
  | none => False
  | some (result,memory') => result.toInt = text.length ∧
      (∀ i (hi : i < text.length), i < length - 1 → memory' (buffer + i) = text[i]) ∧
      memory' (buffer + min text.length (length - 1)) = NUL ∧
      ∀ a, a < buffer ∨ buffer + length ≤ a → memory' a = memory a

section Result
variable {w : WordSize}

theorem VSNPrintf_formatted (pieces : List (Piece w)) (hlen : (pieces.flatMap Piece.text).length < 2^31)
    (memory : ℕ → Char) (buff : ℕ) (buff_length : BitVec 32) (hpos : 0 < buff_length.toInt) :
    Formatted (pieces.flatMap Piece.text) buff buff_length.toNat memory
      (VSNPrintf memory buff buff_length (pieces.flatMap Piece.format) (pieces.flatMap Piece.args)) := by
  have hn : 1 ≤ buff_length.toNat := by
    by_contra hzero
    rw [BitVec.toInt_eq_toNat_cond] at hpos
    omega
  have hslt : (0 : BitVec 32).slt buff_length = true := BitVec.slt_iff_toInt_lt.mpr hpos
  have hempty : Holds memory buff [] ⟨memory,buff⟩ :=
    ⟨rfl,fun i hi => absurd hi (Nat.not_lt_zero i),fun _ _ => rfl⟩
  obtain ⟨b,hloop,hb⟩ := formatLoop_pieces hn pieces 0 hempty
  have htake := appendString_take (n := buff_length.toNat) (s := []) (t := pieces.flatMap Piece.text)
  rw [List.take_nil, List.nil_append] at htake
  rw [htake] at hb
  have hbuff := hb.buff
  rw [List.length_take] at hbuff
  rw [VSNPrintf, if_pos hslt]
  dsimp only
  rw [hloop, Option.bind_some]
  dsimp only
  rw [if_pos (by omega), zero_add, AppendChar, if_pos (by omega)]
  refine ⟨?_,fun i hi hlt => ?_,?_,fun a ha => ?_⟩
  · rw [BitVec.toInt_eq_toNat_cond, BitVec.toNat_ofNat, Nat.mod_eq_of_lt (by omega), if_pos (by omega)]
  · dsimp only
    rw [Function.update_of_ne (by omega), hb.inside i (by rw [List.length_take]; omega), List.getElem_take]
  · dsimp only
    rw [hbuff, Nat.min_comm, Function.update_self]
  · dsimp only
    rw [Function.update_of_ne (by omega), hb.outside a (by rw [List.length_take]; omega)]

/-- A buffer that is longer than the text needs. -/
theorem Formatted.mono {text : CString} {buffer n m : ℕ} {memory : ℕ → Char} {r : Option (BitVec 32 × (ℕ → Char))}
    (h : Formatted text buffer n memory r) (hlen : text.length < n) (hle : n ≤ m) :
    Formatted text buffer m memory r := by
  rcases r with _ | ⟨result,memory'⟩
  · exact False.elim h
  · obtain ⟨hresult,hinside,hnul,hother⟩ := h
    rw [Nat.min_eq_left (by omega)] at hnul
    refine ⟨hresult,fun i hi _ => hinside i hi (by omega),?_,fun a ha => hother a (by omega)⟩
    rw [Nat.min_eq_left (by omega)]
    exact hnul

theorem internal_snprintf_formatted_iff (pieces : List (Piece w))
    (hlen : (pieces.flatMap Piece.text).length < 2^31) (buffer : ℕ) (length : BitVec w.bits) :
    (∀ memory, Formatted (pieces.flatMap Piece.text) buffer length.toNat memory
        (internal_snprintf memory buffer length (pieces.flatMap Piece.format) (pieces.flatMap Piece.args))) ↔
      0 < (length.setWidth 32).toInt ∧
        (length.toNat < 2^31 ∨ (pieces.flatMap Piece.text).length < (length.setWidth 32).toNat) := by
  have hmod : (length.setWidth 32).toNat = length.toNat % 2^32 := BitVec.toNat_setWidth 32 length
  constructor
  · intro h
    have hpos : 0 < (length.setWidth 32).toInt := by
      by_contra hneg
      have hslt : ¬(0 : BitVec 32).slt (length.setWidth 32) = true := fun hlt => hneg (BitVec.slt_iff_toInt_lt.mp hlt)
      have hnone := h fun _ => NUL
      rw [internal_snprintf, VSNPrintf, if_neg hslt] at hnone
      exact hnone
    refine ⟨hpos,?_⟩
    by_contra hlong
    obtain ⟨hlength,htext⟩ := not_or.mp hlong
    -- What is behind the shorter buffer stays as it was.
    have hall := h fun _ => 'x'
    have hshort := VSNPrintf_formatted pieces hlen (fun _ => 'x') buffer (length.setWidth 32) hpos
    rw [internal_snprintf] at hall
    cases hr : VSNPrintf (fun _ => 'x') buffer (length.setWidth 32) (pieces.flatMap Piece.format)
        (pieces.flatMap Piece.args) with
    | none =>
      rw [hr] at hall
      exact hall
    | some r =>
      rw [hr] at hall hshort
      have hnul := hall.2.2.1
      rw [Nat.min_eq_left (by omega), hshort.2.2.2 _ (Or.inr (by omega))] at hnul
      exact absurd hnul (by decide : 'x' ≠ NUL)
  · rintro ⟨hpos,hlength⟩ memory
    have h := VSNPrintf_formatted pieces hlen memory buffer (length.setWidth 32) hpos
    by_cases hsmall : length.toNat < 2^31
    · rw [hmod, Nat.mod_eq_of_lt (by omega)] at h
      exact h
    · exact h.mono (hlength.resolve_left hsmall) (by rw [hmod]; exact Nat.mod_le _ _)

/-- For all formats, and buffers of any length: only where the length does not fit an `int` can the text be wrong. -/
theorem snprintf_iff (pieces : List (Piece w)) (hlen : (pieces.flatMap Piece.text).length < 2^31) (buffer : ℕ) :
    (∀ (buff_length : BitVec 32) memory, 0 < buff_length.toInt →
      Formatted (pieces.flatMap Piece.text) buffer buff_length.toNat memory
        (VSNPrintf memory buffer buff_length (pieces.flatMap Piece.format) (pieces.flatMap Piece.args))) ∧
    ∀ length : BitVec w.bits,
      (∀ memory, Formatted (pieces.flatMap Piece.text) buffer length.toNat memory
        (internal_snprintf memory buffer length (pieces.flatMap Piece.format) (pieces.flatMap Piece.args))) ↔
      0 < (length.setWidth 32).toInt ∧
        (length.toNat < 2^31 ∨ (pieces.flatMap Piece.text).length < (length.setWidth 32).toNat) :=
  ⟨fun buff_length memory hpos => VSNPrintf_formatted pieces hlen memory buffer buff_length hpos,
    fun length => internal_snprintf_formatted_iff pieces hlen buffer length⟩

theorem snprintf_minimum :
    (∀ (buff_length : BitVec 32) memory, 0 < buff_length.toInt →
      Formatted "-9223372036854775808".toList 16 buff_length.toNat memory
        (VSNPrintf (w := .w64) memory 16 buff_length "%zd".toList [.word (BitVec.ofInt 64 (-2^63))])) ∧
    ∀ length : BitVec 64,
      (∀ memory, Formatted "-9223372036854775808".toList 16 length.toNat memory
        (internal_snprintf (w := .w64) memory 16 length "%zd".toList [.word (BitVec.ofInt 64 (-2^63))])) ↔
      0 < (length.setWidth 32).toInt ∧ (length.toNat < 2^31 ∨ 20 < (length.setWidth 32).toNat) :=
  snprintf_iff [Piece.zd (w := .w64) (BitVec.ofInt 64 (-2^63))] (by decide) 16

/-- With a length of 2^32 + 1 there is room for the NUL only. -/
theorem snprintf_narrowed : ¬∀ memory, Formatted "a".toList 16 (0x100000001 : BitVec 64).toNat memory
    (internal_snprintf (w := .w64) memory 16 (0x100000001 : BitVec 64) "%s".toList [.string (some "a".toList)]) := by
  intro h
  have hroom := ((internal_snprintf_formatted_iff [Piece.s (w := .w64) (some "a".toList)] (by decide) 16
    (0x100000001 : BitVec 64)).mp h).2
  exact absurd hroom (by decide)

end Result

end CompilerRt.Sanitizer.Snprintf
