import CompilerRt.Builtins.FpLib
import CompilerRt.Lib.ShiftingPair

/-! # Unsigned division with remainder

`__udivmoddi4` and `__udivmodti4` have one body over half words of 32 and of 64 bits, and `__udivsi3` is the same
division in one word. Where the divisor has no high word, all alternatives for the two registers are computed and the
wrong ones masked out; among them are shifts by the full width and more, of which C says nothing.
-/
namespace CompilerRt.Udivmod
open CShift FpLib
open ShiftingPair (loop)

/-- What a machine gives for shifts whose amount is out of range. -/
structure OutOfRange where
  shl : {w : ℕ} → BitVec w → ℤ → BitVec w
  shr : {w : ℕ} → BitVec w → ℤ → BitVec w

section Shifts
variable (v : OutOfRange) {w : ℕ}

def shl (x : BitVec w) (n : ℤ) : BitVec w := if InRange w n then x <<< n.toNat else v.shl x n

def shr (x : BitVec w) (n : ℤ) : BitVec w := if InRange w n then x >>> n.toNat else v.shr x n

/-- `(si_int)n >> (n_uword_bits - 1)` -/
def signMask (w : ℕ) (n : ℤ) : BitVec w := (BitVec.ofInt w n).sshiftRight (w - 1)

end Shifts

def builtin_ctz {w : ℕ} (a : BitVec w) : ℕ := a.ctz.toNat

/-- `udwords` and `utwords` -/
structure Words (h : ℕ) where
  high : BitVec h
  low : BitVec h

variable {h : ℕ}

def Words.all (x : Words h) : BitVec (h + h) := x.high ++ x.low

def Words.ofAll (x : BitVec (h + h)) : Words h := { high := (x >>> h).truncate h, low := x.truncate h }

structure Registers (h : ℕ) where
  r : Words h
  q : Words h
  carry : BitVec h

def step (d : Words h) (s : Registers h) : Registers h :=
  let r : Words h := { high := s.r.high <<< 1 ||| s.r.low >>> (h - 1), low := s.r.low <<< 1 ||| s.q.high >>> (h - 1) }
  let q : Words h := { high := s.q.high <<< 1 ||| s.q.low >>> (h - 1), low := s.q.low <<< 1 ||| s.carry }
  let t := (d.all - r.all - 1).sshiftRight (h + h - 1)
  { r := Words.ofAll (r.all - (d.all &&& t)), q := q, carry := (t &&& 1).truncate h }

def loopWords (d : Words h) : ℕ → Registers h → Registers h
  | 0, s => s
  | i + 1, s => loopWords d i (step d s)

/-- `Not a special case`: the loop from `sr` down, and what is returned and put into `*rem`. -/
def divide (d : Words h) (sr : ℤ) (r q : Words h) : BitVec (h + h) × BitVec (h + h) :=
  let s := loopWords d sr.toNat { r := r, q := q, carry := 0 }
  (s.q.all <<< 1 ||| s.carry.zeroExtend (h + h),s.r.all)

section Body
variable (v : OutOfRange) (n d : Words h)

/-- `n.all >> sr` -/
def startR (sr : ℤ) : Words h :=
  { high := shr v n.high sr, low := shl v n.high (h - sr) ||| shr v n.low sr }

/-- `n.all << (n_udword_bits - sr)` -/
def startQ (sr : ℤ) : Words h := { high := shl v n.low (h - sr), low := 0 }

/-- The same for every `sr`, by masks. -/
def maskedR (sr : ℤ) : Words h :=
  { high := shr v n.high sr &&& signMask h (sr - h)
    low := (shr v n.high (sr - h) &&& signMask h (h - sr - 1)) |||
      ((shl v n.high (h - sr) ||| shr v n.low sr) &&& signMask h (sr - h)) }

def maskedQ (sr : ℤ) : Words h :=
  { low := shl v n.low (h + h - sr) &&& signMask h (h - sr)
    high := (shl v n.low (h - sr) &&& signMask h (sr - h - 1)) |||
      ((shl v n.high (h + h - sr) ||| shr v n.low (sr - h)) &&& signMask h (h - sr)) }

/-- For `sr` up to the width of a word. -/
def wordR (sr : ℤ) : Words h :=
  { high := shr v n.high sr &&& signMask h (sr - h)
    low := shl v n.high (h - sr) ||| (shr v n.low sr &&& signMask h (sr - h)) }

/-- `d.s.low == 0` -/
def lowZero : BitVec (h + h) × BitVec (h + h) :=
  if d.high = 0 then ((n.high / d.low).zeroExtend _,(n.high % d.low).zeroExtend _)
  else if n.low = 0 then ((n.high / d.high).zeroExtend _,Words.all { high := n.high % d.high, low := 0 })
  else if d.high &&& (d.high - 1) = 0 then
    ((shr v n.high (builtin_ctz d.high)).zeroExtend _,Words.all { high := n.high &&& (d.high - 1), low := n.low })
  else
    let sr : ℤ := ((builtin_clz d.high : ℤ) - builtin_clz n.high) % 2 ^ 32
    if h - 2 < sr then (0,n.all)
    else
      let sr := sr + 1
      divide d sr (startR v n sr) (startQ v n sr)

/-- `d.s.low != 0`, `d.s.high == 0` -/
def highZero : BitVec (h + h) × BitVec (h + h) :=
  if d.low &&& (d.low - 1) = 0 then
    if d.low = 1 then (n.all,(n.low &&& (d.low - 1)).zeroExtend _)
    else
      let sr : ℤ := builtin_ctz d.low
      let q : Words h := { high := shr v n.high sr, low := shl v n.high (h - sr) ||| shr v n.low sr }
      (q.all,(n.low &&& (d.low - 1)).zeroExtend _)
  else
    let sr : ℤ := 1 + h + builtin_clz d.low - builtin_clz n.high
    divide d sr (maskedR v n sr) (maskedQ v n sr)

/-- Neither half of the divisor is zero. -/
def noneZero : BitVec (h + h) × BitVec (h + h) :=
  let sr : ℤ := ((builtin_clz d.high : ℤ) - builtin_clz n.high) % 2 ^ 32
  if h - 1 < sr then (0,n.all)
  else
    let sr := sr + 1
    divide d sr (wordR v n sr) (startQ v n sr)

/-- The quotient and `*rem`. -/
def udivmod (a b : BitVec (h + h)) : BitVec (h + h) × BitVec (h + h) :=
  let n := Words.ofAll a
  let d := Words.ofAll b
  if n.high = 0 then
    if d.high = 0 then ((n.low / d.low).zeroExtend _,(n.low % d.low).zeroExtend _)
    else (0,n.low.zeroExtend _)
  else if d.low = 0 then lowZero v n d
  else if d.high = 0 then highZero v n d
  else noneZero v n d

end Body

def udivmoddi4 (v : OutOfRange) (a b : BitVec 64) : BitVec 64 × BitVec 64 := udivmod v (h := 32) a b

def udivmodti4 (v : OutOfRange) (a b : BitVec 128) : BitVec 128 × BitVec 128 := udivmod v (h := 64) a b

/-- `lib/udivsi3.c`, whose loop is that of the two words in one. -/
def udivsi3 (v : OutOfRange) (n d : BitVec 32) : BitVec 32 :=
  if d = 0 then 0
  else if n = 0 then 0
  else
    let sr : ℤ := ((builtin_clz d : ℤ) - builtin_clz n) % 2 ^ 32
    if 32 - 1 < sr then 0
    else if sr = 32 - 1 then n
    else
      let sr := sr + 1
      let s := loop d sr.toNat { r := shr v n sr, q := shl v n (32 - sr), carry := 0 }
      s.q <<< 1 ||| s.carry

end CompilerRt.Udivmod
