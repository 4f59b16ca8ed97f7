import Mathlib.Data.BitVec
import Mathlib.Data.Nat.Bitwise
import Mathlib.Order.Bounds.Basic

/-! # Compressed stack traces

`CompressStack` and `UncompressStack` of `lib/sanitizer_common/sanitizer_stacktrace.cc`, for 64-bit and for
32-bit frames. A 64-bit frame becomes one word with a 31-bit offset to the previous frame, or two words.
-/
namespace CompilerRt.Sanitizer

def kStackTraceMax : ℕ := 256

structure StackTrace (w : ℕ) where
  trace : List (BitVec w)
  size_le : trace.length ≤ kStackTraceMax

namespace StackTrace

abbrev u32 := BitVec 32
abbrev uptr := BitVec 64

/-- The words from the beginning of the compressed trace on. -/
abbrev Buffer := ℕ → u32

/-! ## Frames of 32 bits are copied -/

section Bits32
variable (size : ℕ)

def copyLoop : List u32 → Buffer → ℕ → Buffer × ℕ
  | [], compressed, i => (compressed,i)
  | pc :: rest, compressed, i =>
    if i < size then copyLoop rest (Function.update compressed i pc) (i + 1) else (compressed,i)

def CompressStack32 (stack : StackTrace 32) (compressed : Buffer) : Buffer × ℕ :=
  let (compressed,res) := copyLoop size stack.trace compressed 0
  (if stack.trace.length < size then Function.update compressed stack.trace.length 0 else compressed,res)

/-- The next `n` words up to the first zero. -/
def uncopyLoop (compressed : Buffer) : ℕ → ℕ → List u32
  | 0, _ => []
  | n + 1, i => if compressed i = 0 then [] else compressed i :: uncopyLoop compressed n (i + 1)

def UncompressStack32 (compressed : Buffer) : List u32 := uncopyLoop compressed (min size kStackTraceMax) 0

end Bits32

/-! ## Frames of 64 bits -/

def kMaxOffset : uptr := ((1 : uptr) <<< 30) - 1

section Bits64
variable (size : ℕ)

/-- The loop over the frames, with the previous frame and the number of words and frames so far. -/
def compressLoop : List uptr → Buffer → uptr → ℕ → ℕ → Option (Buffer × ℕ × ℕ)
  | [], compressed, _, c_index, res => some (compressed,c_index,res)
  | pc :: rest, compressed, prev_pc, c_index, res =>
    if pc = 0 then some (compressed,c_index,res)
    else if pc.slt 0 then some (compressed,c_index,res)
    else if prev_pc - pc < kMaxOffset ∨ pc - prev_pc < kMaxOffset then
      let offset := (pc - prev_pc) ||| ((1 : uptr) <<< 31)
      if c_index ≥ size then some (compressed,c_index,res)
      else compressLoop rest (Function.update compressed c_index (offset.setWidth 32)) pc (c_index + 1) (res + 1)
    else
      let hi := pc >>> 32
      let lo := (pc <<< 32) >>> 32
      -- `1 << 31` is an `int` and extends with its sign
      if hi &&& 0xffffffff80000000 ≠ 0 then none
      else if c_index + 1 ≥ size then some (compressed,c_index,res)
      else compressLoop rest
        (Function.update (Function.update compressed c_index (hi.setWidth 32)) (c_index + 1) (lo.setWidth 32))
        pc (c_index + 2) (res + 1)

def CompressStack (stack : StackTrace 64) (compressed : Buffer) : Option (Buffer × ℕ) := do
  let (compressed,c_index,res) ← compressLoop size stack.trace compressed 0 0 0
  let compressed := if c_index < size then Function.update compressed c_index 0 else compressed
  let compressed := if c_index + 1 < size then Function.update compressed (c_index + 1) 0 else compressed
  return (compressed,res)

def uncompressLoop (compressed : Buffer) (i : ℕ) (prev_pc : uptr) (trace : List uptr) : Option (List uptr) :=
  if i < size ∧ trace.length < kStackTraceMax then
    let x := compressed i
    if x &&& ((1 : u32) <<< 31) ≠ 0 then
      let offset := (x <<< 1).sshiftRight 1
      let pc := prev_pc + offset.signExtend 64
      if pc = 0 then none else uncompressLoop compressed (i + 1) pc (trace ++ [pc])
    else if i + 1 ≥ size then some trace
    else
      let hi := x.setWidth 64
      let lo := (compressed (i + 1)).setWidth 64
      let pc := (hi <<< 32) ||| lo
      if pc = 0 then some trace else uncompressLoop compressed (i + 2) pc (trace ++ [pc])
  else some trace
termination_by size - i

def UncompressStack (compressed : Buffer) : Option (List uptr) := uncompressLoop size compressed 0 0 []

end Bits64

/-! ## The encoding -/

/-- The frame is near the previous one, on either side. -/
def Near (prev_pc pc : uptr) : Prop := prev_pc - pc < kMaxOffset ∨ pc - prev_pc < kMaxOffset

instance (prev_pc pc : uptr) : Decidable (Near prev_pc pc) := inferInstanceAs (Decidable (_ ∨ _))

/-- The words of one frame. -/
def entry (prev_pc pc : uptr) : List u32 :=
  if Near prev_pc pc then [((pc - prev_pc) ||| ((1 : uptr) <<< 31)).setWidth 32]
  else [(pc >>> 32).setWidth 32,((pc <<< 32) >>> 32).setWidth 32]

/-- The words of frames that follow `prev_pc`. -/
def encode : uptr → List uptr → List u32
  | _, [] => []
  | prev_pc, pc :: rest => entry prev_pc pc ++ encode pc rest

/-- A frame that can be encoded. -/
def Frame (pc : uptr) : Prop := pc ≠ 0 ∧ pc.slt 0 = false

/-- The first `n` frames can be encoded in `size` words. -/
def Encodable (stack : StackTrace 64) (size n : ℕ) : Prop :=
  n ≤ stack.trace.length ∧ (∀ pc ∈ stack.trace.take n, Frame pc) ∧ (encode 0 (stack.trace.take n)).length ≤ size

/-- The words are in the buffer from `i` on. -/
def Holds (b : Buffer) (i : ℕ) : List u32 → Prop
  | [] => True
  | x :: rest => b i = x ∧ Holds b (i + 1) rest

def write (b : Buffer) (i : ℕ) : List u32 → Buffer
  | [] => b
  | x :: rest => write (Function.update b i x) (i + 1) rest

section Buffer
variable {b b' : Buffer} {i : ℕ} {ws vs : List u32}

theorem write_of_lt {j : ℕ} (h : j < i) : write b i ws j = b j := by
  induction ws generalizing b i with
  | nil => rfl
  | cons x rest ih =>
    rw [write, ih (by omega), Function.update_of_ne (by omega)]

theorem write_of_ge {j : ℕ} (h : i + ws.length ≤ j) : write b i ws j = b j := by
  induction ws generalizing b i with
  | nil => rfl
  | cons x rest ih =>
    rw [List.length_cons] at h
    rw [write, ih (by omega), Function.update_of_ne (by omega)]

theorem Holds.congr (h : Holds b i ws) (hb : ∀ j, i ≤ j → j < i + ws.length → b' j = b j) : Holds b' i ws := by
  induction ws generalizing i with
  | nil => trivial
  | cons x rest ih =>
    rw [List.length_cons] at hb
    exact ⟨(hb i le_rfl (by omega)).trans h.1,ih h.2 fun j hj hlt => hb j (by omega) (by omega)⟩

theorem holds_write : Holds (write b i ws) i ws := by
  induction ws generalizing b i with
  | nil => trivial
  | cons x rest ih =>
    refine ⟨?_,ih⟩
    rw [write, write_of_lt (Nat.lt_succ_self i), Function.update_self]

theorem holds_append : Holds b i (ws ++ vs) ↔ Holds b i ws ∧ Holds b (i + ws.length) vs := by
  induction ws generalizing i with
  | nil => simp [Holds]
  | cons x rest ih =>
    rw [List.cons_append, Holds, Holds, ih, List.length_cons, and_assoc, Nat.add_right_comm i 1, ← Nat.add_assoc]

end Buffer
/-! ## Words and frames -/

section Words
variable {prev_pc pc : uptr}

theorem Frame.lt (h : Frame pc) : pc.toNat < 2^63 := by
  have hs : pc.slt 0#64 = false := h.2
  rw [BitVec.slt_zero_eq_msb, BitVec.msb_eq_decide, decide_eq_false_iff_not] at hs
  exact Nat.not_le.mp hs

theorem near_iff (prev_pc pc : uptr) : Near prev_pc pc ↔
    (pc - prev_pc).toNat < 2^30 - 1 ∨ 2^64 - 2^30 + 1 < (pc - prev_pc).toNat := by
  have hneg : (prev_pc - pc).toNat = (2^64 - (pc - prev_pc).toNat) % 2^64 := by
    have hp := prev_pc.isLt
    have hq := pc.isLt
    rw [BitVec.toNat_sub, BitVec.toNat_sub]
    omega
  have hlt := (pc - prev_pc).isLt
  rw [Near, BitVec.lt_def, BitVec.lt_def, hneg]
  change _ < 2^30 - 1 ∨ _ < 2^30 - 1 ↔ _
  omega

/-- The top bit of a word. -/
theorem flag_eq_zero_iff (x : u32) : x &&& ((1 : u32) <<< 31) = 0 ↔ x.toNat < 2^31 := by
  rw [← BitVec.toNat_inj, BitVec.toNat_and]
  change x.toNat &&& 2^31 = 0 ↔ _
  rw [Nat.and_two_pow, Nat.testBit_eq_decide_div_mod_eq]
  have hlt := x.isLt
  rcases Nat.mod_two_eq_zero_or_one (x.toNat / 2^31) with h | h
  · rw [h]
    refine iff_of_true (by simp) (by omega)
  · rw [h]
    refine iff_of_false (by simp) (by omega)

theorem toNat_offset (d : uptr) : ((d ||| ((1 : uptr) <<< 31)).setWidth 32 : u32).toNat = d.toNat % 2^31 + 2^31 := by
  have hor : 2^31 + d.toNat % 2^31 = 2^31 ||| d.toNat % 2^31 :=
    Nat.two_pow_add_eq_or_of_lt (i := 31) (Nat.mod_lt _ (by decide)) 1
  rw [BitVec.toNat_setWidth, BitVec.toNat_or, Nat.or_mod_two_pow, Nat.or_comm]
  change 2^31 % 2^32 ||| d.toNat % 2^32 = _
  have hlow : d.toNat % 2^32 = 2^31 * (d.toNat / 2^31 % 2) ||| d.toNat % 2^31 := by
    rw [← Nat.two_pow_add_eq_or_of_lt (Nat.mod_lt _ (by decide))]
    omega
  have htop : 2^31 ||| 2^31 * (d.toNat / 2^31 % 2) = 2^31 := by
    rcases Nat.mod_two_eq_zero_or_one (d.toNat / 2^31) with h | h <;> rw [h] <;> decide
  rw [show (2 : ℕ)^31 % 2^32 = 2^31 from rfl, hlow, ← Nat.or_assoc, htop, Nat.add_comm, hor]

/-- Removing the flag and extending the sign gives a small difference back. -/
theorem decode_offset (h : Near prev_pc pc) {x : u32}
    (hx : x.toNat = (pc - prev_pc).toNat % 2^31 + 2^31) :
    prev_pc + ((x <<< 1).sshiftRight 1).signExtend 64 = pc := by
  have hd := (near_iff prev_pc pc).mp h
  have hlt := (pc - prev_pc).isLt
  have hshift : (x <<< 1).toNat = (pc - prev_pc).toNat % 2^31 * 2 := by
    rw [BitVec.toNat_shiftLeft, Nat.shiftLeft_eq, hx]
    omega
  have hint : (((x <<< 1).sshiftRight 1).signExtend 64).toInt = (pc - prev_pc).toInt := by
    rw [BitVec.toInt_signExtend_of_le (by decide), BitVec.toInt_sshiftRight, BitVec.toInt_eq_toNat_cond, hshift,
      BitVec.toInt_eq_toNat_cond, Int.shiftRight_eq_div_pow]
    split_ifs <;> omega
  rw [BitVec.eq_of_toInt_eq hint, BitVec.add_comm, BitVec.sub_add_cancel]

/-- A frame without its sign bit fits two words of which the first has no flag. -/
theorem decode_absolute (h : pc.toNat < 2^63) :
    ((pc >>> 32).setWidth 32 : u32).toNat < 2^31 ∧ pc >>> 32 &&& 0xffffffff80000000 = 0 ∧
      (((pc >>> 32).setWidth 32 : u32).setWidth 64 <<< 32) ||| (((pc <<< 32) >>> 32).setWidth 32 : u32).setWidth 64 = pc := by
  have hhi : (pc >>> 32).toNat = pc.toNat / 2^32 := by
    rw [BitVec.toNat_ushiftRight, Nat.shiftRight_eq_div_pow]
  have hlo : ((pc <<< 32) >>> 32).toNat = pc.toNat % 2^32 := by
    rw [BitVec.toNat_ushiftRight, BitVec.toNat_shiftLeft, Nat.shiftRight_eq_div_pow, Nat.shiftLeft_eq]
    omega
  refine ⟨?_,?_,?_⟩
  · rw [BitVec.toNat_setWidth, hhi]
    omega
  · have hlow : pc >>> 32 = pc >>> 32 &&& 0x7fffffff := by
      refine BitVec.eq_of_toNat_eq ?_
      rw [BitVec.toNat_and, hhi]
      exact ((Nat.and_two_pow_sub_one_eq_mod _ 31).trans (Nat.mod_eq_of_lt (by omega))).symm
    rw [hlow, BitVec.and_assoc]
    exact BitVec.and_zero
  · have hor := Nat.two_pow_add_eq_or_of_lt (i := 32) (Nat.mod_lt pc.toNat (by decide : 2^32 > 0)) (pc.toNat / 2^32)
    have h1 : pc.toNat / 2^32 % 2^32 % 2^64 * 2^32 % 2^64 = 2^32 * (pc.toNat / 2^32) := by omega
    have h2 : pc.toNat % 2^32 % 2^32 % 2^64 = pc.toNat % 2^32 := by omega
    refine BitVec.eq_of_toNat_eq ?_
    rw [BitVec.toNat_or, BitVec.toNat_shiftLeft, BitVec.toNat_setWidth, BitVec.toNat_setWidth, BitVec.toNat_setWidth,
      BitVec.toNat_setWidth, hhi, hlo, Nat.shiftLeft_eq, h1, h2, ← hor]
    omega

end Words

/-! ## The loops, frame by frame -/

section Loops
variable {size : ℕ} {b b' : Buffer} {prev_pc pc : uptr} {rest frames : List uptr}

/-- A frame is written when its words fit, and otherwise ends the loop. -/
theorem compressLoop_cons (h : Frame pc) (c_index res : ℕ) : compressLoop size (pc :: rest) b prev_pc c_index res =
    if c_index + (entry prev_pc pc).length ≤ size then
      compressLoop size rest (write b c_index (entry prev_pc pc)) pc (c_index + (entry prev_pc pc).length) (res + 1)
    else some (b,c_index,res) := by
  obtain ⟨-,hclear,-⟩ := decode_absolute h.lt
  rw [compressLoop, if_neg h.1, if_neg (by rw [h.2]; decide)]
  unfold entry
  by_cases hn : prev_pc - pc < kMaxOffset ∨ pc - prev_pc < kMaxOffset
  · rw [if_pos hn, if_pos (show Near prev_pc pc from hn)]
    dsimp only
    by_cases hfit : c_index + 1 ≤ size
    · rw [if_neg (by omega)]
      exact (if_pos hfit).symm
    · rw [if_pos (by omega)]
      exact (if_neg hfit).symm
  · rw [if_neg hn, if_neg (show ¬ Near prev_pc pc from hn)]
    dsimp only
    rw [if_neg (not_not.mpr hclear)]
    by_cases hfit : c_index + 2 ≤ size
    · rw [if_neg (by omega)]
      exact (if_pos hfit).symm
    · rw [if_pos (by omega)]
      exact (if_neg hfit).symm

theorem compressLoop_stop (h : ¬ Frame pc) (c_index res : ℕ) :
    compressLoop size (pc :: rest) b prev_pc c_index res = some (b,c_index,res) := by
  rw [compressLoop]
  by_cases h0 : pc = 0
  · rw [if_pos h0]
  · have hs : pc.slt 0 = true := by
      by_contra hns
      exact h ⟨h0,Bool.not_eq_true _ ▸ hns⟩
    rw [if_neg h0, if_pos hs]

theorem encode_append_length (pc : uptr) (rest : List uptr) :
    (encode prev_pc (pc :: rest)).length = (entry prev_pc pc).length + (encode pc rest).length := by
  rw [encode, List.length_append]

/-- The loop writes the first `n` frames from `c_index` on and nothing else, and could write no more. -/
structure Compressed (size : ℕ) (frames : List uptr) (b : Buffer) (prev_pc : uptr) (c_index res : ℕ) (b' : Buffer)
    (n : ℕ) : Prop where
  loop : compressLoop size frames b prev_pc c_index res =
    some (b',c_index + (encode prev_pc (frames.take n)).length,res + n)
  le_length : n ≤ frames.length
  valid : ∀ pc ∈ frames.take n, Frame pc
  fits : c_index + (encode prev_pc (frames.take n)).length ≤ size
  holds : Holds b' c_index (encode prev_pc (frames.take n))
  same : ∀ i, i < c_index ∨ c_index + (encode prev_pc (frames.take n)).length ≤ i → b' i = b i
  maximal : ∀ m, n < m → m ≤ frames.length → (∀ pc ∈ frames.take m, Frame pc) →
    size < c_index + (encode prev_pc (frames.take m)).length

theorem Compressed.stop {c_index res : ℕ} (hc : c_index ≤ size)
    (hloop : compressLoop size (pc :: rest) b prev_pc c_index res = some (b,c_index,res))
    (hmax : ∀ m, (∀ x ∈ (pc :: rest).take (m + 1), Frame x) →
      size < c_index + (encode prev_pc ((pc :: rest).take (m + 1))).length) :
    Compressed size (pc :: rest) b prev_pc c_index res b 0 where
  loop := hloop
  le_length := Nat.zero_le _
  valid := by simp
  fits := hc
  holds := trivial
  same _ _ := rfl
  maximal m hm _ hall := by
    obtain ⟨k,rfl⟩ := Nat.exists_eq_succ_of_ne_zero hm.ne'
    exact hmax k hall

theorem Compressed.cons {c_index res n : ℕ} (hf : Frame pc) (hfit : c_index + (entry prev_pc pc).length ≤ size)
    (h : Compressed size rest (write b c_index (entry prev_pc pc)) pc (c_index + (entry prev_pc pc).length) (res + 1)
      b' n) : Compressed size (pc :: rest) b prev_pc c_index res b' (n + 1) := by
  have hlen : (encode prev_pc (pc :: rest.take n)).length = _ := encode_append_length pc (rest.take n)
  have hle := h.fits
  refine ⟨?_,Nat.succ_le_succ h.le_length,fun x hx => ?_,?_,?_,fun i hi => ?_,fun m hm hle' hall => ?_⟩
  · rw [compressLoop_cons hf, if_pos hfit, h.loop, List.take_succ_cons, hlen, Nat.add_assoc, Nat.add_right_comm res,
      Nat.add_assoc res]
  · rw [List.take_succ_cons] at hx
    rcases List.mem_cons.mp hx with rfl | hx
    · exact hf
    · exact h.valid x hx
  · rw [List.take_succ_cons, hlen]
    omega
  · rw [List.take_succ_cons, encode, holds_append]
    exact ⟨Holds.congr holds_write fun j hj hlt => h.same j (Or.inl hlt),h.holds⟩
  · rw [List.take_succ_cons, hlen] at hi
    rw [h.same i (by omega)]
    rcases hi with hi | hi
    · exact write_of_lt hi
    · exact write_of_ge (by omega)
  · obtain ⟨k,rfl⟩ := Nat.exists_eq_succ_of_ne_zero (show m ≠ 0 by omega)
    rw [Nat.succ_eq_add_one, List.take_succ_cons] at hall ⊢
    rw [encode_append_length]
    have hk := h.maximal k (by omega) (by rw [List.length_cons] at hle'; omega)
      fun x hx => hall x (List.mem_cons_of_mem pc hx)
    omega

theorem compressLoop_spec (c_index res : ℕ) (hc : c_index ≤ size) (b : Buffer) (prev_pc : uptr) :
    ∃ b' n, Compressed size frames b prev_pc c_index res b' n := by
  induction frames generalizing b prev_pc c_index res with
  | nil =>
    refine ⟨b,0,rfl,le_rfl,by simp,hc,trivial,fun _ _ => rfl,fun m hm hle => ?_⟩
    rw [List.length_nil] at hle
    omega
  | cons pc rest ih =>
    by_cases hf : Frame pc
    · by_cases hfit : c_index + (entry prev_pc pc).length ≤ size
      · obtain ⟨b',n,h⟩ := ih (c_index + (entry prev_pc pc).length) (res + 1) hfit
          (write b c_index (entry prev_pc pc)) pc
        exact ⟨b',n + 1,h.cons hf hfit⟩
      · refine ⟨b,0,Compressed.stop hc ?_ fun m _ => ?_⟩
        · rw [compressLoop_cons hf, if_neg hfit]
        · rw [List.take_succ_cons, encode_append_length]
          omega
    · refine ⟨b,0,Compressed.stop hc (compressLoop_stop hf c_index res) fun m hall => absurd (hall pc ?_) hf⟩
      exact List.mem_cons_self

/-- The words of a frame give the frame back. -/
theorem uncompressLoop_entry {i : ℕ} {trace : List uptr} (h : Frame pc) (hholds : Holds b i (entry prev_pc pc))
    (hfit : i + (entry prev_pc pc).length ≤ size) (hmax : trace.length < kStackTraceMax) :
    uncompressLoop size b i prev_pc trace =
      uncompressLoop size b (i + (entry prev_pc pc).length) pc (trace ++ [pc]) := by
  rw [uncompressLoop]
  unfold entry at hholds hfit ⊢
  by_cases hn : Near prev_pc pc
  · rw [if_pos hn] at hholds hfit ⊢
    obtain ⟨hx,-⟩ := hholds
    have hnat := toNat_offset (pc - prev_pc)
    rw [← hx] at hnat
    have hflag : b i &&& ((1 : u32) <<< 31) ≠ 0 := fun h0 => by
      have hlt := (flag_eq_zero_iff (b i)).mp h0
      omega
    rw [List.length_singleton] at hfit ⊢
    rw [if_pos ⟨by omega,hmax⟩]
    dsimp only
    rw [if_pos hflag, decode_offset hn hnat, if_neg h.1]
  · rw [if_neg hn] at hholds hfit ⊢
    obtain ⟨hhi,hlo,-⟩ := hholds
    obtain ⟨hlt,-,hpc⟩ := decode_absolute h.lt
    rw [← hhi] at hlt
    change i + 2 ≤ size at hfit
    rw [if_pos ⟨by omega,hmax⟩]
    dsimp only
    rw [if_neg (not_not.mpr ((flag_eq_zero_iff (b i)).mpr hlt)), if_neg (by omega), hhi, hlo, hpc, if_neg h.1]
    rfl

/-- Two zero words, or as many as there are, end the trace. -/
theorem uncompressLoop_end {i : ℕ} {trace : List uptr} (h0 : i < size → b i = 0) (h1 : i + 1 < size → b (i + 1) = 0) :
    uncompressLoop size b i prev_pc trace = some trace := by
  rw [uncompressLoop]
  by_cases hi : i < size ∧ trace.length < kStackTraceMax
  · rw [if_pos hi, h0 hi.1]
    dsimp only
    rw [if_neg (by decide)]
    by_cases hi1 : i + 1 ≥ size
    · rw [if_pos hi1]
    · rw [if_neg hi1, h1 (by omega), if_pos (by decide)]
  · rw [if_neg hi]

theorem uncompressLoop_encode {i : ℕ} {trace : List uptr} (hall : ∀ pc ∈ frames, Frame pc)
    (hholds : Holds b i (encode prev_pc frames)) (hfit : i + (encode prev_pc frames).length ≤ size)
    (hmax : trace.length + frames.length ≤ kStackTraceMax)
    (h0 : i + (encode prev_pc frames).length < size → b (i + (encode prev_pc frames).length) = 0)
    (h1 : i + (encode prev_pc frames).length + 1 < size → b (i + (encode prev_pc frames).length + 1) = 0) :
    uncompressLoop size b i prev_pc trace = some (trace ++ frames) := by
  induction frames generalizing i prev_pc trace with
  | nil =>
    rw [List.append_nil]
    exact uncompressLoop_end h0 h1
  | cons pc rest ih =>
    rw [encode_append_length, ← Nat.add_assoc] at hfit h0 h1
    rw [encode, holds_append] at hholds
    rw [List.length_cons] at hmax
    rw [uncompressLoop_entry (hall pc List.mem_cons_self) hholds.1 (by omega) (by omega),
      ih (fun x hx => hall x (List.mem_cons_of_mem pc hx)) hholds.2 hfit (by simp; omega) h0 h1, List.append_assoc]
    rfl

end Loops

/-! ## Round trips -/

section RoundTrip
variable {size : ℕ}

/-- The result is the length of the longest prefix that fits, and this prefix comes back. -/
theorem uncompress_compress (stack : StackTrace 64) (compressed : Buffer) :
    ∃ compressed' res, CompressStack size stack compressed = some (compressed',res) ∧
      (∀ i, size ≤ i → compressed' i = compressed i) ∧
      UncompressStack size compressed' = some (stack.trace.take res) ∧
      IsGreatest {n | stack.Encodable size n} res := by
  obtain ⟨b,n,h⟩ : ∃ b n, Compressed size stack.trace compressed 0 0 0 b n :=
    compressLoop_spec 0 0 (Nat.zero_le _) compressed 0
  have hloop := h.loop
  have hfits := h.fits
  have hsame := h.same
  have hholds := h.holds
  generalize hc : (encode 0 (stack.trace.take n)).length = c at hloop hfits hsame
  rw [Nat.zero_add] at hloop hfits hsame
  rw [Nat.zero_add] at hloop
  rw [CompressStack, hloop, Option.bind_eq_bind, Option.bind_some]
  refine ⟨_,n,rfl,fun i hi => ?_,?_,⟨h.le_length,h.valid,?_⟩,fun m hm => ?_⟩
  · have hi' : b i = compressed i := hsame i (Or.inr (by omega))
    split_ifs
    · rw [Function.update_of_ne (by omega), Function.update_of_ne (by omega), hi']
    · rw [Function.update_of_ne (by omega), hi']
    · rw [Function.update_of_ne (by omega), hi']
    · exact hi'
  · refine uncompressLoop_encode h.valid (Holds.congr hholds fun j _ hj => ?_) ?_ ?_ ?_ ?_
    · rw [hc] at hj
      split_ifs
      · rw [Function.update_of_ne (by omega), Function.update_of_ne (by omega)]
      · rw [Function.update_of_ne (by omega)]
      · rw [Function.update_of_ne (by omega)]
      · rfl
    · rw [hc]
      omega
    · have hmax := stack.size_le
      rw [List.length_nil, List.length_take]
      omega
    · rw [hc, Nat.zero_add]
      intro hlt
      rw [if_pos hlt]
      split_ifs
      · rw [Function.update_of_ne (by omega), Function.update_self]
      · rw [Function.update_self]
    · rw [hc, Nat.zero_add]
      intro hlt
      rw [if_pos hlt, Function.update_self]
  · rw [hc]
    exact hfits
  · by_contra hlt
    have hlong := h.maximal m (Nat.not_le.mp hlt) hm.1 hm.2.1
    have hshort := hm.2.2
    omega

/-- The loop over a prefix of the frames copies it and nothing else. -/
theorem copyLoop_spec {frames : List u32} (b : Buffer) {i : ℕ} (hi : i ≤ size) :
    ∃ b', copyLoop size frames b i = (b',i + min frames.length (size - i)) ∧
      Holds b' i (frames.take (size - i)) ∧
      ∀ j, j < i ∨ i + min frames.length (size - i) ≤ j → b' j = b j := by
  induction frames generalizing b i with
  | nil => exact ⟨b,by simp [copyLoop],by simp [Holds],fun _ _ => rfl⟩
  | cons pc rest ih =>
    rw [copyLoop]
    by_cases hlt : i < size
    · obtain ⟨b',heq,hholds,hsame⟩ := ih (Function.update b i pc) (show i + 1 ≤ size by omega)
      obtain ⟨k,hk⟩ := Nat.exists_eq_succ_of_ne_zero (show size - i ≠ 0 by omega)
      have hk' : size - (i + 1) = k := by omega
      rw [hk'] at heq hholds hsame
      rw [if_pos hlt, heq, hk, Nat.succ_eq_add_one, List.take_succ_cons, List.length_cons]
      refine ⟨b',by rw [Nat.add_min_add_right, Nat.add_assoc, Nat.add_comm 1],⟨?_,hholds⟩,fun j hj => ?_⟩
      · rw [hsame i (Or.inl (Nat.lt_succ_self i)), Function.update_self]
      · rw [Nat.add_min_add_right] at hj
        rw [hsame j (by omega), Function.update_of_ne (by omega)]
    · rw [if_neg hlt, show size - i = 0 by omega]
      exact ⟨b,by simp,trivial,fun _ _ => rfl⟩

/-- What was copied comes back up to the first zero, if there is a zero after it or nothing more. -/
theorem uncopyLoop_spec {frames : List u32} {b : Buffer} {i n : ℕ} (h : Holds b i frames) (hn : frames.length ≤ n)
    (hend : frames.length < n → b (i + frames.length) = 0) :
    uncopyLoop b n i = frames.takeWhile (· ≠ 0) := by
  induction frames generalizing i n with
  | nil =>
    cases n with
    | zero => rfl
    | succ n =>
      have h0 : b i = 0 := hend (Nat.succ_pos n)
      rw [uncopyLoop, if_pos h0]
      rfl
  | cons pc rest ih =>
    obtain ⟨k,rfl⟩ := Nat.exists_eq_succ_of_ne_zero (show n ≠ 0 by rw [List.length_cons] at hn; omega)
    rw [List.length_cons] at hn hend
    rw [Nat.succ_eq_add_one, uncopyLoop, h.1]
    by_cases h0 : pc = 0
    · simp [h0]
    · rw [if_neg h0, List.takeWhile_cons_of_pos (by simpa using h0), ih h.2 (by omega) fun hlt => ?_]
      rw [Nat.add_assoc, Nat.add_comm 1]
      exact hend (by omega)

theorem uncompress_compress32 (stack : StackTrace 32) (compressed : Buffer) :
    (∀ i, size ≤ i → (CompressStack32 size stack compressed).1 i = compressed i) ∧
      UncompressStack32 size (CompressStack32 size stack compressed).1 =
        (stack.trace.take (min stack.trace.length size)).takeWhile (· ≠ 0) := by
  obtain ⟨b,heq,hholds,hsame⟩ : ∃ b, copyLoop size stack.trace compressed 0 = (b,0 + min stack.trace.length (size - 0)) ∧ _ ∧ _ :=
    copyLoop_spec compressed (Nat.zero_le size)
  rw [Nat.sub_zero, Nat.zero_add] at heq hsame
  rw [Nat.sub_zero] at hholds
  have hmax := stack.size_le
  rw [CompressStack32, heq]
  dsimp only
  constructor
  · intro i hi
    have hi' : b i = compressed i := hsame i (Or.inr (by omega))
    split_ifs
    · rw [Function.update_of_ne (by omega), hi']
    · exact hi'
  · have htake : stack.trace.take (min stack.trace.length size) = stack.trace.take size := by
      rw [Nat.min_comm, ← List.take_take, List.take_length]
    rw [htake, UncompressStack32]
    refine uncopyLoop_spec (Holds.congr hholds fun j _ hj => ?_) ?_ fun hlt => ?_
    · rw [List.length_take] at hj
      split_ifs
      · rw [Function.update_of_ne (by omega)]
      · rfl
    · rw [List.length_take]
      omega
    · rw [List.length_take] at hlt ⊢
      rw [if_pos (by omega), Nat.zero_add, show min size stack.trace.length = stack.trace.length by omega,
        Function.update_self]

/-- Nothing is written past the buffer. The 64-bit encoding gives back the longest prefix that can be encoded and
fits, the 32-bit one the frames that fit, up to the first zero. -/
theorem roundTrip :
    (∀ (stack : StackTrace 64) (compressed : Buffer) (size : ℕ), ∃ compressed' res,
      CompressStack size stack compressed = some (compressed',res) ∧
      (∀ i, size ≤ i → compressed' i = compressed i) ∧
      UncompressStack size compressed' = some (stack.trace.take res) ∧
      IsGreatest {n | stack.Encodable size n} res) ∧
    ∀ (stack : StackTrace 32) (compressed : Buffer) (size : ℕ),
      (∀ i, size ≤ i → (CompressStack32 size stack compressed).1 i = compressed i) ∧
      UncompressStack32 size (CompressStack32 size stack compressed).1 =
        (stack.trace.take (min stack.trace.length size)).takeWhile (· ≠ 0) :=
  ⟨fun stack compressed _ => uncompress_compress stack compressed,
    fun stack compressed _ => uncompress_compress32 stack compressed⟩

end RoundTrip
end StackTrace
end CompilerRt.Sanitizer
