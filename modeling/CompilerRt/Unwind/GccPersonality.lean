import CompilerRt.Lib.Leb128

/-! # The personality routine of `lib/gcc_personality_v0.c`

Memory is partial, so that a read outside of what is there shows. A shift that C leaves undefined (of an `int` by 32
or more, or with a result that does not fit) stops the run, and so does `compilerrt_abort`. Loads are taken to work at
any address, as the source has them.
-/
namespace CompilerRt.Unwind
open ByteOrder

structure Target where
  order : Order
  /-- `sizeof(uintptr_t)` -/
  ptrBytes : ℕ
  ptrBytes_eq : ptrBytes = 4 ∨ ptrBytes = 8
  /-- `__builtin_eh_return_data_regno` -/
  ehReturnDataRegno : ℕ → ℕ

namespace Target

def bits (T : Target) : ℕ := 8 * T.ptrBytes

/-- `uintptr_t` -/
abbrev Word (T : Target) := BitVec T.bits

theorem le_bits (T : Target) : 32 ≤ T.bits := by
  have h := T.ptrBytes_eq
  rw [bits]
  omega

theorem lt_of_small (T : Target) {x : ℕ} (h : x < 2 ^ 31) : x < 2 ^ T.bits :=
  h.trans_le (Nat.pow_le_pow_right (by decide) (le_trans (by decide) T.le_bits))

end Target

inductive Stop
  | fault
  | undefined
  | aborted
  | unfinished
  deriving DecidableEq,Repr

/-- `struct _Unwind_Context` as far as the routine reads and sets it. -/
structure Context (T : Target) where
  ip : T.Word
  regionStart : T.Word
  languageSpecificData : ℕ
  gr : ℕ → T.Word

def Context.setGR {T : Target} (context : Context T) (index : ℕ) (value : T.Word) : Context T :=
  { context with gr := fun i => if i = index then value else context.gr i }

def Context.setIP {T : Target} (context : Context T) (value : T.Word) : Context T := { context with ip := value }

inductive ReasonCode
  | continueUnwind
  | installContext
  deriving DecidableEq,Repr

section Read
variable (T : Target) (m : ByteMemory)

def loadByte (p : ℕ) : Except Stop Byte :=
  match m p with
  | none => .error .fault
  | some b => .ok b

def load (p k : ℕ) : Except Stop ℕ :=
  match m.read p k with
  | none => .error .fault
  | some bs => .ok (ofBytes T.order bs)

/-- `x << shift` for an `int` that is not negative. -/
def shiftLeft (x shift : ℕ) : Except Stop ℕ :=
  if shift < 32 ∧ x * 2 ^ shift < 2 ^ 31 then .ok (x * 2 ^ shift) else .error .undefined

def readULEB128Loop : ℕ → ℕ → T.Word → ℕ → Except Stop (T.Word × ℕ)
  | 0, _, _, _ => .error .unfinished
  | fuel + 1, p, result, shift => do
    let byte ← loadByte m p
    let group ← shiftLeft (byte &&& 0x7f).toNat shift
    let result := result ||| BitVec.ofNat T.bits group
    if byte &&& 0x80 = 0 then return (result,p + 1) else readULEB128Loop fuel (p + 1) result (shift + 7)

/-- The sixth byte would be shifted by 35. -/
def readULEB128 (data : ℕ) : Except Stop (T.Word × ℕ) := readULEB128Loop T m 6 data 0 0

def readUnsigned (p k : ℕ) : Except Stop (T.Word × ℕ) := do
  let x ← load T m p k
  return (BitVec.ofNat T.bits x,p + k)

def readSigned (p k : ℕ) : Except Stop (T.Word × ℕ) := do
  let x ← load T m p k
  return ((BitVec.ofNat (8 * k) x).signExtend T.bits,p + k)

/-- The switch on `encoding & 0x0F`. -/
def readValue (p : ℕ) (encoding : Byte) : Except Stop (T.Word × ℕ) :=
  match (encoding &&& 0x0f).toNat with
  | 0x00 => readUnsigned T m p T.ptrBytes
  | 0x01 => readULEB128 T m p
  | 0x02 => readUnsigned T m p 2
  | 0x03 => readUnsigned T m p 4
  | 0x04 => readUnsigned T m p 8
  | 0x0a => readSigned T m p 2
  | 0x0b => readSigned T m p 4
  | 0x0c => readSigned T m p 8
  | _ => .error .aborted

/-- The switch on `encoding & 0x70`. -/
def addRelative (data : ℕ) (encoding : Byte) (result : T.Word) : Except Stop T.Word :=
  match (encoding &&& 0x70).toNat with
  | 0x00 => .ok result
  | 0x10 => .ok (result + BitVec.ofNat T.bits data)
  | _ => .error .aborted

def indirect (encoding : Byte) (result : T.Word) : Except Stop T.Word :=
  if encoding &&& 0x80 = 0 then .ok result
  else do
    let x ← load T m result.toNat T.ptrBytes
    return BitVec.ofNat T.bits x

def readEncodedPointer (data : ℕ) (encoding : Byte) : Except Stop (T.Word × ℕ) :=
  if encoding = 0xff then .ok (0,data)
  else do
    let (result,p) ← readValue T m data encoding
    let result ← addRelative T data encoding result
    let result ← indirect T m encoding result
    return (result,p)

/-- What the routine returns, the context it leaves, and the call-site entries it read, each from where to where. -/
structure Outcome where
  reason : ReasonCode
  context : Context T
  entries : List (ℕ × ℕ)

/-- The loop over the call-site table. -/
def walk (exceptionObject : T.Word) (context : Context T) (callSiteEncoding : Byte) (callSiteTableEnd : ℕ) :
    ℕ → ℕ → List (ℕ × ℕ) → Except Stop (Outcome T)
  | 0, _, _ => .error .unfinished
  | fuel + 1, p, entries =>
    let funcStart := context.regionStart
    let pcOffset := context.ip - 1 - funcStart
    if p < callSiteTableEnd then do
      let (start,p₁) ← readEncodedPointer T m p callSiteEncoding
      let (length,p₂) ← readEncodedPointer T m p₁ callSiteEncoding
      let (landingPad,p₃) ← readEncodedPointer T m p₂ callSiteEncoding
      let (_,p₄) ← readULEB128 T m p₃
      let entries := entries ++ [(p,p₄)]
      if landingPad = 0 then walk exceptionObject context callSiteEncoding callSiteTableEnd fuel p₄ entries
      else if start ≤ pcOffset ∧ pcOffset < start + length then
        let context := context.setGR (T.ehReturnDataRegno 0) exceptionObject
        let context := context.setGR (T.ehReturnDataRegno 1) 0
        return ⟨.installContext,context.setIP (funcStart + landingPad),entries⟩
      else walk exceptionObject context callSiteEncoding callSiteTableEnd fuel p₄ entries
    else return ⟨.continueUnwind,context,entries⟩

/-- The first header field. Its value is not used. -/
def readLpStart (lsda : ℕ) : Except Stop (T.Word × ℕ) := do
  let lpStartEncoding ← loadByte m lsda
  if lpStartEncoding ≠ 0xff then readEncodedPointer T m (lsda + 1) lpStartEncoding else return (0,lsda + 1)

/-- The second header field. Its value is not used either. -/
def readTtype (lsda : ℕ) : Except Stop (T.Word × ℕ) := do
  let ttypeEncoding ← loadByte m lsda
  if ttypeEncoding ≠ 0xff then readULEB128 T m (lsda + 1) else return (0,lsda + 1)

/-- From the header on. Each turn of the loop reads at least one byte of the table. -/
def parseLsda (exceptionObject : T.Word) (context : Context T) (lsda : ℕ) : Except Stop (Outcome T) := do
  let (_,lsda) ← readLpStart T m lsda
  let (_,lsda) ← readTtype T m lsda
  let callSiteEncoding ← loadByte m lsda
  let (tableLength,callSiteTableStart) ← readULEB128 T m (lsda + 1)
  -- callSiteTableLength is a uint32_t
  let callSiteTableLength := tableLength.toNat % 2 ^ 32
  walk T m exceptionObject context callSiteEncoding (callSiteTableStart + callSiteTableLength)
    (callSiteTableLength + 1) callSiteTableStart []

def gccPersonalityV0 (actions : BitVec 32) (exceptionObject : T.Word) (context : Context T) :
    Except Stop (Outcome T) :=
  -- _UA_SEARCH_PHASE
  if actions &&& 1 ≠ 0 then return ⟨.continueUnwind,context,[]⟩
  else if context.languageSpecificData = 0 then return ⟨.continueUnwind,context,[]⟩
  else parseLsda T m exceptionObject context context.languageSpecificData

end Read
end CompilerRt.Unwind
