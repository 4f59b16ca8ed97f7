import CompilerRt.Lib.TextBlock
import CompilerRt.Lib.Transition
import CompilerRt.Sanitizer.Printf

/-! # The symbolizer process

`ExternalSymbolizer` of `lib/sanitizer_common/sanitizer_symbolizer.cc` writes requests to a pipe and reads responses
from another one; `utils/llvm-symbolizer/llvm-symbolizer.cpp` is the process between them.
-/
namespace CompilerRt.Sanitizer.Symbolizer

/-! ## The runtime's side -/

def kMaxBufferSize : ℕ := 4096

def kMaxTimesRestarted : ℕ := 5

structure Request where
  module_name : CString
  module_offset : BitVec 64
  no_newline : '\n' ∉ module_name

/-- The offset as it is written. -/
def offsetText (module_offset : BitVec 64) : CString := "0x".toList ++ unsignedText module_offset.toNat 16

/-- The request before it is put into the buffer. -/
def Request.full (r : Request) : CString := r.module_name ++ ' ' :: offsetText r.module_offset ++ ['\n']

/-- `"%s 0x%zx\n"`. -/
def Request.line (r : Request) : CString :=
  let buffer := AppendString kMaxBufferSize [] r.module_name
  let buffer := AppendString kMaxBufferSize buffer " 0x".toList
  let buffer := AppendUnsigned kMaxBufferSize buffer r.module_offset.toNat 16
  AppendChar kMaxBufferSize buffer '\n'

def Request.Fits (r : Request) : Prop := r.full.length < kMaxBufferSize

/-! ## The symbolizer's side -/

def kMaxInputStringLength : ℕ := 1024

/-- A line, or as much of it as there is room for; none while there is neither. -/
def fgets : ℕ → CString → Option (CString × CString)
  | 0, stdin => some ([],stdin)
  | _ + 1, [] => none
  | n + 1, c :: stdin => if c = '\n' then some ([c],stdin) else (fgets n stdin).map fun r => (c :: r.1,r.2)

def kDelimiters : CString := [' ','\n']

/-- A token, and what is behind the delimiter that ends it. -/
def strtok (s delimiters : CString) : Option (CString × CString) :=
  match s.dropWhile (· ∈ delimiters) with
  | [] => none
  | c :: s => some ((c :: s).takeWhile (· ∉ delimiters),((c :: s).dropWhile (· ∉ delimiters)).drop 1)

/-- The tokens of a line. -/
def lineTokens (InputString : CString) : CString × CString :=
  match strtok InputString kDelimiters with
  | none => ([],[])
  | some (FilePath, rest) =>
    match strtok rest kDelimiters with
    | none => (FilePath,[])
    | some (OffsetStr, _) => (FilePath,OffsetStr)

/-- The module name and the offset that are read next, and what is left. -/
def parseModuleNameAndOffset (stdin : CString) : Option ((CString × CString) × CString) :=
  (fgets (kMaxInputStringLength - 1) stdin).map fun r => (lineTokens r.1,r.2)

structure DILineInfo where
  functionName : CString
  fileName : CString
  line : ℕ
  column : ℕ

def kDILineInfoBadString : CString := "<invalid>".toList

def kSymbolizerBadString : CString := "??".toList

section Symbolizer

-- `__cxa_demangle`, none where its status is not 0
variable (cxa_demangle : CString → Option CString)

/-- The two lines of a frame, with the options at their defaults. -/
def printDILineInfo (LineInfo : DILineInfo) : List CString :=
  let FunctionName := if LineInfo.functionName = kDILineInfoBadString then kSymbolizerBadString else LineInfo.functionName
  let FunctionName := (cxa_demangle FunctionName).getD FunctionName
  let Filename := if LineInfo.fileName = kDILineInfoBadString then kSymbolizerBadString else LineInfo.fileName
  [FunctionName,Filename ++ ':' :: unsignedText LineInfo.line 10 ++ ':' :: unsignedText LineInfo.column 10]

-- what LLVM's debug information has for a module and an offset, at least the one frame `<invalid>`
variable (frames : CString → CString → List DILineInfo)

/-- The response: two lines for each frame, and an empty one. -/
def symbolize (ModuleName ModuleOffsetStr : CString) : CString :=
  TextBlock.block '\n' ((frames ModuleName ModuleOffsetStr).flatMap (printDILineInfo cxa_demangle))

/-! ## Both together -/

structure State where
  /-- The pipe to the symbolizer. -/
  stdin : CString
  /-- The pipe from it. -/
  stdout : CString
  /-- The request that is waited for, with what was read of its response. -/
  current : Option (Request × CString)
  /-- The requests that were answered, with their responses. -/
  answered : List (Request × CString)
  times_restarted_ : ℕ

inductive Act where
  /-- Write a request. -/
  | SymbolizeCode (r : Request)
  /-- The symbolizer reads a line and answers it. -/
  | symbolize
  /-- One read of at least one character. -/
  | internal_read (n : ℕ)
  /-- The read failed: start the symbolizer anew and write the request again. -/
  | Restart

/-- Two line ends at the end of what was read. -/
def endOfOutput (buffer : CString) : Bool := "\n\n".toList.isSuffixOf buffer

def step (s : State) : Act → Option State
  | .SymbolizeCode r =>
    match s.current with
    | none => some { s with stdin := s.stdin ++ r.line, current := some (r,[]) }
    | some _ => none
  | .symbolize =>
    match parseModuleNameAndOffset s.stdin with
    | none => none
    | some ((ModuleName, ModuleOffsetStr), stdin) =>
      some { s with stdin, stdout := s.stdout ++ Symbolizer.symbolize cxa_demangle frames ModuleName ModuleOffsetStr }
  | .internal_read n =>
    match s.current with
    | none => none
    | some (r, buffer) =>
      if 1 ≤ n ∧ n ≤ s.stdout.length ∧ buffer.length + n ≤ kMaxBufferSize then
        let buffer := buffer ++ s.stdout.take n
        if endOfOutput buffer then
          some { s with stdout := s.stdout.drop n, current := none, answered := s.answered ++ [(r,buffer)] }
        else some { s with stdout := s.stdout.drop n, current := some (r,buffer) }
      else none
  | .Restart =>
    match s.current with
    | none => none
    | some (r, _) =>
      if s.times_restarted_ < kMaxTimesRestarted then
        some { s with stdin := r.line, stdout := [], current := some (r,[]), times_restarted_ := s.times_restarted_ + 1 }
      else none

def init : State := ⟨[],[],none,[],0⟩

end Symbolizer

/-- The requests of a run. -/
def requests : List Act → List Request
  | [] => []
  | .SymbolizeCode r :: es => r :: requests es
  | _ :: es => requests es

end CompilerRt.Sanitizer.Symbolizer
