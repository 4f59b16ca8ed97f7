import CompilerRt.Lib.ByteOrder
import CompilerRt.Lib.FileStream
import Mathlib.Data.List.Basic

/-! # The gcda files of `lib/profile/GCDAProfiling.c`

Words are written in the byte order of the target, a counter as its low word and then its high word. The emitters
are called between `llvm_gcda_start_file` and `llvm_gcda_end_file` on a file that earlier runs may have left; the
arc counters that are found at the current position are added to the new ones.
-/
namespace CompilerRt.Profile
open ByteOrder

abbrev Stream := FileStream Byte

def word (order : Order) (i : BitVec 32) : List Byte := toBytes order 4 i.toNat

def writeInt32 (order : Order) (i : BitVec 32) (output_file : Stream) : Stream := output_file.fwrite (word order i)

def writeInt64 (order : Order) (i : BitVec 64) (output_file : Stream) : Stream :=
  let lo := i.setWidth 32
  let hi := (i >>> 32).setWidth 32
  writeInt32 order hi (writeInt32 order lo output_file)

def lengthOfString (s : List Byte) : BitVec 32 := BitVec.ofNat 32 (s.length / 4 + 1)

def writeString (order : Order) (s : List Byte) (output_file : Stream) : Stream :=
  ((writeInt32 order (lengthOfString s) output_file).fwrite s).fwrite (List.replicate (4 - s.length % 4) 0)

def readInt32 (order : Order) (output_file : Stream) : BitVec 32 × Stream :=
  match output_file.fread 4 with
  | (none,f) => (-1,f)
  | (some tmp,f) => (BitVec.ofNat 32 (ofBytes order tmp),f)

def readInt64 (order : Order) (output_file : Stream) : BitVec 64 × Stream :=
  match output_file.fread 8 with
  | (none,f) => (-1,f)
  | (some tmp,f) => (BitVec.ofNat 64 (ofBytes order tmp),f)

/-- The loop that fills `old_ctrs`. -/
def readCounters (order : Order) : ℕ → Stream → List (BitVec 64) × Stream
  | 0, f => ([],f)
  | n + 1, f =>
    let (c,f) := readInt64 order f
    let (cs,f) := readCounters order n f
    (c :: cs,f)

/-- The loop that writes `counters[i] + (old_ctrs ? old_ctrs[i] : 0)`. -/
def writeCounters (order : Order) (num_counters : BitVec 32) (counters : ℕ → BitVec 64)
    (old_ctrs : Option (List (BitVec 64))) (f : Stream) : Stream :=
  (List.range num_counters.toNat).foldl
    (fun f i => writeInt64 order (counters i + (old_ctrs.elim 0 fun old => old.getD i 0)) f) f

/-- "adcg*404MVLL" -/
def fileHeader : List Byte := [0x61,0x64,0x63,0x67,0x2a,0x34,0x30,0x34,0x4d,0x56,0x4c,0x4c]

def functionTag : List Byte := [0,0,0,1]

def arcsTag : List Byte := [0,0,0xa1,1]

/-- The argument is the contents of the file that `fopen` opened or created, or nothing where every `fopen` failed. -/
def llvmGcdaStartFile (fopened : Option (List Byte)) : Option Stream :=
  fopened.map fun bytes => (FileStream.ofContents bytes).fwrite fileHeader

def llvmGcdaEmitFunction (order : Order) (ident : BitVec 32) (function_name : List Byte) (output_file : Option Stream) :
    Option Stream :=
  output_file.map fun f =>
    let f := f.fwrite functionTag
    let f := writeInt32 order (3 + 1 + lengthOfString function_name) f
    let f := writeInt32 order ident f
    let f := writeInt32 order 0 f
    let f := writeInt32 order 0 f
    writeString order function_name f

/-- The part of `llvm_gcda_emit_arcs` after the old counters are read: back to `pos`, then tag, length and counters. -/
def writeArcs (order : Order) (pos : ℕ) (num_counters : BitVec 32) (counters : ℕ → BitVec 64)
    (old_ctrs : Option (List (BitVec 64))) (f : Stream) : Stream :=
  let f := (f.fseek pos).fwrite arcsTag
  let f := writeInt32 order (num_counters * 2) f
  writeCounters order num_counters counters old_ctrs f

def emitArcs (order : Order) (num_counters : BitVec 32) (counters : ℕ → BitVec 64) (output_file : Stream) : Stream :=
  let pos := output_file.ftell
  let (val,f) := readInt32 order output_file
  if val = -1 then writeArcs order pos num_counters counters none f
  -- There are counters present in the file. Merge them.
  else if val ≠ 0x01a10000 then f
  else
    let (val,f) := readInt32 order f
    if val = -1 ∨ val / 2 ≠ num_counters then f
    else
      let (old_ctrs,f) := readCounters order num_counters.toNat f
      writeArcs order pos num_counters counters (some old_ctrs) f

def llvmGcdaEmitArcs (order : Order) (num_counters : BitVec 32) (counters : ℕ → BitVec 64)
    (output_file : Option Stream) : Option Stream :=
  output_file.map (emitArcs order num_counters counters)

/-- The file that is left on disk. -/
def llvmGcdaEndFile (output_file : Option Stream) : Option (List Byte) :=
  output_file.map fun f => (f.fwrite (List.replicate 8 0)).contents

/-- A call that the instrumented program makes at its exit. -/
inductive Item
  | function (ident : BitVec 32) (function_name : List Byte)
  | arcs (num_counters : BitVec 32)
  deriving DecidableEq,Repr

/-- The counters of a run: those of the `i`-th call and in it the `j`-th. -/
abbrev Counters := ℕ → ℕ → BitVec 64

def emit (order : Order) (counters : ℕ → BitVec 64) : Item → Option Stream → Option Stream
  | .function ident function_name => llvmGcdaEmitFunction order ident function_name
  | .arcs num_counters => llvmGcdaEmitArcs order num_counters counters

def emitFrom (order : Order) (v : Counters) : ℕ → List Item → Option Stream → Option Stream
  | _, [], f => f
  | i, item :: items, f => emitFrom order v (i + 1) items (emit order (v i) item f)

/-- `fopen` with "r+b" finds the file that an earlier run left, with "w+b" it makes an empty one. -/
def fopen (disk : Option (List Byte)) : Option (List Byte) := some (disk.getD [])

/-- A run of the process on the file that earlier runs left. -/
def processRun (order : Order) (items : List Item) (disk : Option (List Byte)) (v : Counters) : Option (List Byte) :=
  llvmGcdaEndFile (emitFrom order v 0 items (llvmGcdaStartFile (fopen disk)))

/-- The file after these runs. There is none before the first. -/
def processRuns (order : Order) (items : List Item) (runs : List Counters) : Option (List Byte) :=
  runs.foldl (processRun order items) none

/-! ## What is written -/

def counterBytes (order : Order) (c : BitVec 64) : List Byte :=
  word order (c.setWidth 32) ++ word order ((c >>> 32).setWidth 32)

def countersBytes (order : Order) (n : ℕ) (c : ℕ → BitVec 64) : List Byte :=
  (List.range n).flatMap fun i => counterBytes order (c i)

def arcsRecord (order : Order) (n : BitVec 32) (c : ℕ → BitVec 64) : List Byte :=
  arcsTag ++ word order (n * 2) ++ countersBytes order n.toNat c

def functionRecord (order : Order) (ident : BitVec 32) (name : List Byte) : List Byte :=
  functionTag ++ word order (3 + 1 + lengthOfString name) ++ word order ident ++ word order 0 ++ word order 0 ++
    word order (lengthOfString name) ++ name ++ List.replicate (4 - name.length % 4) 0

@[simp] theorem length_word (order : Order) (i : BitVec 32) : (word order i).length = 4 := length_toBytes order 4 i.toNat

@[simp] theorem length_counterBytes (order : Order) (c : BitVec 64) : (counterBytes order c).length = 8 := by
  simp [counterBytes]

theorem countersBytes_succ (order : Order) (n : ℕ) (c : ℕ → BitVec 64) :
    countersBytes order (n + 1) c = countersBytes order n c ++ counterBytes order (c n) := by
  simp [countersBytes,List.range_succ]

theorem countersBytes_cons (order : Order) (n : ℕ) (c : ℕ → BitVec 64) :
    countersBytes order (n + 1) c = counterBytes order (c 0) ++ countersBytes order n fun i => c (i + 1) := by
  simp [countersBytes,List.range_succ_eq_map,List.flatMap_map]

@[simp] theorem length_countersBytes (order : Order) (n : ℕ) (c : ℕ → BitVec 64) :
    (countersBytes order n c).length = 8 * n := by
  induction n with
  | zero => rfl
  | succ n ih =>
    rw [countersBytes_succ,List.length_append,ih,length_counterBytes]
    omega

theorem countersBytes_congr (order : Order) {n : ℕ} {c d : ℕ → BitVec 64} (h : ∀ i < n, c i = d i) :
    countersBytes order n c = countersBytes order n d := by
  induction n with
  | zero => rfl
  | succ n ih =>
    rw [countersBytes_succ,countersBytes_succ,ih fun i hi => h i (Nat.lt_succ_of_lt hi),h n (Nat.lt_succ_self n)]

@[simp] theorem length_arcsRecord (order : Order) (n : BitVec 32) (c : ℕ → BitVec 64) :
    (arcsRecord order n c).length = 8 + 8 * n.toNat := by
  simp only [arcsRecord,arcsTag,List.length_append,List.length_cons,List.length_nil,length_word,length_countersBytes]

theorem writeInt64_eq (order : Order) (c : BitVec 64) (f : Stream) :
    writeInt64 order c f = f.fwrite (counterBytes order c) := FileStream.fwrite_fwrite _ _ f

theorem writeCounters_eq (order : Order) (n : BitVec 32) (c : ℕ → BitVec 64) (old : Option (List (BitVec 64)))
    (f : Stream) : writeCounters order n c old f =
      f.fwrite (countersBytes order n.toNat fun i => c i + old.elim 0 fun old => old.getD i 0) := by
  unfold writeCounters
  generalize n.toNat = k
  induction k with
  | zero => simp [countersBytes]
  | succ k ih =>
    rw [List.range_succ,List.foldl_append,ih,countersBytes_succ,← FileStream.fwrite_fwrite,← writeInt64_eq]
    rfl

theorem writeArcs_eq (order : Order) (pos : ℕ) (n : BitVec 32) (c : ℕ → BitVec 64) (old : Option (List (BitVec 64)))
    (f : Stream) : writeArcs order pos n c old f =
      (f.fseek pos).fwrite (arcsRecord order n fun i => c i + old.elim 0 fun old => old.getD i 0) := by
  rw [writeArcs,writeCounters_eq,writeInt32,FileStream.fwrite_fwrite,FileStream.fwrite_fwrite]
  rfl

theorem llvmGcdaEmitFunction_some (order : Order) (ident : BitVec 32) (name : List Byte) (f : Stream) :
    llvmGcdaEmitFunction order ident name (some f) = some (f.fwrite (functionRecord order ident name)) := by
  simp only [llvmGcdaEmitFunction,writeString,writeInt32,FileStream.fwrite_fwrite,Option.map_some]
  rfl

/-! ## What is read -/

theorem readInt32_word (order : Order) (i : BitVec 32) (b r : List Byte) :
    readInt32 order ⟨b,word order i ++ r⟩ = (i,⟨b ++ word order i,r⟩) := by
  have h := ofBytes_toBytes_of_lt order (k := 4) i.isLt
  rw [readInt32,FileStream.fread_append (length_word order i)]
  dsimp only
  rw [word,h,BitVec.ofNat_toNat,BitVec.setWidth_eq]

theorem readInt32_end (order : Order) (b : List Byte) : readInt32 order ⟨b,[]⟩ = (-1,⟨b,[]⟩) := by
  rw [readInt32,FileStream.fread_end (by omega)]

theorem readInt32_contents (order : Order) (f : Stream) : (readInt32 order f).2.contents = f.contents := by
  rw [← FileStream.fread_contents 4 f,readInt32]
  split <;> rename_i h <;> rw [h]

theorem readInt32_ftell_le (order : Order) (f : Stream) : (readInt32 order f).2.ftell ≤ f.ftell + 4 := by
  have h := FileStream.fread_ftell_le 4 f
  unfold readInt32
  split <;> rename_i he <;> rw [he] at h <;> exact h

theorem readInt64_contents (order : Order) (f : Stream) : (readInt64 order f).2.contents = f.contents := by
  rw [← FileStream.fread_contents 8 f,readInt64]
  split <;> rename_i h <;> rw [h]

theorem readCounters_contents (order : Order) (n : ℕ) (f : Stream) :
    (readCounters order n f).2.contents = f.contents := by
  induction n generalizing f with
  | zero => rfl
  | succ n ih => exact (ih _).trans (readInt64_contents order f)

theorem readInt32_push (order : Order) (xs : List Byte) (f : Stream) :
    readInt32 order (f.push xs) = ((readInt32 order f).1,(readInt32 order f).2.push xs) := by
  rw [readInt32,FileStream.fread_push,readInt32]
  rcases f.fread 4 with ⟨_ | tmp,g⟩ <;> rfl

theorem readInt64_push (order : Order) (xs : List Byte) (f : Stream) :
    readInt64 order (f.push xs) = ((readInt64 order f).1,(readInt64 order f).2.push xs) := by
  rw [readInt64,FileStream.fread_push,readInt64]
  rcases f.fread 8 with ⟨_ | tmp,g⟩ <;> rfl

theorem readCounters_push (order : Order) (n : ℕ) (xs : List Byte) (f : Stream) :
    readCounters order n (f.push xs) = ((readCounters order n f).1,(readCounters order n f).2.push xs) := by
  induction n generalizing f with
  | zero => rfl
  | succ n ih =>
    rw [readCounters,readInt64_push,readCounters]
    dsimp only
    rw [ih]

/-- Low word first is what a little-endian load of eight bytes expects. -/
theorem readInt64_counterBytes (c : BitVec 64) (b r : List Byte) :
    readInt64 .little ⟨b,counterBytes .little c ++ r⟩ = (c,⟨b ++ counterBytes .little c,r⟩) := by
  have hlo := ofBytes_toBytes_of_lt .little (k := 4) (c.setWidth 32).isLt
  have hhi := ofBytes_toBytes_of_lt .little (k := 4) ((c >>> 32).setWidth 32).isLt
  have hc : ofBytes .little (counterBytes .little c) = c.toNat := by
    have hlt := c.isLt
    rw [counterBytes,ofBytes_little_append,length_word,word,word,hlo,hhi,BitVec.toNat_setWidth,BitVec.toNat_setWidth,
      BitVec.toNat_ushiftRight,Nat.shiftRight_eq_div_pow]
    omega
  rw [readInt64,FileStream.fread_append (length_counterBytes .little c)]
  dsimp only
  rw [hc,BitVec.ofNat_toNat,BitVec.setWidth_eq]

theorem readCounters_countersBytes (n : ℕ) (c : ℕ → BitVec 64) (b r : List Byte) :
    (readCounters .little n ⟨b,countersBytes .little n c ++ r⟩).1 = (List.range n).map c := by
  induction n generalizing c b with
  | zero => rfl
  | succ n ih =>
    rw [countersBytes_cons,List.append_assoc,readCounters,readInt64_counterBytes]
    dsimp only
    rw [ih,List.range_succ_eq_map,List.map_cons,List.map_map]
    rfl

end CompilerRt.Profile
