import CompilerRt.Asan.SizeClasses
import CompilerRt.Lib.FlatMemory
import CompilerRt.Sanitizer.StackTrace
import Mathlib

/-! # Chunks

`AsanChunk` of `lib/asan/asan_allocator.cc`: the header of a chunk as bytes of the memory, and the stacks behind it.
-/
namespace CompilerRt.AsanAllocator
open Sanitizer

/-- Why a function does not return. -/
inductive Stop
  | check
  | mmap
  | doubleFree
  | freeNotMalloced
  deriving DecidableEq, Repr

def CHECK (p : Prop) [Decidable p] : Except Stop Unit := if p then .ok () else .error .check

/-- A result that is there unless a check fails. -/
def checked {α : Type*} (o : Option α) : Except Stop α := o.elim (.error .check) .ok

section Results
variable {α β : Type} {p : Prop} [Decidable p] {o : Option α} {x : Except Stop α} {f : α → Except Stop β} {a : α} {b : β}

@[simp] theorem CHECK_eq_ok {u : Unit} : CHECK p = .ok u ↔ p := by
  rw [CHECK]
  split_ifs with h
  · exact iff_of_true rfl h
  · exact iff_of_false nofun h

theorem CHECK_of (h : p) : CHECK p = .ok () := if_pos h

@[simp] theorem checked_eq_ok : checked o = .ok a ↔ o = some a := by
  cases o with
  | none => exact iff_of_false nofun nofun
  | some b => simp [checked]

@[simp] theorem checked_some : checked (some a) = .ok a := rfl

@[simp] theorem bind_eq_ok : x >>= f = .ok b ↔ ∃ a, x = .ok a ∧ f a = .ok b := by
  cases x with
  | error e => exact iff_of_false nofun nofun
  | ok a => simp [bind, Except.bind]

@[simp] theorem ok_bind : (.ok a : Except Stop α) >>= f = f a := rfl

theorem toOption_eq_some : x.toOption = some a ↔ x = .ok a := by
  cases x with
  | error e => simp [Except.toOption]
  | ok b => simp [Except.toOption]

@[simp] theorem pure_eq_ok : (pure a : Except Stop α) = .ok a := rfl

/-- A call ends with the property, or for want of memory; a check can fail in it only where `bad` holds. -/
def Runs (bad : Prop) (x : Except Stop α) (P : α → Prop) : Prop :=
  match x with
  | .ok a => P a
  | .error .mmap => True
  | .error .check => bad
  | .error _ => False

namespace Runs
variable {bad : Prop} {P Q : α → Prop} {R : β → Prop}

theorem ok (h : P a) : Runs bad (.ok a) P := h

theorem of_eq (hx : x = .ok a) (h : P a) : Runs bad x P := hx ▸ h

theorem of_exists (h : ∃ a, x = .ok a ∧ P a) : Runs bad x P := h.elim fun _ ⟨hx,ha⟩ => of_eq hx ha

theorem bind (hx : Runs bad x P) (hf : ∀ a, P a → Runs bad (f a) R) : Runs bad (x >>= f) R := by
  cases x with
  | ok a => exact hf a hx
  | error e => cases e <;> exact hx

theorem check (h : ¬bad → p) : Runs bad (CHECK p) fun _ => p := by
  rw [CHECK]
  split_ifs with hp
  · exact hp
  · exact by_contra fun hbad => hp (h hbad)

theorem mono (hx : Runs bad x P) (h : ∀ a, P a → Q a) : Runs bad x Q := by
  cases x with
  | ok a => exact h a hx
  | error e => cases e <;> exact hx

/-- A call that has ended. -/
theorem of_ok (hx : Runs bad x P) (h : x = .ok a) : P a := by
  subst h
  exact hx

/-- Where no check can fail, memory is all that a call can lack. -/
theorem ok_or_mmap (hx : Runs False x P) : (∃ a, x = .ok a) ∨ x = .error .mmap := by
  cases x with
  | ok a => exact .inl ⟨a,rfl⟩
  | error e =>
    cases e with
    | mmap => exact .inr rfl
    | check => exact hx.elim
    | doubleFree => exact hx.elim
    | freeNotMalloced => exact hx.elim

theorem error_mmap : Runs bad (.error .mmap : Except Stop α) P := trivial

end Runs

attribute [irreducible] Runs

end Results

/-- The flags, which have passed the checks of `ParseFlagsFromString`. -/
structure Flags where
  redzone : ℕ
  quarantine_size : ℤ
  max_malloc_fill_size : ℕ
  debug : Bool
  redzone_pow : ∃ j, 4 ≤ j ∧ j ≤ 30 ∧ redzone = 2^j

inductive Field
  | chunk_state
  | alloc_tid
  | size_class
  | free_tid
  | alignment_log
  | used_size
  | next
  deriving DecidableEq

def Field.offset : Field → ℕ
  | .chunk_state => 0
  | .alloc_tid => 1
  | .size_class => 4
  | .free_tid => 5
  | .alignment_log => 8
  | .used_size => 9
  | .next => 16

def Field.bytes : Field → ℕ
  | .chunk_state => 1
  | .alloc_tid => 3
  | .size_class => 1
  | .free_tid => 3
  | .alignment_log => 1
  | .used_size => 7
  | .next => 8

theorem Field.le_bytes (f : Field) : f.offset + f.bytes ≤ 24 := by cases f <;> decide

def CHUNK_AVAILABLE : ℕ := 0x57
def CHUNK_ALLOCATED : ℕ := 0x32
def CHUNK_QUARANTINE : ℕ := 0x19
def CHUNK_MEMALIGN : ℕ := 0xDC
def kInvalidTid : ℕ := 0xffffff

namespace AsanChunk

def get (mem : FlatMemory) (m : ℕ) (f : Field) : ℕ := mem.load (m + f.offset) f.bytes
def set (mem : FlatMemory) (m : ℕ) (f : Field) (v : ℕ) : FlatMemory := mem.store (m + f.offset) f.bytes v

/-- `1 << n` as an `int`, which extends with its sign; the processor takes the low five bits of the count. -/
def intShl (n : ℕ) : ℕ := if n % 32 = 31 then 2^64 - 2^31 else 2^(n % 32)

def Beg (mem : FlatMemory) (m : ℕ) : Option ℕ := RoundUpTo (m + 1) (intShl (get mem m .alignment_log))
def Size (mem : FlatMemory) (m : ℕ) : Option ℕ := SizeClassToSize (get mem m .size_class)

def sizeofChunkBase : ℕ := 24

def compressed_alloc_stack (m : ℕ) : ℕ := m + sizeofChunkBase
def compressed_free_stack (redzone m : ℕ) : ℕ := m + max redzone sizeofChunkBase

def compressed_alloc_stack_size (redzone : ℕ) : ℕ :=
  if redzone < sizeofChunkBase then 0 else (redzone - sizeofChunkBase) / 4

def compressed_free_stack_size (redzone : ℕ) : ℕ := if redzone < sizeofChunkBase then 0 else redzone / 4

def words (mem : FlatMemory) (base : ℕ) : StackTrace.Buffer := fun i => BitVec.ofNat 32 (mem.load (base + 4 * i) 4)

def setWords (mem : FlatMemory) (base n : ℕ) (compressed : StackTrace.Buffer) : FlatMemory := fun a =>
  if base ≤ a ∧ a < base + 4 * n then (compressed ((a - base) / 4)).extractLsb' (8 * ((a - base) % 4)) 8 else mem a

def CompressStack (stack : StackTrace 64) (mem : FlatMemory) (compressed size : ℕ) : Option FlatMemory :=
  (StackTrace.CompressStack size stack (words mem compressed)).map fun r => setWords mem compressed size r.1

/-! ## Fields -/

variable {mem mem' : FlatMemory} {m m' v base n a : ℕ} {f g : Field}

theorem get_congr (h : ∀ a, m + f.offset ≤ a → a < m + f.offset + f.bytes → mem' a = mem a) :
    get mem' m f = get mem m f := FlatMemory.load_congr h

theorem get_set (h : v < 256^f.bytes) : get (set mem m f v) m f = v := FlatMemory.load_store_of_lt h

/-- The fields do not overlap. -/
theorem get_set_of_ne (h : g ≠ f) : get (set mem m f v) m g = get mem m g := by
  have happart : f.offset + f.bytes ≤ g.offset ∨ g.offset + g.bytes ≤ f.offset := by
    revert h
    cases f <;> cases g <;> decide
  exact FlatMemory.load_store_apart (by omega)

theorem set_outside (h : a < m + f.offset ∨ m + f.offset + f.bytes ≤ a) : set mem m f v a = mem a :=
  FlatMemory.store_outside h

/-- Headers do not overlap. -/
theorem get_set_apart (h : m + 24 ≤ m' ∨ m' + 24 ≤ m) : get (set mem m f v) m' g = get mem m' g := by
  have hf := f.le_bytes
  have hg := g.le_bytes
  exact FlatMemory.load_store_apart (by omega)

/-! ## Stacks -/

theorem setWords_outside {compressed : StackTrace.Buffer} (h : a < base ∨ base + 4 * n ≤ a) :
    setWords mem base n compressed a = mem a := if_neg (by omega)

theorem compressStack_isSome (stack : StackTrace 64) (mem : FlatMemory) (base n : ℕ) :
    ∃ mem', CompressStack stack mem base n = some mem' := by
  obtain ⟨b',k,h⟩ := StackTrace.compressLoop_spec 0 0 (Nat.zero_le n)
    (words mem base) 0
  rw [CompressStack, StackTrace.CompressStack, h.loop]
  exact ⟨_,rfl⟩

theorem compressStack_outside {stack : StackTrace 64} (h : CompressStack stack mem base n = some mem')
    (ha : a < base ∨ base + 4 * n ≤ a) : mem' a = mem a := by
  simp only [CompressStack, Option.map_eq_some_iff] at h
  obtain ⟨r,-,rfl⟩ := h
  exact setWords_outside ha

end AsanChunk

end CompilerRt.AsanAllocator
