import CompilerRt.Sanitizer.LargeMmapList
import CompilerRt.Sanitizer.RegionRoom
import Mathlib

/-! # The combined allocator

`CombinedAllocator` of `lib/sanitizer_common/sanitizer_allocator64.h`, with the bytes that the user sees. Where an
operation writes links of free chunks, headers, or mappings, the bytes there are those of its argument `w`.
-/
namespace CompilerRt.Sanitizer

abbrev Memory := ℕ → BitVec 8

namespace Memory

def scribble (m : Memory) (written : ℕ → Bool) (w : Memory) : Memory := fun a => if written a then w a else m a

def internal_memset (m : Memory) (s : ℕ) (c : BitVec 8) (n : ℕ) : Memory :=
  (List.range n).foldl (fun m i => Function.update m (s + i) c) m

def internal_memcpy (m : Memory) (dest src n : ℕ) : Memory :=
  (List.range n).foldl (fun m i => Function.update m (dest + i) (m (src + i))) m

end Memory

/-- The words of the links of nodes. -/
def inNodes (nodes : List ℕ) (a : ℕ) : Bool := nodes.any fun node => node ≤ a && a < node + 8

def inMapping (map_beg map_size a : ℕ) : Bool := map_beg ≤ a && a < map_beg + map_size

def inHeaders (blocks : List Block) (a : ℕ) : Bool :=
  blocks.any fun b => LargeMmap.GetHeader b.res ≤ a && a < LargeMmap.GetHeader b.res + 40

/-- The first block is new: all of its mapping is written, and the headers of the others. -/
def inNewest : List Block → ℕ → Bool
  | [], _ => false
  | b :: blocks, a => inMapping b.map_beg b.map_size a || inHeaders blocks a

namespace Primary
variable {Cache : Type*} (t : Template) (fuel : ℕ) (s : Primary Cache) (k : Cache) (class_id : ℕ)

def freeNodes : List ℕ := s.free_lists_ k class_id ++ (s.regions class_id).free_list

/-- The nodes whose links are written when the list of a cache is filled. -/
def linked : List ℕ :=
  if (s.free_lists_ k class_id).isEmpty then s.freeNodes k class_id ++ s.carves t fuel class_id else []

end Primary

def Template.CanAllocate (t : Template) (size alignment : ℕ) : Bool :=
  size ≤ t.map.kMaxSize && alignment ≤ t.map.kMaxSize

structure Combined (Cache : Type*) where
  primary_ : Primary Cache
  secondary_ : LargeMmap
  memory : Memory

namespace Combined
variable {Cache : Type*} [DecidableEq Cache] (t : DefaultTemplate)

def Init (memory : Memory) : Combined Cache := ⟨Primary.Init,LargeMmap.Init,memory⟩

variable (s : Combined Cache)

/-- One of the two allocators has the memory. -/
def AllocateFrom (k : Cache) (map_beg size alignment : ℕ) (w : Memory) : Option (ℕ × Combined Cache) :=
  if t.CanAllocate size alignment then
    let class_id := t.map.ClassID size
    let nodes := s.primary_.linked t.toTemplate kPopulateSize k class_id
    (s.primary_.Allocate t.toTemplate kPopulateSize k class_id).map fun r =>
      (r.1,⟨r.2,s.secondary_,s.memory.scribble (inNodes nodes) w⟩)
  else
    (s.secondary_.Allocate map_beg size alignment).map fun r =>
      (r.1,if r.1 = 0 then s else ⟨s.primary_,r.2,s.memory.scribble (inNewest r.2.live) w⟩)

/-- Zero bytes are taken for one. -/
def nonzero (size : ℕ) : ℕ := if size = 0 then 1 else size

def rounded (size alignment : ℕ) : Option ℕ := if alignment > 8 then RoundUpTo size alignment else some size

/-- None where a check fails. -/
def Allocate (k : Cache) (map_beg size alignment : ℕ) (cleared : Bool) (w : Memory) : Option (ℕ × Combined Cache) :=
  let size := nonzero size
  if (size + alignment) % 2^64 < size then some (0,s)
  else (rounded size alignment).bind fun size =>
    (s.AllocateFrom t k map_beg size alignment w).bind fun r =>
      if alignment > 8 ∧ r.1 &&& mask alignment ≠ 0 then none
      else if cleared ∧ r.1 ≠ 0 then some (r.1,{ r.2 with memory := r.2.memory.internal_memset r.1 0 size })
      else some r

def Deallocate (k : Cache) (p : ℕ) (w : Memory) : Option (Combined Cache) :=
  if p = 0 then some s
  else if t.PointerIsMine p then
    let class_id := t.GetSizeClass p
    (s.primary_.Deallocate t.toTemplate k class_id p).map fun primary_ =>
      ⟨primary_,s.secondary_,s.memory.scribble (inNodes (p :: s.primary_.freeNodes k class_id)) w⟩
  else
    let r := s.secondary_.Deallocate p
    some ⟨s.primary_,r.2,
      s.memory.scribble (fun a => inMapping r.1.1 r.1.2 a || inHeaders s.secondary_.live a) w⟩

/-- The loop over the list of large blocks ends within a pass for each. -/
def PointerIsMine (p : ℕ) : Option Bool :=
  if t.PointerIsMine p then some true else s.secondary_.PointerIsMine (s.secondary_.live.length + 1) p

def GetActuallyAllocatedSize (p : ℕ) : Option ℕ :=
  if t.PointerIsMine p then t.GetActuallyAllocatedSize p else s.secondary_.GetActuallyAllocatedSize p

def Reallocate (k : Cache) (p map_beg new_size alignment : ℕ) (w w' : Memory) : Option (ℕ × Combined Cache) :=
  if p = 0 then s.Allocate t k map_beg new_size alignment false w
  else if new_size = 0 then (s.Deallocate t k p w').map fun s => (0,s)
  else if s.PointerIsMine t p = some true then
    (s.GetActuallyAllocatedSize t p).bind fun old_size =>
      let memcpy_size := min new_size old_size
      (s.Allocate t k map_beg new_size alignment false w).bind fun r =>
        let copied := if r.1 ≠ 0 then { r.2 with memory := r.2.memory.internal_memcpy r.1 p memcpy_size } else r.2
        (copied.Deallocate t k p w').map fun s => (r.1,s)
  else none

/-- What `Drain` writes are links of the chunks of the cache and of the regions. -/
def SwallowCache (k : Cache) (w : Memory) : Combined Cache :=
  let nodes := (List.range kNumClasses).flatMap (s.primary_.freeNodes k)
  ⟨s.primary_.Drain k,s.secondary_,s.memory.scribble (inNodes nodes) w⟩

/-- A block with all the bytes that it has: those of its chunk, or of its pages. -/
def Live (p n : ℕ) : Prop :=
  (∃ class_id < kNumClasses, p ∈ s.primary_.user class_id ∧ n = t.map.Size class_id) ∨
    ∃ b ∈ s.secondary_.live, p = b.res ∧ n = LargeMmap.pages b.size

/-- The memory of the primary allocator with its `RegionInfo`s is not mapped anew. -/
def Outside (map_beg map_size : ℕ) : Prop :=
  map_beg + map_size ≤ t.kSpaceBeg ∨ t.kSpaceBeg + t.kSpaceSize + 64 * kNumClasses ≤ map_beg

/-- Sizes are words, alignments powers of two, and the memory for a large block is fresh. -/
def Asked (map_beg size alignment : ℕ) : Prop :=
  size < 2^64 ∧ (∃ j < 64, alignment = 2^j) ∧
    ∀ n, rounded (nonzero size) alignment = some n → t.CanAllocate n alignment = false →
      ∀ map_size, LargeMmap.mapSize n alignment = some map_size → n ≤ map_size →
        s.secondary_.Fresh map_beg map_size ∧ Outside t map_beg map_size

inductive Op (Cache : Type*) where
  | Allocate (k : Cache) (map_beg size alignment : ℕ) (cleared : Bool) (w : Memory)
  | Deallocate (k : Cache) (p : ℕ) (w : Memory)
  | Reallocate (k : Cache) (p map_beg new_size alignment : ℕ) (w w' : Memory)
  | SwallowCache (k : Cache) (w : Memory)
  | Write (a : ℕ) (v : BitVec 8)

open Classical in
/-- Pointers that are given back are zero or live, and the user writes to live blocks. -/
noncomputable def step : Op Cache → Option (Combined Cache)
  | .Allocate k map_beg size alignment cleared w =>
    if s.Asked t map_beg size alignment then (s.Allocate t k map_beg size alignment cleared w).map Prod.snd else none
  | .Deallocate k p w => if p = 0 ∨ ∃ n, s.Live t p n then s.Deallocate t k p w else none
  | .Reallocate k p map_beg new_size alignment w w' =>
    if (p = 0 ∨ ∃ n, s.Live t p n) ∧ (p ≠ 0 ∧ new_size = 0 ∨ s.Asked t map_beg new_size alignment) then
      (s.Reallocate t k p map_beg new_size alignment w w').map Prod.snd
    else none
  | .SwallowCache k w => some (s.SwallowCache k w)
  | .Write a v =>
    if ∃ p n, s.Live t p n ∧ p ≤ a ∧ a < p + n then some { s with memory := Function.update s.memory a v } else none

end Combined
end CompilerRt.Sanitizer
