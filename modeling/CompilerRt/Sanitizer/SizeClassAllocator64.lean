import CompilerRt.Lib.Transition
import CompilerRt.Sanitizer.SizeClassMap
import Mathlib

/-! # The size class allocator

`SizeClassAllocator64` and `SizeClassAllocatorLocalCache` of `lib/sanitizer_common/sanitizer_allocator64.h`. A region
for each class is carved into chunks from its beginning, and their metadata grows down from its end. Free lists are the
sequences that the intrusive lists stand for; arithmetic wraps as that of `uptr` does.
-/
namespace CompilerRt.Sanitizer

/-- The arguments of the template, with what is checked of them when it is compiled; `Init` maps the space with the
`RegionInfo`s behind it. -/
structure Template where
  kSpaceBeg : ℕ
  kSpaceSize : ℕ
  kMetadataSize : ℕ
  map : SizeClassMap
  beg_pos : 0 < kSpaceBeg
  size_pow : ∃ b < 64, kSpaceSize = 2^b
  aligned : kSpaceBeg % kSpaceSize = 0
  classes : 256 ≤ map.kNumClasses
  region : 0 < (kSpaceSize / 256) >>> 32
  metadata_lt : kMetadataSize < 2^64
  size_lt : ∀ class_id, map.Size class_id < 2^64
  mapped : kSpaceBeg + kSpaceSize + 64 * 256 ≤ 2^64

/-- One class for all sizes: a page table with chunks of `kPopulateSize` bytes. -/
def plainTemplate (MaxCached : ℕ) : Template where
  kSpaceBeg := 2^44
  kSpaceSize := 2^40
  kMetadataSize := 16
  map := ⟨256,2^18,fun _ => 2^18,fun _ => 0,fun _ => MaxCached⟩
  beg_pos := by decide
  size_pow := ⟨40,by decide,rfl⟩
  aligned := by decide
  classes := le_rfl
  region := by decide
  metadata_lt := by decide
  size_lt := fun _ => Nat.pow_lt_pow_right (by decide) (by decide)
  mapped := by decide

def kNumClasses : ℕ := 256
def kPopulateSize : ℕ := 1 <<< 18

structure RegionInfo where
  free_list : List ℕ
  allocated_user : ℕ
  allocated_meta : ℕ

namespace Template
variable (t : Template)

def kRegionSize : ℕ := t.kSpaceSize / kNumClasses

def regionBeg (class_id : ℕ) : ℕ := t.kSpaceBeg + t.kRegionSize * class_id

/-- The loop of `PopulateFreeList`: the index, the count and the list where it ends. -/
def populate (size region_beg end_idx : ℕ) : ℕ → ℕ → ℕ → List ℕ → Option (ℕ × ℕ × List ℕ)
  | 0, _, _, _ => none
  | fuel + 1, idx, i, free_list =>
    let p := (region_beg + idx) % 2^64
    let idx' := (idx + size) % 2^64
    if idx' < end_idx then populate size region_beg end_idx fuel idx' (i + 1) (p :: free_list)
    else some (idx',i + 1,p :: free_list)

/-- None where the loop does not end, or where the region is exhausted. -/
def PopulateFreeList (fuel class_id : ℕ) (region : RegionInfo) : Option RegionInfo := do
  let size := t.map.Size class_id
  let beg_idx := region.allocated_user
  let end_idx := (beg_idx + kPopulateSize) % 2^64
  let (idx,i,free_list) ← populate size (t.regionBeg class_id) end_idx fuel beg_idx 0 []
  let allocated_user := (region.allocated_user + (idx + (2^64 - beg_idx))) % 2^64
  let allocated_meta := (region.allocated_meta + i * t.kMetadataSize) % 2^64
  if (allocated_user + allocated_meta) % 2^64 < t.kRegionSize then return ⟨free_list,allocated_user,allocated_meta⟩
  else none

/-- A node is moved from the front of one list to the front of another, `count` times. -/
def moveFront : ℕ → List ℕ → List ℕ → Option (List ℕ × List ℕ)
  | 0, l, l' => some (l,l')
  | _ + 1, [], _ => none
  | count + 1, node :: l, l' => moveFront count l (node :: l')

/-- The region with a free list that is not empty. -/
def populated (fuel class_id : ℕ) (region : RegionInfo) : Option RegionInfo :=
  if region.free_list.isEmpty then t.PopulateFreeList fuel class_id region else some region

def BulkAllocate (fuel class_id : ℕ) (region : RegionInfo) (free_list : List ℕ) :
    Option (RegionInfo × List ℕ) :=
  (t.populated fuel class_id region).bind fun region =>
    if region.free_list.isEmpty then none
    else
      let count := t.map.MaxCached class_id
      let moved :=
        if region.free_list.length ≤ count then some ([],region.free_list ++ free_list)
        else moveFront count region.free_list free_list
      moved.bind fun m => if m.2.isEmpty then none else some ({ region with free_list := m.1 },m.2)

end Template

/-- Swallow the entire list. -/
def BulkDeallocate (region : RegionInfo) (free_list : List ℕ) : RegionInfo :=
  { region with free_list := free_list ++ region.free_list }

/-- The regions, the lists of the caches, and what the user has; `carved` are the chunks that ever were, in order. -/
structure Primary (Cache : Type*) where
  regions : ℕ → RegionInfo
  free_lists_ : Cache → ℕ → List ℕ
  user : ℕ → List ℕ
  carved : ℕ → List ℕ

namespace Primary
variable {Cache : Type*} [DecidableEq Cache] (t : Template) (fuel : ℕ)

def Init : Primary Cache := ⟨fun _ => ⟨[],0,0⟩,fun _ _ => [],fun _ => [],fun _ => []⟩

variable (s : Primary Cache)

def setRegion (class_id : ℕ) (region : RegionInfo) : Primary Cache :=
  { s with regions := Function.update s.regions class_id region }

def setList (k : Cache) (class_id : ℕ) (l : List ℕ) : Primary Cache :=
  { s with free_lists_ := Function.update s.free_lists_ k (Function.update (s.free_lists_ k) class_id l) }

def setUser (class_id : ℕ) (l : List ℕ) : Primary Cache :=
  { s with user := Function.update s.user class_id l }

/-- The chunks that the next `BulkAllocate` carves. -/
def carves (class_id : ℕ) : List ℕ :=
  if (s.regions class_id).free_list.isEmpty then
    ((t.PopulateFreeList fuel class_id (s.regions class_id)).map fun r => r.free_list.reverse).getD []
  else []

/-- `BulkAllocate` for a list of a cache. -/
def refill (k : Cache) (class_id : ℕ) : Option (Primary Cache) :=
  (t.BulkAllocate fuel class_id (s.regions class_id) (s.free_lists_ k class_id)).map fun r =>
    { (s.setRegion class_id r.1).setList k class_id r.2 with
      carved := Function.update s.carved class_id (s.carved class_id ++ s.carves t fuel class_id) }

/-- The first chunk of the list goes to the user. -/
def take (k : Cache) (class_id : ℕ) : Option (ℕ × Primary Cache) :=
  match s.free_lists_ k class_id with
  | [] => none
  | p :: l => some (p,(s.setList k class_id l).setUser class_id (p :: s.user class_id))

def Allocate (k : Cache) (class_id : ℕ) : Option (ℕ × Primary Cache) :=
  if class_id < kNumClasses then
    if (s.free_lists_ k class_id).isEmpty then (s.refill t fuel k class_id).bind fun s' => s'.take k class_id
    else s.take k class_id
  else none

def DrainHalf (k : Cache) (class_id : ℕ) : Option (Primary Cache) :=
  let count := (s.free_lists_ k class_id).length / 2
  (Template.moveFront count (s.free_lists_ k class_id) []).map fun r =>
    (s.setList k class_id r.1).setRegion class_id (BulkDeallocate (s.regions class_id) r.2)

/-- The user gives a chunk back. -/
def give (k : Cache) (class_id p : ℕ) : Primary Cache :=
  (s.setUser class_id ((s.user class_id).erase p)).setList k class_id (p :: s.free_lists_ k class_id)

def Deallocate (k : Cache) (class_id p : ℕ) : Option (Primary Cache) :=
  if class_id < kNumClasses then
    let s' := s.give k class_id p
    if (s'.free_lists_ k class_id).length ≥ 2 * t.map.MaxCached class_id then s'.DrainHalf k class_id else some s'
  else none

/-- One pass of the loop of `Drain`. -/
def drainClass (k : Cache) (s : Primary Cache) (class_id : ℕ) : Primary Cache :=
  (s.setRegion class_id (BulkDeallocate (s.regions class_id) (s.free_lists_ k class_id))).setList k class_id []

def Drain (k : Cache) : Primary Cache := (List.range kNumClasses).foldl (drainClass k) s

inductive Op (Cache : Type*) where
  | Allocate (k : Cache) (class_id : ℕ)
  | Deallocate (k : Cache) (class_id p : ℕ)
  | Drain (k : Cache)

/-- Chunks that are given back are those of the user. -/
def step : Op Cache → Option (Primary Cache)
  | .Allocate k class_id => (s.Allocate t fuel k class_id).map Prod.snd
  | .Deallocate k class_id p => if p ∈ s.user class_id then s.Deallocate t k class_id p else none
  | .Drain k => some (s.Drain k)

end Primary
end CompilerRt.Sanitizer
