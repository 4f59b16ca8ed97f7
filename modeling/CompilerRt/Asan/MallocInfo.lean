import CompilerRt.Asan.Chunk
import CompilerRt.Asan.PoisonShadow
import CompilerRt.Sanitizer.SortArray
import Mathlib

/-! # Lists of chunks

`AsanChunkFifoList` and `MallocInfo` of `lib/asan/asan_allocator.cc` on a 64-bit word, with the memory and its shadow.
The statistics are left out.
-/
namespace CompilerRt.AsanAllocator
open Sanitizer AsanMapping
open AsanChunk (get set Size)

def kMinMmapSize : ℕ := 4 <<< 20
def kMaxAvailableRam : ℕ := 128 <<< 30
def kMaxThreadLocalQuarantine : ℕ := 1 <<< 20
def kMaxSizeForThreadLocalFreeList : ℕ := 1 <<< 17
def kAsanHeapLeftRedzoneMagic : BitVec 8 := 0xfa
def kAsanHeapRightRedzoneMagic : BitVec 8 := 0xfb
def kAsanHeapFreeMagic : BitVec 8 := 0xfd

structure AsanChunkFifoList where
  first_ : ℕ
  last_ : ℕ
  size_ : ℕ
  deriving DecidableEq

namespace AsanChunkFifoList

def clear : AsanChunkFifoList := ⟨0,0,0⟩

def PushList (q x : AsanChunkFifoList) (mem : FlatMemory) : Except Stop (AsanChunkFifoList × FlatMemory) := do
  CHECK (x.size_ > 0)
  let (first_,last_,mem) ← if q.last_ ≠ 0 then do
      CHECK (q.first_ ≠ 0)
      CHECK (get mem q.last_ .next = 0)
      pure (q.first_,x.last_,set mem q.last_ .next x.first_)
    else do
      CHECK (q.first_ = 0)
      CHECK (x.first_ ≠ 0)
      pure (x.first_,x.last_,mem)
  CHECK (last_ ≠ 0)
  CHECK (get mem last_ .next = 0)
  pure (⟨first_,last_,q.size_ + x.size_⟩,mem)

def Push (q : AsanChunkFifoList) (n : ℕ) (mem : FlatMemory) : Except Stop (AsanChunkFifoList × FlatMemory) := do
  CHECK (get mem n .next = 0)
  let (first_,mem) ← if q.last_ ≠ 0 then do
      CHECK (q.first_ ≠ 0)
      CHECK (get mem q.last_ .next = 0)
      pure (q.first_,set mem q.last_ .next n)
    else do
      CHECK (q.first_ = 0)
      pure (n,mem)
  let size ← checked (Size mem n)
  pure (⟨first_,n,q.size_ + size⟩,mem)

def Pop (q : AsanChunkFifoList) (mem : FlatMemory) : Except Stop (ℕ × AsanChunkFifoList) := do
  CHECK (q.first_ ≠ 0)
  let res := q.first_
  let first_ := get mem res .next
  let last_ := if first_ = 0 then 0 else q.last_
  let size ← checked (Size mem res)
  CHECK (q.size_ ≥ size)
  CHECK (last_ = 0 ∨ get mem last_ .next = 0)
  pure (res,⟨first_,last_,q.size_ - size⟩)

end AsanChunkFifoList

/-- What is stored behind the last chunk of a group. -/
structure PageGroup where
  beg : ℕ
  end_ : ℕ
  size_of_chunk : ℕ
  last_chunk : ℕ
  deriving DecidableEq

namespace PageGroup

def read (mem : FlatMemory) (pg : ℕ) : PageGroup :=
  ⟨mem.load pg 8,mem.load (pg + 8) 8,mem.load (pg + 16) 8,mem.load (pg + 24) 8⟩

def write (mem : FlatMemory) (pg : ℕ) (g : PageGroup) : FlatMemory :=
  (((mem.store pg 8 g.beg).store (pg + 8) 8 g.end_).store (pg + 16) 8 g.size_of_chunk).store (pg + 24) 8 g.last_chunk

def InRange (g : PageGroup) (addr : ℕ) : Bool := addr ≥ g.beg && addr < g.end_

end PageGroup

structure AsanThreadLocalMallocStorage where
  quarantine_ : AsanChunkFifoList
  free_lists_ : ℕ → ℕ

/-- The state of `malloc_info`, of the memory, and of the threads that there are. -/
structure MallocInfo where
  memory : FlatMemory
  shadow : Shadow
  free_lists_ : ℕ → ℕ
  quarantine_ : AsanChunkFifoList
  page_groups_ : List ℕ
  n_sorted_page_groups_ : ℕ
  threads : ℕ → Option AsanThreadLocalMallocStorage

namespace MallocInfo
variable (flags : Flags) (mmap : ℕ → ℕ) (s : MallocInfo)

/-- Zeroed pages of the application that are not mapped yet; `mmap` tells where the kernel puts them for a group. -/
def MmapOrDie (size : ℕ) : Except Stop (ℕ × MallocInfo) :=
  let res := mmap s.page_groups_.length
  let inLow := WordSize.w64.AddrIsInLowMem res && WordSize.w64.AddrIsInLowMem (res + size)
  let inHigh := WordSize.w64.AddrIsInHighMem res && WordSize.w64.AddrIsInHighMem (res + size)
  let apart := s.page_groups_.all fun pg =>
    let g := PageGroup.read s.memory pg
    res + size ≤ g.beg || g.end_ ≤ res
  if res ≠ 0 ∧ res % Sanitizer.kPageSize = 0 ∧ (inLow || inHigh) ∧ apart then
    .ok (res,{ s with memory := s.memory.fill res size 0 })
  else .error .mmap

def MmapNewPagesAndPoisonShadow (size : ℕ) : Except Stop (ℕ × MallocInfo) := do
  CHECK (IsAligned size Sanitizer.kPageSize)
  let (res,s) ← s.MmapOrDie mmap size
  let shadow ← checked (PoisonShadow .w64 s.shadow res size kAsanHeapLeftRedzoneMagic)
  pure (res,{ s with shadow := shadow })

/-- The loop over the first `n` chunks of a group, and the list of them. -/
def newChunks (mem : FlatMemory) (beg size size_class : ℕ) : ℕ → FlatMemory × ℕ
  | 0 => (mem,0)
  | n + 1 =>
    let (mem,res) := newChunks mem beg size size_class n
    let m := beg + n * size
    (set (set (set mem m .chunk_state CHUNK_AVAILABLE) m .size_class size_class) m .next res,m)

/-- The number of chunks of a group and the size of its mapping. -/
def groupSizes (size : ℕ) : ℕ × ℕ :=
  let mmap_size := max size kMinMmapSize
  let n_chunks := mmap_size / size
  if size < Sanitizer.kPageSize then (n_chunks - 1,mmap_size) else (n_chunks,mmap_size + Sanitizer.kPageSize)

def GetNewChunks (size_class : ℕ) : Except Stop (ℕ × MallocInfo) := do
  let size ← checked (SizeClassToSize size_class)
  CHECK (IsPowerOfTwo kMinMmapSize)
  CHECK (size < kMinMmapSize ∨ size % kMinMmapSize = 0)
  CHECK (max size kMinMmapSize / size * size = max size kMinMmapSize)
  let (n_chunks,mmap_size) := groupSizes size
  CHECK (n_chunks > 0)
  let (beg,s) ← s.MmapNewPagesAndPoisonShadow mmap mmap_size
  let (mem,res) := newChunks s.memory beg size size_class n_chunks
  let pg := beg + n_chunks * size
  let memory := PageGroup.write mem pg ⟨beg,beg + mmap_size,size,beg + size * (n_chunks - 1)⟩
  CHECK (s.page_groups_.length < kMaxAvailableRam / kMinMmapSize)
  pure (res,{ s with memory := memory, page_groups_ := s.page_groups_ ++ [pg] })

/-- New chunks for a class that has no free one. -/
def refill (size_class : ℕ) : Except Stop MallocInfo :=
  if s.free_lists_ size_class = 0 then do
    let (res,s) ← s.GetNewChunks mmap size_class
    pure { s with free_lists_ := Function.update s.free_lists_ size_class res }
  else pure s

/-- The loop of `AllocateChunks`, with the list of the chunks that it has taken. -/
def AllocateChunks (size_class : ℕ) : ℕ → ℕ → MallocInfo → Except Stop (ℕ × MallocInfo)
  | 0, m, s => pure (m,s)
  | n_chunks + 1, m, s => do
    let s ← s.refill mmap size_class
    let t := s.free_lists_ size_class
    let fl := get s.memory t .next
    let s := { s with memory := set s.memory t .next m, free_lists_ := Function.update s.free_lists_ size_class fl }
    CHECK (get s.memory t .chunk_state = CHUNK_AVAILABLE)
    AllocateChunks size_class n_chunks t s

def QuarantinePop : Except Stop MallocInfo := do
  CHECK (s.quarantine_.size_ > 0)
  let (m,quarantine_) ← s.quarantine_.Pop s.memory
  CHECK (m ≠ 0)
  CHECK (get s.memory m .chunk_state = CHUNK_QUARANTINE)
  let mem := set s.memory m .chunk_state CHUNK_AVAILABLE
  let size ← checked (Size mem m)
  let shadow ← checked (PoisonShadow .w64 s.shadow m size kAsanHeapLeftRedzoneMagic)
  let size_class := get mem m .size_class
  pure { s with
    memory := set mem m .next (s.free_lists_ size_class)
    shadow := shadow
    free_lists_ := Function.update s.free_lists_ size_class m
    quarantine_ := quarantine_ }

/-- Addresses are words, so that no list is longer. -/
def kMaxRounds : ℕ := 2^64

/-- The loop that pops until the quarantine is small enough. -/
def shrink : ℕ → MallocInfo → Except Stop MallocInfo
  | 0, _ => .error .check
  | fuel + 1, s =>
    if s.quarantine_.size_ > flags.quarantine_size.toNat then s.QuarantinePop >>= shrink fuel else pure s

/-- The loop that puts the chunks of a list from `m` on before the free list of the class. -/
def eatList (size_class : ℕ) : ℕ → ℕ → MallocInfo → Except Stop MallocInfo
  | 0, _, _ => .error .check
  | fuel + 1, m, s =>
    if m = 0 then pure s
    else
      eatList size_class fuel (get s.memory m .next) { s with
        memory := set s.memory m .next (s.free_lists_ size_class)
        free_lists_ := Function.update s.free_lists_ size_class m }

/-- One round of the loop over the classes. -/
def eatClass (t size_class : ℕ) : Except Stop MallocInfo :=
  match s.threads t with
  | none => pure s
  | some x => do
    let s ← eatList size_class kMaxRounds (x.free_lists_ size_class) s
    let x := { x with free_lists_ := Function.update x.free_lists_ size_class 0 }
    pure { s with threads := Function.update s.threads t (some x) }

/-- The storage is that of a thread. -/
def SwallowThreadLocalMallocStorage (t : ℕ) (eat_free_lists : Bool) : Except Stop MallocInfo :=
  match s.threads t with
  | none => pure s
  | some x => do
    CHECK (flags.quarantine_size > 0)
    let s ← if x.quarantine_.size_ > 0 then do
        let (quarantine_,memory) ← s.quarantine_.PushList x.quarantine_ s.memory
        let x := { x with quarantine_ := .clear }
        shrink flags kMaxRounds { s with
          quarantine_ := quarantine_
          memory := memory
          threads := Function.update s.threads t (some x) }
      else pure s
    if eat_free_lists then (List.range kNumberOfSizeClasses).foldlM (fun s size_class => s.eatClass t size_class) s
    else pure s

def BypassThreadLocalQuarantine (chunk : ℕ) : Except Stop MallocInfo := do
  let (quarantine_,memory) ← s.quarantine_.Push chunk s.memory
  pure { s with quarantine_ := quarantine_, memory := memory }

/-- The binary search for the first group that is not below the address. -/
def search (page_groups_ : List ℕ) (addr : ℕ) : ℕ → ℕ → ℕ → ℕ
  | 0, beg, _ => beg
  | fuel + 1, beg, last =>
    if beg < last then
      let med := (beg + last) / 2
      if addr > page_groups_.getD med 0 then search page_groups_ addr fuel (med + 1) last
      else search page_groups_ addr fuel beg med
    else beg

/-- The groups, sorted where some are new. -/
def sortPageGroups : Except Stop MallocInfo :=
  let n := s.page_groups_.length
  if s.n_sorted_page_groups_ < n then do
    let sorted ← checked (SortArray s.page_groups_.toArray)
    pure { s with page_groups_ := sorted.toList, n_sorted_page_groups_ := n }
  else pure s

/-- Zero where no group has the address. -/
def FindPageGroupUnlocked (addr : ℕ) : Except Stop (ℕ × MallocInfo) := do
  let s ← s.sortPageGroups
  let n := s.page_groups_.length
  let beg := search s.page_groups_ addr n 0 n
  if beg ≥ n then pure (0,s)
  else do
    let g := s.page_groups_.getD beg 0
    CHECK (g ≠ 0)
    pure (if (PageGroup.read s.memory g).InRange addr then g else 0,s)

end MallocInfo

end CompilerRt.AsanAllocator
