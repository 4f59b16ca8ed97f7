import CompilerRt.Asan.Allocating
import CompilerRt.Asan.Allocator
import CompilerRt.Asan.Chunk
import CompilerRt.Asan.ChunkChange
import CompilerRt.Asan.ChunkLists
import CompilerRt.Asan.Deallocating
import CompilerRt.Asan.DescribeStack
import CompilerRt.Asan.FakeStack
import CompilerRt.Asan.FindChunk
import CompilerRt.Asan.Globals
import CompilerRt.Asan.HandOut
import CompilerRt.Asan.HeapBlocks
import CompilerRt.Asan.HeapLayout
import CompilerRt.Asan.HeapProperties
import CompilerRt.Asan.HeapRuns
import CompilerRt.Asan.Interceptors
import CompilerRt.Asan.MallocInfo
import CompilerRt.Asan.MallocInterface
import CompilerRt.Asan.Mapping
import CompilerRt.Asan.NewChunks
import CompilerRt.Asan.PageGroups
import CompilerRt.Asan.PoisonShadow
import CompilerRt.Asan.Poisoning
import CompilerRt.Asan.Quarantine
import CompilerRt.Asan.QuarantineRuns
import CompilerRt.Asan.SizeClasses
import CompilerRt.Asan.Swallow
import CompilerRt.Asan.TakeChunk
import CompilerRt.Asan.ThreadEnd
import CompilerRt.Atomic.Atomic
import CompilerRt.Atomic.Generic
import CompilerRt.Atomic.Linearize
import CompilerRt.Atomic.Sequential
import CompilerRt.Atomic.Shapes
import CompilerRt.Atomic.Threads
import CompilerRt.Blocks.Refcount
import CompilerRt.Blocks.Runtime
import CompilerRt.Builtins.CShift
import CompilerRt.Builtins.CheckedArithmetic
import CompilerRt.Builtins.ComplexMul
import CompilerRt.Builtins.CountOnes
import CompilerRt.Builtins.CountZeros
import CompilerRt.Builtins.Divdi3
import CompilerRt.Builtins.FloatDi
import CompilerRt.Builtins.FloatDiRounds
import CompilerRt.Builtins.FloatDiSoft
import CompilerRt.Builtins.FloatDigits
import CompilerRt.Builtins.FpAdd
import CompilerRt.Builtins.FpAddRounds
import CompilerRt.Builtins.FpCompare
import CompilerRt.Builtins.FpConvert
import CompilerRt.Builtins.FpDiv
import CompilerRt.Builtins.FpDivRounds
import CompilerRt.Builtins.FpDivShifts
import CompilerRt.Builtins.FpExtend
import CompilerRt.Builtins.FpFields
import CompilerRt.Builtins.FpLib
import CompilerRt.Builtins.FpMul
import CompilerRt.Builtins.FpMulRounds
import CompilerRt.Builtins.FpMulShifts
import CompilerRt.Builtins.FpQuotient
import CompilerRt.Builtins.FpReciprocal
import CompilerRt.Builtins.FpRounds
import CompilerRt.Builtins.FpShifts
import CompilerRt.Builtins.FpSticky
import CompilerRt.Builtins.FpToInt
import CompilerRt.Builtins.FpTrunc
import CompilerRt.Builtins.IntToFloat
import CompilerRt.Builtins.Multiply
import CompilerRt.Builtins.PatmosDivision
import CompilerRt.Builtins.PatmosUdivsi3
import CompilerRt.Builtins.Powidf2
import CompilerRt.Builtins.SignedDivision
import CompilerRt.Builtins.TwoWords
import CompilerRt.Builtins.Udivmod
import CompilerRt.Builtins.UdivmodRight
import CompilerRt.Lib.ArrayHeap
import CompilerRt.Lib.ArrayLoop
import CompilerRt.Lib.BinaryFormat
import CompilerRt.Lib.BinaryInteger
import CompilerRt.Lib.BinaryOrder
import CompilerRt.Lib.BinaryRounding
import CompilerRt.Lib.BitMask
import CompilerRt.Lib.BlockFold
import CompilerRt.Lib.BoundedQueue
import CompilerRt.Lib.ByteOrder
import CompilerRt.Lib.Chain
import CompilerRt.Lib.DoublyLinked
import CompilerRt.Lib.FileStream
import CompilerRt.Lib.FlatMemory
import CompilerRt.Lib.Interleaving
import CompilerRt.Lib.Leb128
import CompilerRt.Lib.Linearizability
import CompilerRt.Lib.LinkedQueue
import CompilerRt.Lib.NearestEven
import CompilerRt.Lib.Phases
import CompilerRt.Lib.Program
import CompilerRt.Lib.ReciprocalStep
import CompilerRt.Lib.ReflectedWalk
import CompilerRt.Lib.RestoringDivision
import CompilerRt.Lib.RingLog
import CompilerRt.Lib.RoundDiv
import CompilerRt.Lib.RwLock
import CompilerRt.Lib.ShiftingPair
import CompilerRt.Lib.SignMask
import CompilerRt.Lib.SignedRange
import CompilerRt.Lib.SplitProduct
import CompilerRt.Lib.Spread
import CompilerRt.Lib.TextBlock
import CompilerRt.Lib.Transition
import CompilerRt.Lib.VectorClock
import CompilerRt.Lib.WhileLoop
import CompilerRt.Lib.WordFields
import CompilerRt.Profile.Accumulate
import CompilerRt.Profile.Blocked
import CompilerRt.Profile.Framing
import CompilerRt.Profile.GCDAProfiling
import CompilerRt.Profile.Recovery
import CompilerRt.Sanitizer.BlockLookup
import CompilerRt.Sanitizer.ChunkLayout
import CompilerRt.Sanitizer.CombinedAllocation
import CompilerRt.Sanitizer.CombinedAllocator
import CompilerRt.Sanitizer.CombinedBlocks
import CompilerRt.Sanitizer.CombinedRuns
import CompilerRt.Sanitizer.Conservation
import CompilerRt.Sanitizer.FastUnwind
import CompilerRt.Sanitizer.Flags
import CompilerRt.Sanitizer.IntrusiveList
import CompilerRt.Sanitizer.LargeMmap
import CompilerRt.Sanitizer.LargeMmapList
import CompilerRt.Sanitizer.Libc
import CompilerRt.Sanitizer.Memmove
import CompilerRt.Sanitizer.Printf
import CompilerRt.Sanitizer.ProcMaps
import CompilerRt.Sanitizer.ReadFile
import CompilerRt.Sanitizer.RegionRoom
import CompilerRt.Sanitizer.SizeClassAllocator64
import CompilerRt.Sanitizer.SizeClassMap
import CompilerRt.Sanitizer.Snprintf
import CompilerRt.Sanitizer.SortArray
import CompilerRt.Sanitizer.StackTrace
import CompilerRt.Sanitizer.Symbolizer
import CompilerRt.Sanitizer.SymbolizerProtocol
import CompilerRt.Sanitizer.SymbolizerResponse
import CompilerRt.StackDepot.Alloc
import CompilerRt.StackDepot.Depot
import CompilerRt.StackDepot.Ids
import CompilerRt.StackDepot.Invariant
import CompilerRt.StackDepot.Put
import CompilerRt.StackDepot.Safe
import CompilerRt.Tsan.AccessRange
import CompilerRt.Tsan.Atomic
import CompilerRt.Tsan.Bounded
import CompilerRt.Tsan.Clock
import CompilerRt.Tsan.ClockMemory
import CompilerRt.Tsan.Clocks
import CompilerRt.Tsan.DeadList
import CompilerRt.Tsan.Freed
import CompilerRt.Tsan.HappensBefore
import CompilerRt.Tsan.History
import CompilerRt.Tsan.Incarnations
import CompilerRt.Tsan.Machine
import CompilerRt.Tsan.Md5
import CompilerRt.Tsan.Mutex
import CompilerRt.Tsan.NoFalseRace
import CompilerRt.Tsan.Once
import CompilerRt.Tsan.Order
import CompilerRt.Tsan.Platform
import CompilerRt.Tsan.RaceReports
import CompilerRt.Tsan.Registry
import CompilerRt.Tsan.Release
import CompilerRt.Tsan.ReplayBuffer
import CompilerRt.Tsan.Rtl
import CompilerRt.Tsan.Scan
import CompilerRt.Tsan.Shadow
import CompilerRt.Tsan.Signals
import CompilerRt.Tsan.SpinMutex
import CompilerRt.Tsan.Stamps
import CompilerRt.Tsan.StringInterceptors
import CompilerRt.Tsan.Suppressions
import CompilerRt.Tsan.SyncTab
import CompilerRt.Tsan.SyncTabSafe
import CompilerRt.Tsan.SyncTabSound
import CompilerRt.Tsan.SynchEpoch
import CompilerRt.Tsan.Thread
import CompilerRt.Tsan.Times
import CompilerRt.Tsan.Trace
import CompilerRt.Tsan.UseAfterFree
import CompilerRt.Tsan.Vector
import CompilerRt.Tsan.WellFormed
import CompilerRt.Ubsan.Hierarchy
import CompilerRt.Ubsan.TypeHash
import CompilerRt.Unwind.GccPersonality
import CompilerRt.Unwind.LandingPad
import CompilerRt.Unwind.Lsda
import CompilerRt.Unwind.Uleb128
