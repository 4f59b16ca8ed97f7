import CompilerRt.Lib.BitMask
import CompilerRt.Sanitizer.Conservation
import Mathlib

/-! # Finding the block of an address

The lookups of `SizeClassAllocator64`. The index of a chunk is computed with 32 bits, so a chunk that ends behind the
first 2^32 bytes of its region is not found.
-/
namespace CompilerRt.Sanitizer
namespace Template
variable (t : Template)

def PointerIsMine (p : ℕ) : Bool := p / t.kSpaceSize == t.kSpaceBeg / t.kSpaceSize

def GetSizeClass (p : ℕ) : ℕ := p / t.kRegionSize % kNumClasses

/-- None where the size is zero as `u32`, and is divided by. -/
def GetChunkIdx (chunk size : ℕ) : Option ℕ :=
  let offset := chunk % t.kRegionSize % 2^32
  if size % 2^32 = 0 then none else some (offset / (size % 2^32))

def GetBlockBegin (p : ℕ) : Option ℕ :=
  let size := t.map.Size (t.GetSizeClass p)
  (t.GetChunkIdx p size).map fun chunk_idx =>
    let reg_beg := (BitVec.ofNat 64 p &&& ~~~BitVec.ofNat 64 (t.kRegionSize - 1)).toNat
    (reg_beg + chunk_idx * size) % 2^64

def GetActuallyAllocatedSize (p : ℕ) : Option ℕ :=
  if t.PointerIsMine p then some (t.map.Size (t.GetSizeClass p)) else none

def GetMetaData (p : ℕ) : Option ℕ :=
  let class_id := t.GetSizeClass p
  (t.GetChunkIdx p (t.map.Size class_id)).map fun chunk_idx =>
    (t.kSpaceBeg + t.kRegionSize * (class_id + 1) + (2^64 - (1 + chunk_idx) * t.kMetadataSize % 2^64)) % 2^64

/-- The lookups find the chunks of a class and their metadata. -/
structure Found (class_id : ℕ) (chunks : List ℕ) : Prop where
  begins : ∀ chunk ∈ chunks, ∀ o < t.map.Size class_id, t.GetBlockBegin ((chunk + o) % 2^64) = some chunk
  sizes : ∀ chunk ∈ chunks, ∀ o < t.map.Size class_id,
    t.GetActuallyAllocatedSize ((chunk + o) % 2^64) = some (t.map.Size class_id)
  slots : ∀ chunk ∈ chunks, ∃ m, t.GetMetaData chunk = some m ∧ t.regionBeg class_id ≤ m ∧
    m + t.kMetadataSize ≤ t.regionBeg class_id + t.kRegionSize
  distinct : ∀ chunk ∈ chunks, ∀ chunk' ∈ chunks, chunk ≠ chunk' → ∀ m m', t.GetMetaData chunk = some m →
    t.GetMetaData chunk' = some m' → m ≠ m' ∧ (m + t.kMetadataSize ≤ m' ∨ m' + t.kMetadataSize ≤ m)

/-- The chunks of a class end within 2^32 bytes, and their metadata fits into the region. -/
def Narrow (class_id n : ℕ) : Prop :=
  n = 0 ∨ t.map.Size class_id < 2^32 ∧ n * t.map.Size class_id ≤ 2^32 ∧ n * t.kMetadataSize ≤ t.kRegionSize ∧
    (n ≤ 1 ∨ 0 < t.kMetadataSize)

/-! ## Addresses of the space -/

variable {t} {class_id n k j o p : ℕ}

theorem kRegionSize_pow (t : Template) : ∃ b, 32 ≤ b ∧ b < 56 ∧ t.kRegionSize = 2^b := by
  obtain ⟨b,hb64,hb⟩ := t.size_pow
  obtain ⟨hspace,hlarge⟩ := t.kSpaceSize_eq
  have h40 : 40 ≤ b := by
    by_contra hlt
    have hsmall : (2:ℕ)^b ≤ 2^39 := Nat.pow_le_pow_right (by decide) (by omega)
    omega
  refine ⟨b - 8,by omega,by omega,?_⟩
  have hsplit : 2^b = 256 * 2^(b - 8) := by
    have h8 : (256:ℕ) = 2^8 := rfl
    rw [h8, ← Nat.pow_add, Nat.add_sub_cancel' (by omega)]
  exact Nat.eq_of_mul_eq_mul_left (by decide : 0 < 256) (by rw [← hspace, hb, hsplit])

/-- The space begins at a multiple of its size, and so a region at one of its own. -/
theorem regionBeg_eq (t : Template) : ∃ m, 0 < m ∧ t.kSpaceBeg = m * t.kSpaceSize ∧
    ∀ class_id, t.regionBeg class_id = (m * 256 + class_id) * t.kRegionSize := by
  have hpos := t.beg_pos
  obtain ⟨m,hm⟩ := Nat.dvd_of_mod_eq_zero t.aligned
  refine ⟨m,Nat.pos_of_ne_zero fun hzero => ?_,by rw [hm, Nat.mul_comm],fun class_id => ?_⟩
  · rw [hzero, Nat.mul_zero] at hm
    omega
  · rw [regionBeg, hm, t.kSpaceSize_eq.1]
    ring

theorem kRegionSize_le_regionBeg (t : Template) (class_id : ℕ) : t.kRegionSize ≤ t.regionBeg class_id := by
  obtain ⟨m,hm,-,hbeg⟩ := t.regionBeg_eq
  rw [hbeg]
  exact Nat.le_mul_of_pos_left _ (by omega)

/-- An address of a region, by its offset. -/
theorem region_address (ho : o < t.kRegionSize) (hclass : class_id < 256) :
    (t.regionBeg class_id + o) % 2^64 = t.regionBeg class_id + o ∧
    t.GetSizeClass (t.regionBeg class_id + o) = class_id ∧
    (t.regionBeg class_id + o) % t.kRegionSize = o ∧
    (BitVec.ofNat 64 (t.regionBeg class_id + o) &&& ~~~BitVec.ofNat 64 (t.kRegionSize - 1)).toNat = t.regionBeg class_id ∧
    t.PointerIsMine (t.regionBeg class_id + o) = true := by
  have hlt : t.regionBeg class_id + o < 2^64 := by
    have hend := regionEnd_le (t := t) hclass
    have hspace := t.space_lt
    omega
  obtain ⟨m,hm,hspace,hbeg⟩ := t.regionBeg_eq
  have hpos : 0 < t.kRegionSize := by omega
  have hdiv : (t.regionBeg class_id + o) / t.kRegionSize = m * 256 + class_id := by
    rw [hbeg, Nat.mul_comm, Nat.mul_add_div hpos, Nat.div_eq_of_lt ho, Nat.add_zero]
  refine ⟨Nat.mod_eq_of_lt hlt,?_,?_,?_,?_⟩
  · rw [GetSizeClass, hdiv, kNumClasses, Nat.mul_comm m, Nat.mul_add_mod, Nat.mod_eq_of_lt hclass]
  · rw [hbeg, Nat.mul_comm, Nat.mul_add_mod, Nat.mod_eq_of_lt ho]
  · obtain ⟨b,-,-,hb⟩ := t.kRegionSize_pow
    have hmask := BitMask.toNat_and_not_low (BitVec.ofNat 64 (t.regionBeg class_id + o)) b
    rw [BitVec.toNat_ofNat, Nat.mod_eq_of_lt hlt, ← hb, hdiv, ← hbeg] at hmask
    exact hmask
  · rw [PointerIsMine, beq_iff_eq, hspace, t.kSpaceSize_eq.1, Nat.mul_div_cancel _ (by omega), Nat.mul_comm 256,
      ← Nat.div_div_eq_div_mul, hdiv]
    omega

/-- The lookups of an address in a region. -/
theorem lookups_eq (ho : o < t.kRegionSize) (hclass : class_id < 256) :
    t.GetBlockBegin (t.regionBeg class_id + o) =
      (if t.map.Size class_id % 2^32 = 0 then none
        else some (o % 2^32 / (t.map.Size class_id % 2^32))).map
        (fun chunk_idx => (t.regionBeg class_id + chunk_idx * t.map.Size class_id) % 2^64) ∧
    t.GetActuallyAllocatedSize (t.regionBeg class_id + o) = some (t.map.Size class_id) ∧
    t.GetMetaData (t.regionBeg class_id + o) =
      (if t.map.Size class_id % 2^32 = 0 then none
        else some (o % 2^32 / (t.map.Size class_id % 2^32))).map
        (fun chunk_idx => (t.regionBeg class_id + t.kRegionSize +
          (2^64 - (1 + chunk_idx) * t.kMetadataSize % 2^64)) % 2^64) := by
  obtain ⟨-,hsize,hmod,hmask,hmine⟩ := region_address ho hclass
  refine ⟨?_,?_,?_⟩
  · rw [GetBlockBegin, hsize, GetChunkIdx, hmod, hmask]
  · rw [GetActuallyAllocatedSize, hmine, hsize]
    rfl
  · rw [GetMetaData, hsize, GetChunkIdx, hmod, Nat.mul_succ, ← Nat.add_assoc]
    rfl

/-! ## Chunks that are found -/

/-- Subtraction that does not go below zero. -/
theorem wrapped_sub {x y : ℕ} (h : y ≤ x) (hx : x < 2^64) : (x + (2^64 - y % 2^64)) % 2^64 = x - y := by
  omega

theorem regionEnd_lt (h : class_id < 256) : t.regionBeg class_id + t.kRegionSize < 2^64 := by
  have hend := regionEnd_le (t := t) h
  have hspace := t.space_lt
  omega

/-- The offsets of a chunk that ends within 2^32 bytes have its index. -/
theorem narrow_lookups (hclass : class_id < 256) (hsize : t.map.Size class_id < 2^32)
    (hend : (k + 1) * t.map.Size class_id ≤ 2^32) (ho : o < t.map.Size class_id) :
    t.chunk class_id k = t.regionBeg class_id + k * t.map.Size class_id ∧
    (t.chunk class_id k + o) % 2^64 = t.regionBeg class_id + (k * t.map.Size class_id + o) ∧
    t.GetBlockBegin ((t.chunk class_id k + o) % 2^64) = some (t.chunk class_id k) ∧
    t.GetActuallyAllocatedSize ((t.chunk class_id k + o) % 2^64) = some (t.map.Size class_id) ∧
    t.GetMetaData ((t.chunk class_id k + o) % 2^64) = some ((t.regionBeg class_id + t.kRegionSize +
      (2^64 - (1 + k) * t.kMetadataSize % 2^64)) % 2^64) := by
  rw [Nat.succ_mul] at hend
  have hlarge := t.kSpaceSize_eq.2
  have hoffset : k * t.map.Size class_id + o < t.kRegionSize := by omega
  have hchunk : t.chunk class_id k = t.regionBeg class_id + k * t.map.Size class_id := chunk_eq hclass (by omega)
  have haddress : (t.chunk class_id k + o) % 2^64 = t.regionBeg class_id + (k * t.map.Size class_id + o) := by
    rw [hchunk, Nat.add_assoc]
    exact (region_address hoffset hclass).1
  have hidx : (k * t.map.Size class_id + o) % 2^32 / (t.map.Size class_id % 2^32) = k := by
    rw [Nat.mod_eq_of_lt (a := k * t.map.Size class_id + o) (by omega), Nat.mod_eq_of_lt hsize, Nat.mul_comm,
      Nat.mul_add_div (by omega), Nat.div_eq_of_lt ho, Nat.add_zero]
  obtain ⟨hbegin,hallocated,hmeta⟩ := lookups_eq hoffset hclass
  have hne : t.map.Size class_id % 2^32 ≠ 0 := by
    rw [Nat.mod_eq_of_lt hsize]
    omega
  rw [if_neg hne, Option.map_some, hidx] at hbegin hmeta
  have hwrap : (t.regionBeg class_id + k * t.map.Size class_id) % 2^64 =
      t.regionBeg class_id + k * t.map.Size class_id := (region_address (by omega) hclass).1
  rw [hwrap] at hbegin
  rw [haddress, hchunk]
  exact ⟨rfl,rfl,hbegin,hallocated,hmeta⟩

theorem found_of_narrow (hclass : class_id < 256) (hpos : 0 < n → 0 < t.map.Size class_id) (h : t.Narrow class_id n) :
    t.Found class_id ((List.range n).map (t.chunk class_id)) := by
  rcases h with rfl | ⟨hsize,hn,hmeta,hdistinct⟩
  · exact ⟨by simp,by simp,by simp,by simp⟩
  have hend : ∀ k < n, (k + 1) * t.map.Size class_id ≤ 2^32 := fun k hk => (Nat.mul_le_mul_right _ hk).trans hn
  have hslots : ∀ k < n, (1 + k) * t.kMetadataSize ≤ n * t.kMetadataSize := fun k hk =>
    Nat.mul_le_mul_right _ (by omega)
  have hlast := regionEnd_lt (t := t) hclass
  have hslot : ∀ k < n, t.GetMetaData (t.chunk class_id k) =
      some (t.regionBeg class_id + t.kRegionSize - (1 + k) * t.kMetadataSize) := by
    intro k hk
    obtain ⟨hchunk,haddress,-,-,hdata⟩ := narrow_lookups hclass hsize (hend k hk) (hpos (by omega))
    have hle := hslots k hk
    rwa [haddress, Nat.add_zero, ← hchunk, wrapped_sub (by omega) hlast] at hdata
  refine ⟨?_,?_,?_,?_⟩
  · intro chunk hchunk o ho
    obtain ⟨k,hk,rfl⟩ := List.mem_map.mp hchunk
    exact (narrow_lookups hclass hsize (hend k (List.mem_range.mp hk)) ho).2.2.1
  · intro chunk hchunk o ho
    obtain ⟨k,hk,rfl⟩ := List.mem_map.mp hchunk
    exact (narrow_lookups hclass hsize (hend k (List.mem_range.mp hk)) ho).2.2.2.1
  · intro chunk hchunk
    obtain ⟨k,hk,rfl⟩ := List.mem_map.mp hchunk
    have hk := List.mem_range.mp hk
    have hle := hslots k hk
    refine ⟨_,hslot k hk,by omega,?_⟩
    rw [Nat.add_mul, Nat.one_mul] at hle ⊢
    omega
  · intro chunk hchunk chunk' hchunk' hne m m' hm hm'
    obtain ⟨j,hj,rfl⟩ := List.mem_map.mp hchunk
    obtain ⟨k,hk,rfl⟩ := List.mem_map.mp hchunk'
    rw [List.mem_range] at hj hk
    rw [hslot j hj, Option.some_inj] at hm
    rw [hslot k hk, Option.some_inj] at hm'
    have hjk : j ≠ k := by
      rintro rfl
      exact hne rfl
    have hmeta0 : 0 < t.kMetadataSize := hdistinct.resolve_left (by omega)
    have hlej := hslots j hj
    have hlek := hslots k hk
    have hstep : ∀ i l, i < l → (1 + i) * t.kMetadataSize + t.kMetadataSize ≤ (1 + l) * t.kMetadataSize := by
      intro i l hil
      rw [← Nat.succ_mul]
      exact Nat.mul_le_mul_right _ (by omega)
    rcases Nat.lt_or_gt_of_ne hjk with hlt | hlt
    · have hle := hstep j k hlt
      omega
    · have hle := hstep k j hlt
      omega

/-! ## Chunks that are not found -/

/-- A size with more than 32 bits is another one when it is divided by. -/
theorem size_lt_of_found {chunks : List ℕ} (hclass : class_id < 256)
    (hmem : t.chunk class_id 0 ∈ chunks) (h : t.Found class_id chunks) : t.map.Size class_id < 2^32 := by
  by_contra hlarge
  have hbig := t.kSpaceSize_eq.2
  have hchunk : t.chunk class_id 0 = t.regionBeg class_id := by
    rw [chunk_eq hclass (by omega), Nat.zero_mul, Nat.add_zero]
  have hmod : t.map.Size class_id % 2^32 < 2^32 := Nat.mod_lt _ (by decide)
  have hbegin := h.begins _ hmem (t.map.Size class_id % 2^32) (by omega)
  rw [hchunk, (region_address (by omega) hclass).1, (lookups_eq (by omega) hclass).1] at hbegin
  split_ifs at hbegin with hzero
  · cases hbegin
  · rw [Nat.mod_mod, Nat.div_self (Nat.pos_of_ne_zero hzero), Option.map_some, Option.some_inj, Nat.one_mul] at hbegin
    have hsize := t.size_lt class_id
    have hend := regionEnd_lt (t := t) hclass
    omega

theorem regionBeg_succ (t : Template) (class_id : ℕ) :
    t.regionBeg (class_id + 1) = t.regionBeg class_id + t.kRegionSize := by
  rw [regionBeg, regionBeg, Nat.mul_succ, Nat.add_assoc]

/-- A chunk with the byte behind the first 2^32 is not found: its index is taken for that of the first chunk, or the
byte is not in the region any more. -/
theorem end_le_of_found (hclass : class_id < 256) (hpos : 0 < t.map.Size class_id) (hsize : t.map.Size class_id < 2^32)
    (h : t.Found class_id ((List.range n).map (t.chunk class_id))) : n * t.map.Size class_id ≤ 2^32 := by
  by_contra hlong
  have hbig := t.kSpaceSize_eq.2
  have hspace := t.kSpaceSize_eq.1
  have hend := regionEnd_lt (t := t) hclass
  have hdiv := Nat.div_add_mod (2^32) (t.map.Size class_id)
  have ho := Nat.mod_lt (2^32) hpos
  generalize 2^32 % t.map.Size class_id = o at hdiv ho
  obtain ⟨k,hk⟩ : ∃ k, k = 2^32 / t.map.Size class_id := ⟨_,rfl⟩
  rw [← hk, Nat.mul_comm] at hdiv
  have hkn : k < n := by
    by_contra hge
    have hle := Nat.mul_le_mul_right (t.map.Size class_id) (not_lt.mp hge)
    omega
  have hk0 : 0 < k * t.map.Size class_id := by omega
  have hmem : t.chunk class_id k ∈ (List.range n).map (t.chunk class_id) :=
    List.mem_map_of_mem (List.mem_range.mpr hkn)
  have hchunk : t.chunk class_id k = t.regionBeg class_id + k * t.map.Size class_id := by
    rw [chunk, Nat.mod_eq_of_lt (a := k * t.map.Size class_id) (by omega), Nat.mod_eq_of_lt (by omega)]
  have haddress : (t.chunk class_id k + o) % 2^64 = t.regionBeg class_id + 2^32 := by
    rw [hchunk, Nat.mod_eq_of_lt (by omega)]
    omega
  have hbegin := h.begins _ hmem o ho
  rw [haddress] at hbegin
  by_cases hwide : 2^32 < t.kRegionSize
  · rw [(lookups_eq hwide hclass).1, Nat.mod_self, Nat.zero_div] at hbegin
    split_ifs at hbegin with hzero
    · cases hbegin
    · rw [Option.map_some, Option.some_inj, Nat.zero_mul, Nat.add_zero, Nat.mod_eq_of_lt (by omega), hchunk] at hbegin
      omega
  · have hregion : t.kRegionSize = 2^32 := by omega
    by_cases hlast : class_id + 1 < 256
    · have hnext : t.regionBeg class_id + 2^32 = t.regionBeg (class_id + 1) + 0 := by
        rw [regionBeg_succ, hregion, Nat.add_zero]
      rw [hnext, (lookups_eq (by omega) hlast).1] at hbegin
      split_ifs at hbegin with hzero
      · cases hbegin
      · -- the chunk starts where the next region does, and has its metadata there
        rw [Option.map_some, Option.some_inj, Nat.zero_mod, Nat.zero_div, Nat.zero_mul, Nat.add_zero,
          Nat.mod_eq_of_lt (by omega)] at hbegin
        obtain ⟨m,hm,hlow,hhigh⟩ := h.slots _ hmem
        have hdata := (lookups_eq (t := t) (o := 0) (by omega) hlast).2.2
        rw [← hbegin] at hm
        rw [if_neg hzero, Option.map_some, Nat.add_zero, Nat.zero_mod, Nat.zero_div, Nat.add_zero, Nat.one_mul, hm,
          Option.some_inj] at hdata
        have hnextEnd := regionEnd_lt (t := t) hlast
        rw [wrapped_sub (by omega) hnextEnd] at hdata
        omega
    · have hbytes := h.sizes _ hmem o ho
      have hclass' : class_id = 255 := by omega
      obtain ⟨m,hm,hbeg,hregions⟩ := t.regionBeg_eq
      have hend' : t.regionBeg class_id + 2^32 = (m + 1) * t.kSpaceSize := by
        rw [hregions, hclass', hspace, hregion]
        ring
      have hspace0 : 0 < t.kSpaceSize := by omega
      have hmine : t.PointerIsMine ((m + 1) * t.kSpaceSize) = false := by
        rw [PointerIsMine, hbeg, Nat.mul_div_cancel _ hspace0, Nat.mul_div_cancel _ hspace0]
        exact beq_false_of_ne (by omega)
      rw [haddress, hend', GetActuallyAllocatedSize, hmine] at hbytes
      cases hbytes

/-- The lookups are right in just those regions whose chunks end within 2^32 bytes. -/
theorem found_iff (hclass : class_id < 256) (hpos : 0 < n → 0 < t.map.Size class_id) :
    t.Found class_id ((List.range n).map (t.chunk class_id)) ↔ t.Narrow class_id n := by
  refine ⟨fun h => ?_,found_of_narrow hclass hpos⟩
  rcases Nat.eq_zero_or_pos n with rfl | hn
  · exact .inl rfl
  have hpos := hpos hn
  have hmem : ∀ k < n, t.chunk class_id k ∈ (List.range n).map (t.chunk class_id) := fun k hk =>
    List.mem_map_of_mem (List.mem_range.mpr hk)
  have hsize := size_lt_of_found hclass (hmem 0 hn) h
  have hend := end_le_of_found hclass hpos hsize h
  have hlast := regionEnd_lt (t := t) hclass
  have hbeg := t.kRegionSize_le_regionBeg class_id
  have hslot : ∀ k < n, t.GetMetaData (t.chunk class_id k) = some ((t.regionBeg class_id + t.kRegionSize +
      (2^64 - (1 + k) * t.kMetadataSize % 2^64)) % 2^64) := by
    intro k hk
    obtain ⟨hchunk,haddress,-,-,hdata⟩ := narrow_lookups hclass hsize ((Nat.mul_le_mul_right _ hk).trans hend) hpos
    rwa [haddress, Nat.add_zero, ← hchunk] at hdata
  have hinside : ∀ k < n, t.regionBeg class_id ≤ (t.regionBeg class_id + t.kRegionSize +
      (2^64 - (1 + k) * t.kMetadataSize % 2^64)) % 2^64 ∧ t.kMetadataSize ≤ t.kRegionSize := by
    intro k hk
    obtain ⟨m,hm,hlow,hhigh⟩ := h.slots _ (hmem k hk)
    rw [hslot k hk, Option.some_inj] at hm
    rw [hm]
    exact ⟨hlow,by omega⟩
  refine .inr ⟨hsize,hend,?_,?_⟩
  · by_contra hlong
    have hmeta := (hinside 0 hn).2
    have hmeta0 : 0 < t.kMetadataSize := by
      rcases Nat.eq_zero_or_pos t.kMetadataSize with hzero | hpos
      · rw [hzero, Nat.mul_zero] at hlong
        omega
      · exact hpos
    -- the first slot that begins before the region
    have hle := Nat.div_mul_le_self t.kRegionSize t.kMetadataSize
    have hgt := Nat.lt_div_mul_add (a := t.kRegionSize) hmeta0
    have hk : t.kRegionSize / t.kMetadataSize < n := by
      by_contra hge
      have hle' := Nat.mul_le_mul_right t.kMetadataSize (not_lt.mp hge)
      omega
    have hlow := (hinside _ hk).1
    rw [Nat.add_mul, Nat.one_mul, wrapped_sub (by omega) hlast] at hlow
    omega
  · by_contra hnot
    rw [not_or, not_le, Nat.not_lt, Nat.le_zero] at hnot
    obtain ⟨hn1,hzero⟩ := hnot
    have hchunks : ∀ k < n, t.chunk class_id k = t.regionBeg class_id + k * t.map.Size class_id := fun k hk =>
      (narrow_lookups hclass hsize ((Nat.mul_le_mul_right _ hk).trans hend) hpos).1
    have hne : t.chunk class_id 0 ≠ t.chunk class_id 1 := by
      rw [hchunks 0 hn, hchunks 1 hn1]
      omega
    refine (h.distinct _ (hmem 0 hn) _ (hmem 1 hn1) hne _ _ (hslot 0 hn) (hslot 1 hn1)).1 ?_
    rw [hzero, Nat.mul_zero]

end Template

namespace Primary
variable {Cache : Type*} [DecidableEq Cache] {t : Template} {fuel class_id : ℕ} {s : Primary Cache}

/-- In every state that is reached, the chunks of a class and their metadata are found if and only if they end within
the first 2^32 bytes of the region. -/
theorem block_lookup {ops : List (Op Cache)} (hrun : Transition.run (step t fuel) Init ops = some s)
    (hclass : class_id < kNumClasses) :
    t.Found class_id (s.carved class_id) ↔ t.Narrow class_id (s.carved class_id).length := by
  obtain ⟨hfilled,hcarved⟩ := run_laid hrun class_id
  have hiff := Template.found_iff hclass hfilled.pos
  rwa [← hcarved] at hiff

theorem block_lookup_first : ∃ s : Primary Bool,
    Transition.run (step (plainTemplate 1) 1) Init [.Allocate true 0] = some s ∧
    ((plainTemplate 1).Found 0 (s.carved 0) ↔ (plainTemplate 1).Narrow 0 (s.carved 0).length) := by
  have hrun : (Transition.run (step (plainTemplate 1) 1) (Init : Primary Bool) [.Allocate true 0]).isSome := by decide
  obtain ⟨s,hs⟩ := Option.isSome_iff_exists.mp hrun
  exact ⟨s,hs,block_lookup hs (by decide)⟩

/-- A region of 2^34 bytes with chunks of 2^31 bytes. -/
def wideTemplate : Template where
  kSpaceBeg := 2^44
  kSpaceSize := 2^42
  kMetadataSize := 16
  map := ⟨256,2^31,fun _ => 2^31,fun _ => 0,fun _ => 1⟩
  beg_pos := (plainTemplate 1).beg_pos
  size_pow := ⟨42,by decide,rfl⟩
  aligned := by decide
  classes := (plainTemplate 1).classes
  region := by decide
  metadata_lt := (plainTemplate 1).metadata_lt
  size_lt := fun _ => Nat.pow_lt_pow_right (by decide) (by decide)
  mapped := by decide

/-- The third chunk is taken for the first one, and gets its metadata. -/
theorem block_lookup_third : ∃ s : Primary Bool,
    Transition.run (step wideTemplate 1) Init [.Allocate true 0,.Allocate true 0,.Allocate true 0] = some s ∧
    2^44 + 2^32 ∈ s.carved 0 ∧ wideTemplate.GetBlockBegin (2^44 + 2^32) = some (2^44) ∧
    wideTemplate.GetMetaData (2^44 + 2^32) = wideTemplate.GetMetaData (2^44) ∧
    ¬ wideTemplate.Found 0 (s.carved 0) := by
  have hrun : (Transition.run (step wideTemplate 1) (Init : Primary Bool)
      [.Allocate true 0,.Allocate true 0,.Allocate true 0]).map (fun s => s.carved 0) =
      some [2^44,2^44 + 2^31,2^44 + 2^32] := by decide
  obtain ⟨s,hs,hcarved⟩ := Option.map_eq_some_iff.mp hrun
  have hbegin : wideTemplate.GetBlockBegin (2^44 + 2^32) = some (2^44) := by decide
  refine ⟨s,hs,by simp [hcarved],hbegin,by decide,fun h => ?_⟩
  have hfound := h.begins (2^44 + 2^32) (by simp [hcarved]) 0 (by decide)
  rw [Nat.add_zero, Nat.mod_eq_of_lt (by decide), hbegin, Option.some_inj] at hfound
  omega

end Primary
end CompilerRt.Sanitizer
