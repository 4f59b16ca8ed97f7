import CompilerRt.Asan.PageGroups
import CompilerRt.Asan.TakeChunk
import Mathlib

/-! # The chunk of an address

The chunk that a bad access is reported for: the one around the address, or the better one of its two neighbours. The size of
a block is told for its first address only.
-/
namespace CompilerRt.AsanAllocator
open Sanitizer AsanMapping
open AsanChunk

/-! ## Views -/

namespace AsanChunkView

def UsedSize (mem : FlatMemory) (chunk_ : ℕ) : ℕ := get mem chunk_ .used_size

def End (mem : FlatMemory) (chunk_ : ℕ) : Option ℕ :=
  (AsanChunk.Beg mem chunk_).map fun beg => (beg + UsedSize mem chunk_) % 2^64

/-- The offset where the address is inside. -/
def AddrIsInside (mem : FlatMemory) (chunk_ addr access_size : ℕ) : Except Stop (Option ℕ) := do
  let beg ← checked (AsanChunk.Beg mem chunk_)
  let end_ ← checked (End mem chunk_)
  pure (if addr ≥ beg ∧ (addr + access_size) % 2^64 ≤ end_ then some (addr - beg) else none)

def AddrIsAtLeft (mem : FlatMemory) (chunk_ addr : ℕ) : Except Stop (Option ℕ) := do
  let beg ← checked (AsanChunk.Beg mem chunk_)
  pure (if addr < beg then some (beg - addr) else none)

def AddrIsAtRight (mem : FlatMemory) (chunk_ addr access_size : ℕ) : Except Stop (Option ℕ) := do
  let end_ ← checked (End mem chunk_)
  pure (if (addr + access_size) % 2^64 ≥ end_ then some (if addr ≤ end_ then 0 else addr - end_) else none)

end AsanChunkView

namespace MallocInfo
open AsanChunkView
variable (s : MallocInfo)

def ChooseChunk (mem : FlatMemory) (addr left_chunk right_chunk : ℕ) : Except Stop ℕ :=
  if get mem left_chunk .chunk_state = CHUNK_AVAILABLE ∧ get mem right_chunk .chunk_state ≠ CHUNK_AVAILABLE then
    pure right_chunk
  else if get mem right_chunk .chunk_state = CHUNK_AVAILABLE ∧ get mem left_chunk .chunk_state ≠ CHUNK_AVAILABLE then
    pure left_chunk
  else do
    let l_offset ← AddrIsAtRight mem left_chunk addr 1 >>= checked
    let r_offset ← AddrIsAtLeft mem right_chunk addr >>= checked
    pure (if l_offset < r_offset then left_chunk else right_chunk)

/-- The chunk of an address in a group. -/
def chunkInGroup (mem : FlatMemory) (g : PageGroup) (addr : ℕ) : Except Stop ℕ := do
  CHECK (g.size_of_chunk ≠ 0)
  let this_chunk_addr := g.beg + (addr - g.beg) / g.size_of_chunk * g.size_of_chunk
  CHECK (g.InRange this_chunk_addr)
  let m := this_chunk_addr
  CHECK (get mem m .chunk_state = CHUNK_ALLOCATED ∨ get mem m .chunk_state = CHUNK_AVAILABLE ∨
    get mem m .chunk_state = CHUNK_QUARANTINE)
  let inside ← AddrIsInside mem m addr 1
  if inside.isSome then pure m
  else do
    let right ← AddrIsAtRight mem m addr 1
    if right.isSome then
      if this_chunk_addr = g.last_chunk then pure m
      else do
        let right_chunk_addr := this_chunk_addr + g.size_of_chunk
        CHECK (g.InRange right_chunk_addr)
        ChooseChunk mem addr m right_chunk_addr
    else do
      let left ← AddrIsAtLeft mem m addr
      CHECK (left.isSome)
      if this_chunk_addr = g.beg then pure m
      else do
        let left_chunk_addr := this_chunk_addr - g.size_of_chunk
        CHECK (g.InRange left_chunk_addr)
        ChooseChunk mem addr left_chunk_addr m

/-- Zero where no group has the address. -/
def FindChunkByAddrUnlocked (addr : ℕ) : Except Stop (ℕ × MallocInfo) := do
  let (g,s) ← s.FindPageGroupUnlocked addr
  if g = 0 then pure (0,s)
  else do
    let m ← chunkInGroup s.memory (PageGroup.read s.memory g) addr
    pure (m,s)

def AllocationSize (ptr : ℕ) : Except Stop (ℕ × MallocInfo) :=
  if ptr = 0 then pure (0,s)
  else do
    let (m,s) ← s.FindChunkByAddrUnlocked ptr
    if m = 0 then pure (0,s)
    else do
      let beg ← checked (AsanChunk.Beg s.memory m)
      pure (if beg = ptr ∧ get s.memory m .chunk_state = CHUNK_ALLOCATED then get s.memory m .used_size else 0,s)

def asan_mz_size (ptr : ℕ) : Except Stop (ℕ × MallocInfo) := s.AllocationSize ptr

def asan_get_ownership (p : ℕ) : Except Stop (Bool × MallocInfo) := do
  let (size,s) ← s.AllocationSize p
  pure (decide (size > 0),s)

end MallocInfo

/-! ## What is found -/

open AsanChunkView

variable {flags : Flags} {s s' : MallocInfo} {L : Layout} {g : Group} {p : Place} {mem : FlatMemory} {addr m b n : ℕ}

/-- The header of a chunk and what it says are in the chunk. -/
structure Headed (mem : FlatMemory) (size m b : ℕ) : Prop where
  beg : AsanChunk.Beg mem m = some b
  lt : m < b
  le : b + get mem m .used_size ≤ m + size

theorem Headed.end_ {size : ℕ} (h : Headed mem size m b) (hlt : m + size < 2^63) :
    End mem m = some (b + get mem m .used_size) := by
  have hle := h.le
  rw [End, h.beg, Option.map_some, UsedSize, Nat.mod_eq_of_lt (by omega)]

theorem Headed.inside {size : ℕ} (h : Headed mem size m b) (hlt : m + size < 2^63) (haddr : addr < 2^63) :
    AddrIsInside mem m addr 1 =
      .ok (if addr ≥ b ∧ addr + 1 ≤ b + get mem m .used_size then some (addr - b) else none) := by
  have hword : addr + 1 < 2^64 := by omega
  simp only [AddrIsInside, h.beg, h.end_ hlt, checked_some, ok_bind, pure_eq_ok, Nat.mod_eq_of_lt hword]

theorem Headed.atRight {size : ℕ} (h : Headed mem size m b) (hlt : m + size < 2^63) (haddr : addr < 2^63) :
    AddrIsAtRight mem m addr 1 = .ok (if addr + 1 ≥ b + get mem m .used_size then
      some (if addr ≤ b + get mem m .used_size then 0 else addr - (b + get mem m .used_size)) else none) := by
  have hword : addr + 1 < 2^64 := by omega
  simp only [AddrIsAtRight, h.end_ hlt, checked_some, ok_bind, pure_eq_ok, Nat.mod_eq_of_lt hword]

theorem Headed.atLeft {size : ℕ} (h : Headed mem size m b) :
    AddrIsAtLeft mem m addr = .ok (if addr < b then some (b - addr) else none) := by
  simp [AddrIsAtLeft, h.beg]

/-- Of two neighbours one is chosen, and one that was handed out before one that was not. -/
theorem chooseChunk_ok {size left right bl br : ℕ} (addr : ℕ) (hl : Headed mem size left bl) (hr : Headed mem size right br)
    (hlt : left + size < 2^63) (haddr : addr < 2^63) (hleft : bl + get mem left .used_size ≤ addr + 1) (hright : addr < br) :
    ∃ r, MallocInfo.ChooseChunk mem addr left right = .ok r ∧ (r = left ∨ r = right) ∧
      (get mem r .chunk_state = CHUNK_AVAILABLE → get mem left .chunk_state = CHUNK_AVAILABLE ∧
        get mem right .chunk_state = CHUNK_AVAILABLE) := by
  rw [MallocInfo.ChooseChunk, hl.atRight hlt haddr, hr.atLeft, if_pos (show addr + 1 ≥ _ from hleft), if_pos hright]
  by_cases h1 : get mem left .chunk_state = CHUNK_AVAILABLE ∧ get mem right .chunk_state ≠ CHUNK_AVAILABLE
  · rw [if_pos h1]
    exact ⟨right,rfl,.inr rfl,fun h => absurd h h1.2⟩
  by_cases h2 : get mem right .chunk_state = CHUNK_AVAILABLE ∧ get mem left .chunk_state ≠ CHUNK_AVAILABLE
  · rw [if_neg h1, if_pos h2]
    exact ⟨left,rfl,.inl rfl,fun h => absurd h h2.2⟩
  · rw [if_neg h1, if_neg h2]
    simp only [ok_bind, checked_some, pure_eq_ok]
    generalize (if addr ≤ bl + get mem left .used_size then 0 else addr - (bl + get mem left .used_size)) = l_offset
    have hboth : get mem left .chunk_state = CHUNK_AVAILABLE ↔ get mem right .chunk_state = CHUNK_AVAILABLE := by
      rw [not_and_not_right] at h1 h2
      exact ⟨h1,h2⟩
    split_ifs
    · exact ⟨left,rfl,.inl rfl,fun h => ⟨h,hboth.mp h⟩⟩
    · exact ⟨right,rfl,.inr rfl,fun h => ⟨hboth.mpr h,h⟩⟩

/-- The chunk that is found for an address. -/
structure FoundChunk (mem : FlatMemory) (g : Group) (addr m : ℕ) : Prop where
  mem_chunks : m ∈ g.chunks
  near : m ≤ addr + g.size ∧ addr < m + 2 * g.size
  inside : ∀ c ∈ g.chunks, ∀ b, AsanChunk.Beg mem c = some b → b ≤ addr → addr < b + get mem c .used_size → m = c

theorem Core.headed (h : Core flags s L) (hg : g ∈ L.groups) (hmg : m ∈ g.chunks) :
    (∃ b, Headed s.memory g.size m b) ∧ ∃ p, m ∈ L.held p ∧ get s.memory m .chunk_state = p.state := by
  obtain ⟨p,hp⟩ := (h.spread.mem_iff m).mp (List.mem_flatMap.mpr ⟨g,hg,hmg⟩)
  have hok := h.chunk g hg m hmg p hp
  obtain ⟨b,hb,hlt,hle⟩ := hok.headed
  exact ⟨⟨b,hb,hlt,hle⟩,p,hp,hok.state⟩

theorem Place.state_cases (p : Place) :
    p.state = CHUNK_ALLOCATED ∨ p.state = CHUNK_AVAILABLE ∨ p.state = CHUNK_QUARANTINE := by
  cases p <;> simp [Place.state]

theorem chunkInGroup_ok (h : Core flags s L) (hg : g ∈ L.groups) (hlow : g.beg ≤ addr) (hhigh : addr < g.pg) :
    ∃ r, MallocInfo.chunkInGroup s.memory g.page addr = .ok r ∧ FoundChunk s.memory g addr r := by
  have hsize := h.le_size hg
  have hpage := h.page_le hg
  have hword := lt_of_inOneRange (h.mapped g hg).2.2 le_rfl
  have hpg : g.pg = g.beg + g.n_chunks * g.size := rfl
  generalize hi : (addr - g.beg) / g.size = i
  have hmod := Nat.mod_lt (addr - g.beg) (show 0 < g.size by omega)
  have hdiv := Nat.div_add_mod (addr - g.beg) g.size
  rw [hi, Nat.mul_comm] at hdiv
  have hin : i < g.n_chunks := by
    rw [← hi]
    exact Nat.div_lt_of_lt_mul (by rw [Nat.mul_comm]; omega)
  generalize hm : g.beg + i * g.size = m
  have hmg : m ∈ g.chunks := Group.mem_chunks.mpr ⟨i,hin,hm.symm⟩
  obtain ⟨⟨b,hb⟩,p,hp,hstate⟩ := h.headed hg hmg
  have hr := h.chunk_range hg hmg
  have hbl := hb.lt
  have hble := hb.le
  -- only the chunk around the address can have it inside
  have honly : ∀ c ∈ g.chunks, ∀ b', AsanChunk.Beg s.memory c = some b' → b' ≤ addr →
      addr < b' + get s.memory c .used_size → m = c := by
    intro c hcg b' hb' hlow' hhigh'
    obtain ⟨⟨b₂,hb₂⟩,-⟩ := h.headed hg hcg
    obtain rfl : b' = b₂ := Option.some.inj (hb'.symm.trans hb₂.beg)
    have hlt' := hb₂.lt
    have hle' := hb₂.le
    by_contra hne
    rcases Group.chunks_apart hmg hcg hne with hap | hap
    · omega
    · omega
  have hrange : PageGroup.InRange g.page m = true := by
    have hlt : m < g.end_ := by omega
    simp [PageGroup.InRange, Group.page, hr.1, hlt]
  have hstates : get s.memory m .chunk_state = CHUNK_ALLOCATED ∨ get s.memory m .chunk_state = CHUNK_AVAILABLE ∨
      get s.memory m .chunk_state = CHUNK_QUARANTINE := hstate ▸ p.state_cases
  have hm63 : m + g.size < 2^63 := by omega
  have ha63 : addr < 2^63 := by omega
  have hsize0 : g.page.size_of_chunk ≠ 0 := (show g.size ≠ 0 by omega)
  have hthis : g.page.beg + (addr - g.page.beg) / g.page.size_of_chunk * g.page.size_of_chunk = m := by
    rw [← hm, ← hi]
    rfl
  rw [MallocInfo.chunkInGroup]
  dsimp only
  rw [hthis]
  simp only [CHECK_of hsize0, CHECK_of hrange, CHECK_of hstates, ok_bind, hb.inside hm63 ha63, hb.atRight hm63 ha63,
    hb.atLeft]
  by_cases hinside : addr ≥ b ∧ addr + 1 ≤ b + get s.memory m .used_size
  · rw [if_pos hinside, if_pos (by rfl)]
    exact ⟨m,rfl,hmg,by omega,honly⟩
  · have hnone : ∀ c ∈ g.chunks, ∀ b', AsanChunk.Beg s.memory c = some b' → b' ≤ addr →
        ¬addr < b' + get s.memory c .used_size := by
      intro c hcg b' hb' hlow' hhigh'
      obtain rfl := honly c hcg b' hb' hlow' hhigh'
      obtain rfl : b' = b := Option.some.inj (hb'.symm.trans hb.beg)
      exact hinside ⟨hlow',hhigh'⟩
    rw [if_neg hinside, if_neg (by simp)]
    by_cases hright : addr + 1 ≥ b + get s.memory m .used_size
    · rw [if_pos hright, if_pos (by rfl)]
      by_cases hlast : m = g.page.last_chunk
      · rw [if_pos hlast]
        exact ⟨m,rfl,hmg,by omega,honly⟩
      · have hnext : i + 1 < g.n_chunks := by
          by_contra hge
          refine hlast ?_
          rw [← hm, Nat.mul_comm]
          exact congrArg (fun j => g.beg + g.size * j) (show i = g.n_chunks - 1 by omega)
        have hcg : m + g.size ∈ g.chunks := Group.mem_chunks.mpr ⟨i + 1,hnext,by rw [← hm, Nat.succ_mul, Nat.add_assoc]⟩
        obtain ⟨⟨b₂,hb₂⟩,-⟩ := h.headed hg hcg
        have hb₂lt := hb₂.lt
        have hr₂ := h.chunk_range hg hcg
        have hrange₂ : PageGroup.InRange g.page (m + g.page.size_of_chunk) = true := by
          have hlow₂ : g.beg ≤ m + g.size := by omega
          have hlt₂ : m + g.size < g.end_ := by omega
          simp [PageGroup.InRange, Group.page, hlow₂, hlt₂]
        obtain ⟨r,hrun,hor,-⟩ := chooseChunk_ok addr hb hb₂ hm63 ha63 hright (by omega)
        rw [if_neg hlast, CHECK_of hrange₂, ok_bind]
        refine ⟨r,hrun,?_,?_,fun c hcg b' hb' h1 h2 => absurd h2 (hnone c hcg b' hb' h1)⟩
        · rcases hor with rfl | rfl
          · exact hmg
          · exact hcg
        · rcases hor with rfl | rfl
          · omega
          · omega
    · have hleft : addr < b := by
        by_contra hge
        exact hinside ⟨not_lt.mp hge,by omega⟩
      rw [if_neg hright, if_neg (by simp), if_pos hleft]
      simp only [CHECK_of, Option.isSome_some, ok_bind]
      by_cases hfirst : m = g.page.beg
      · rw [if_pos hfirst]
        exact ⟨m,rfl,hmg,by omega,honly⟩
      · have hi0 : i ≠ 0 := by
          rintro rfl
          exact hfirst (by rw [← hm, Nat.zero_mul]; rfl)
        obtain ⟨k,rfl⟩ := Nat.exists_eq_succ_of_ne_zero hi0
        have hprev : m - g.size = g.beg + k * g.size := by
          rw [← hm, Nat.succ_mul]
          omega
        have hle : g.beg + g.size ≤ m := by
          rw [← hm, Nat.succ_mul]
          omega
        have hcg : m - g.size ∈ g.chunks := Group.mem_chunks.mpr ⟨k,by omega,hprev⟩
        obtain ⟨⟨b₂,hb₂⟩,-⟩ := h.headed hg hcg
        have hb₂le := hb₂.le
        have hrange₂ : PageGroup.InRange g.page (m - g.page.size_of_chunk) = true := by
          have hlow₂ : g.beg ≤ m - g.size := by omega
          have hlt₂ : m - g.size < g.end_ := by omega
          simp [PageGroup.InRange, Group.page, hlow₂, hlt₂]
        obtain ⟨r,hrun,hor,-⟩ := chooseChunk_ok addr hb₂ hb (by omega) ha63 (by omega) hleft
        rw [if_neg hfirst, CHECK_of hrange₂, ok_bind]
        refine ⟨r,hrun,?_,?_,fun c hcg b' hb' h1 h2 => absurd h2 (hnone c hcg b' hb' h1)⟩
        · rcases hor with rfl | rfl
          · exact hcg
          · exact hmg
        · rcases hor with rfl | rfl
          · omega
          · omega

/-- The structure behind the chunks is no chunk. -/
theorem chunkInGroup_page (h : Core flags s L) (hg : g ∈ L.groups) :
    MallocInfo.chunkInGroup s.memory g.page g.pg = .error .check := by
  have hsize := h.le_size hg
  have hpage := h.page_le hg
  have hsize0 : g.page.size_of_chunk ≠ 0 := (show g.size ≠ 0 by omega)
  have hthis : g.page.beg + (g.pg - g.page.beg) / g.page.size_of_chunk * g.page.size_of_chunk = g.pg := by
    have hsub : g.pg - g.beg = g.n_chunks * g.size := Nat.add_sub_cancel_left ..
    rw [Group.page]
    dsimp only
    rw [hsub, Nat.mul_div_cancel _ (by omega)]
    rfl
  have hrange : PageGroup.InRange g.page g.pg = true := by
    have hlt : g.pg < g.end_ := by omega
    simp [PageGroup.InRange, Group.page, hpage.1, hlt]
  -- the first byte there is the lowest of the address of a page
  have hbyte : get s.memory g.pg .chunk_state = 0 := by
    have hbeg : s.memory.load g.pg 8 = g.beg := congrArg PageGroup.beg (h.page g hg)
    have hmod : g.beg % 256 = 0 := Nat.mod_eq_zero_of_dvd (Dvd.dvd.trans (by decide) (h.mapped g hg).2.1)
    have hlt := (s.memory g.pg).isLt
    rw [FlatMemory.load] at hbeg
    have hfirst : get s.memory g.pg .chunk_state = (s.memory g.pg).toNat := by
      simp [AsanChunk.get, Field.offset, Field.bytes, FlatMemory.load]
    omega
  have hstates : ¬(get s.memory g.pg .chunk_state = CHUNK_ALLOCATED ∨ get s.memory g.pg .chunk_state = CHUNK_AVAILABLE ∨
      get s.memory g.pg .chunk_state = CHUNK_QUARANTINE) := by
    rw [hbyte]
    decide
  rw [MallocInfo.chunkInGroup]
  dsimp only
  rw [hthis, CHECK_of hsize0, CHECK_of hrange, ok_bind, ok_bind, CHECK, if_neg hstates]
  rfl

/-- An address in a group finds a chunk near it, and one in no group finds none. -/
structure Found (s s' : MallocInfo) (L : Layout) (addr r : ℕ) : Prop where
  resorted : Resorted s s'
  found : ∀ g ∈ L.groups, g.Finds addr → FoundChunk s.memory g addr r
  none : (∀ g ∈ L.groups, ¬g.Finds addr) → r = 0

theorem findChunk_ok (h : Core flags s L) (hi : Indexed s) (hpg : ∀ g ∈ L.groups, addr ≠ g.pg) :
    ∃ r s', s.FindChunkByAddrUnlocked addr = .ok (r,s') ∧ Found s s' L addr r := by
  obtain ⟨pg,s',hfind,hf⟩ := findPageGroup_ok h hi addr
  rw [MallocInfo.FindChunkByAddrUnlocked, hfind, ok_bind]
  dsimp only
  by_cases hgroup : ∃ g ∈ L.groups, g.Finds addr
  · obtain ⟨g,hg,hin⟩ := hgroup
    have hpage := h.page_le hg
    have hbeg := (h.mapped g hg).1
    have hne := hpg g hg
    obtain ⟨r,hrun,hr⟩ := chunkInGroup_ok h hg hin.1 (by have hle := hin.2; omega)
    rw [hf.found g hg hin, if_neg (by omega), hf.resorted.memory, h.page g hg, hrun]
    refine ⟨r,s',rfl,hf.resorted,fun g' hg' hin' => ?_,fun hno => absurd hin (hno g hg)⟩
    rwa [h.finds_unique hg' hg hin' hin]
  · have hno : ∀ g ∈ L.groups, ¬g.Finds addr := fun g hg hin => hgroup ⟨g,hg,hin⟩
    rw [hf.none hno, if_pos rfl]
    exact ⟨0,s',rfl,hf.resorted,fun g hg hin => absurd hin (hno g hg),fun _ => rfl⟩

/-- The search ends the process just where the address is that of the structure behind the chunks of a group. -/
theorem findChunk_page (h : Core flags s L) (hi : Indexed s) (hg : g ∈ L.groups) :
    s.FindChunkByAddrUnlocked g.pg = .error .check := by
  have hpage := h.page_le hg
  have hbeg := (h.mapped g hg).1
  obtain ⟨pg,s',hfind,hf⟩ := findPageGroup_ok h hi g.pg
  rw [MallocInfo.FindChunkByAddrUnlocked, hfind, ok_bind]
  dsimp only
  rw [hf.found g hg ⟨hpage.1,le_rfl⟩, if_neg (by omega), hf.resorted.memory, h.page g hg, chunkInGroup_page h hg]
  rfl

/-- The size is that of the block that begins at the address, if there is one. -/
structure Sized (s s' : MallocInfo) (L : Layout) (ptr n : ℕ) : Prop where
  resorted : Resorted s s'
  block : ∀ m ∈ L.held .user, AsanChunk.Beg s.memory m = some ptr → n = get s.memory m .used_size
  none : (∀ m ∈ L.held .user, AsanChunk.Beg s.memory m ≠ some ptr) → n = 0

theorem allocationSize_ok (h : Core flags s L) (hi : Indexed s) (hpg : ∀ g ∈ L.groups, addr ≠ g.pg) :
    ∃ n s', s.AllocationSize addr = .ok (n,s') ∧ Sized s s' L addr n := by
  -- a block that begins at the address has it inside, and its chunk is in a group
  have hblock : ∀ m ∈ L.held .user, AsanChunk.Beg s.memory m = some addr → ∃ g ∈ L.groups, m ∈ g.chunks ∧ m < addr ∧
      addr < addr + get s.memory m .used_size ∧ g.Finds addr := by
    intro m hm hbeg
    obtain ⟨g,hg,hmg,hok⟩ := h.ok hm
    obtain ⟨b,howned⟩ := hok.owned rfl
    obtain rfl : addr = b := Option.some.inj (hbeg.symm.trans howned.beg)
    have hr := h.chunk_range hg hmg
    have hbehind := howned.behind
    have hfits := howned.fits
    have hused := howned.pos
    have hpos := flags.pos
    exact ⟨g,hg,hmg,by omega,by omega,by omega,by omega⟩
  rw [MallocInfo.AllocationSize]
  by_cases hzero : addr = 0
  · rw [if_pos hzero]
    refine ⟨0,s,rfl,⟨rfl,List.Perm.refl _,hi⟩,fun m hm hbeg => ?_,fun _ => rfl⟩
    obtain ⟨g,-,-,hlt,-⟩ := hblock m hm hbeg
    omega
  · rw [if_neg hzero]
    obtain ⟨r,s',hfind,hf⟩ := findChunk_ok h hi hpg
    rw [hfind, ok_bind]
    dsimp only
    by_cases hgroup : ∃ g ∈ L.groups, g.Finds addr
    · obtain ⟨g,hg,hin⟩ := hgroup
      have hfound := hf.found g hg hin
      obtain ⟨⟨b,hb⟩,p,hp,hstate⟩ := h.headed hg hfound.mem_chunks
      have hr0 := h.ne_zero hp
      rw [if_neg hr0, hf.resorted.memory, hb.beg, checked_some, ok_bind]
      refine ⟨_,s',rfl,hf.resorted,fun m hm hbeg => ?_,fun hno => if_neg ?_⟩
      · obtain ⟨g',hg',hmg,-,hlt,hin'⟩ := hblock m hm hbeg
        obtain rfl := h.finds_unique hg' hg hin' hin
        obtain rfl := hfound.inside m hmg addr hbeg le_rfl hlt
        have hst := h.state_eq hm
        obtain rfl : addr = b := Option.some.inj (hbeg.symm.trans hb.beg)
        exact if_pos ⟨rfl,hst⟩
      · rintro ⟨rfl,hst⟩
        have hpu : p = .user := Place.eq_user (hstate.symm.trans hst)
        exact hno r (hpu ▸ hp) hb.beg
    · have hno : ∀ g ∈ L.groups, ¬g.Finds addr := fun g hg hin => hgroup ⟨g,hg,hin⟩
      rw [hf.none hno, if_pos rfl]
      refine ⟨0,s',rfl,hf.resorted,fun m hm hbeg => ?_,fun _ => rfl⟩
      obtain ⟨g,hg,-,-,-,hin⟩ := hblock m hm hbeg
      exact absurd hin (hno g hg)

end CompilerRt.AsanAllocator
