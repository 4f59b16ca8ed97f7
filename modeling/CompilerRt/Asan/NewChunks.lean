import CompilerRt.Asan.ChunkLists
import Mathlib

/-! # New chunks

`GetNewChunks` maps a group of chunks. The chunks are zeroed but for their state, their class, and their links, and all
of the mapping is poisoned.
-/
namespace CompilerRt.AsanAllocator
open Sanitizer AsanMapping
open AsanChunk

namespace MallocInfo
variable {flags : Flags} {mmap : ℕ → ℕ} {s s' : MallocInfo} {L : Layout} {size_class size beg n m : ℕ} {g g' : Group}
  {mem mem' : FlatMemory}

/-- Pages that the kernel can give. -/
structure Fresh (s : MallocInfo) (beg size : ℕ) : Prop where
  ne_zero : beg ≠ 0
  pages : 4096 ∣ beg
  range : WordSize.w64.InOneRange beg (beg + size)
  apart : ∀ pg ∈ s.page_groups_, beg + size ≤ (PageGroup.read s.memory pg).beg ∨
    (PageGroup.read s.memory pg).end_ ≤ beg

theorem MmapOrDie_eq_ok {r : ℕ × MallocInfo} : s.MmapOrDie mmap size = .ok r ↔
    s.Fresh (mmap s.page_groups_.length) size ∧
      r = (mmap s.page_groups_.length,{ s with memory := s.memory.fill (mmap s.page_groups_.length) size 0 }) := by
  rw [MmapOrDie]
  split_ifs with hfresh
  · obtain ⟨hne,hpages,hrange,hapart⟩ := hfresh
    have hfresh : s.Fresh (mmap s.page_groups_.length) size := by
      refine ⟨hne,Nat.dvd_of_mod_eq_zero hpages,by simpa [WordSize.InOneRange] using hrange,?_⟩
      simpa using hapart
    simp only [Except.ok.injEq, hfresh, true_and]
    exact eq_comm
  · refine iff_of_false (by simp) fun h => hfresh ?_
    obtain ⟨hne,hpages,hrange,hapart⟩ := h.1
    refine ⟨hne,Nat.mod_eq_zero_of_dvd hpages,by simpa [WordSize.InOneRange] using hrange,?_⟩
    simpa using hapart

theorem MmapOrDie_error {e : Stop} (h : s.MmapOrDie mmap size = .error e) : e = .mmap := by
  rw [MmapOrDie] at h
  split_ifs at h
  cases h
  rfl

/-- The first `n` chunks, with the list of them. -/
structure NewChunks (mem : FlatMemory) (beg size size_class n : ℕ) (r : FlatMemory × ℕ) : Prop where
  chain : Chain (nextOf r.1) r.2 ((List.range n).map fun i => beg + i * size).reverse
  state : ∀ i < n, get r.1 (beg + i * size) .chunk_state = CHUNK_AVAILABLE
  size_class : ∀ i < n, get r.1 (beg + i * size) .size_class = size_class
  other : ∀ i < n, ∀ f, f ≠ .chunk_state → f ≠ .size_class → f ≠ .next →
    get r.1 (beg + i * size) f = get mem (beg + i * size) f
  outside : ∀ a, a < beg ∨ beg + n * size ≤ a → r.1 a = mem a

theorem newChunks_spec (hbeg : beg ≠ 0) (hsize : 24 ≤ size) (hlt : beg + n * size < 2^64) (hclass : size_class < 256) :
    NewChunks mem beg size size_class n (newChunks mem beg size size_class n) := by
  induction n with
  | zero => exact ⟨rfl,fun _ h => absurd h (Nat.not_lt_zero _),fun _ h => absurd h (Nat.not_lt_zero _),
      fun _ h => absurd h (Nat.not_lt_zero _),fun _ _ => rfl⟩
  | succ n ih =>
    have hmul : (n + 1) * size = n * size + size := Nat.succ_mul n size
    have h := ih (by omega)
    rw [newChunks]
    generalize hr : newChunks mem beg size size_class n = r at h ⊢
    obtain ⟨mem₁,res⟩ := r
    dsimp only at h ⊢
    have hap : ∀ i < n, beg + n * size + 24 ≤ beg + i * size ∨ beg + i * size + 24 ≤ beg + n * size := by
      intro i hi
      have hle := Nat.mul_le_mul_right size (Nat.succ_le_of_lt hi)
      rw [Nat.succ_mul] at hle
      omega
    have hres : res < 2^64 := by
      by_cases hzero : res = 0
      · omega
      · obtain ⟨l',hl',-⟩ := h.chain.tail hzero
        have hmem : res ∈ ((List.range n).map fun i => beg + i * size).reverse := hl' ▸ List.mem_cons_self
        rw [List.mem_reverse, List.mem_map] at hmem
        obtain ⟨i,hi,rfl⟩ := hmem
        have hap := hap i (List.mem_range.mp hi)
        have hle := Nat.mul_le_mul_right size (List.mem_range.mp hi).le
        omega
    -- the header of the chunk after the three stores
    have hold : ∀ i < n, ∀ f, get (set (set (set mem₁ (beg + n * size) .chunk_state CHUNK_AVAILABLE) (beg + n * size)
        .size_class size_class) (beg + n * size) .next res) (beg + i * size) f = get mem₁ (beg + i * size) f := by
      intro i hi f
      rw [get_set_apart (hap i hi), get_set_apart (hap i hi), get_set_apart (hap i hi)]
    refine ⟨?_,fun i hi => ?_,fun i hi => ?_,fun i hi f h1 h2 h3 => ?_,fun a ha => ?_⟩
    · rw [List.range_succ, List.map_append, List.reverse_append, List.map_singleton, List.reverse_singleton,
        List.singleton_append]
      have htail : Chain (nextOf (set (set (set mem₁ (beg + n * size) .chunk_state CHUNK_AVAILABLE) (beg + n * size)
          .size_class size_class) (beg + n * size) .next res)) res ((List.range n).map fun i => beg + i * size).reverse := by
        refine h.chain.congr fun x hx => ?_
        rw [List.mem_reverse, List.mem_map] at hx
        obtain ⟨i,hi,rfl⟩ := hx
        exact hold i (List.mem_range.mp hi) .next
      exact htail.cons (by omega) (get_set hres)
    · rcases Nat.lt_succ_iff_lt_or_eq.mp hi with hi | rfl
      · rw [hold i hi, h.state i hi]
      · rw [get_set_of_ne (by decide), get_set_of_ne (by decide), get_set (by decide)]
    · rcases Nat.lt_succ_iff_lt_or_eq.mp hi with hi | rfl
      · rw [hold i hi, h.size_class i hi]
      · rw [get_set_of_ne (by decide), get_set hclass]
    · rcases Nat.lt_succ_iff_lt_or_eq.mp hi with hi | rfl
      · rw [hold i hi, h.other i hi f h1 h2 h3]
      · rw [get_set_of_ne h3, get_set_of_ne h2, get_set_of_ne h1]
        exact get_congr fun a ha hlt => h.outside a (by omega)
    · have hf : ∀ f : Field, a < beg + n * size + f.offset ∨ beg + n * size + f.offset + f.bytes ≤ a := by
        intro f
        have hle := f.le_bytes
        omega
      dsimp only
      rw [set_outside (hf _), set_outside (hf _), set_outside (hf _)]
      exact h.outside a (by omega)

/-- What is read behind the chunks is what was written. -/
theorem read_write {pg : ℕ} {page : PageGroup} (h1 : page.beg < 256^8) (h2 : page.end_ < 256^8)
    (h3 : page.size_of_chunk < 256^8) (h4 : page.last_chunk < 256^8) :
    PageGroup.read (PageGroup.write mem pg page) pg = page := by
  rw [PageGroup.read, PageGroup.write, FlatMemory.load_store_of_lt h4, FlatMemory.load_store_apart (by omega),
    FlatMemory.load_store_apart (by omega), FlatMemory.load_store_apart (by omega), FlatMemory.load_store_of_lt h1,
    FlatMemory.load_store_apart (by omega), FlatMemory.load_store_apart (by omega), FlatMemory.load_store_of_lt h2,
    FlatMemory.load_store_apart (by omega), FlatMemory.load_store_of_lt h3]

theorem write_outside {pg a : ℕ} {page : PageGroup} (h : a < pg ∨ pg + 32 ≤ a) :
    PageGroup.write mem pg page a = mem a := by
  rw [PageGroup.write, FlatMemory.store_outside (by omega), FlatMemory.store_outside (by omega),
    FlatMemory.store_outside (by omega), FlatMemory.store_outside (by omega)]

/-- What `GetNewChunks` does. -/
structure Grown (flags : Flags) (s s' : MallocInfo) (g : Group) (res : ℕ) : Prop where
  fresh : s.Fresh g.beg g.mmap_size
  pages : s'.page_groups_ = s.page_groups_ ++ [g.pg]
  sorted : s'.n_sorted_page_groups_ = s.n_sorted_page_groups_
  free_lists : s'.free_lists_ = s.free_lists_
  quarantine : s'.quarantine_ = s.quarantine_
  threads : s'.threads = s.threads
  chain : Chain (nextOf s'.memory) res g.chunks.reverse
  page : PageGroup.read s'.memory g.pg = g.page
  chunk : ∀ p, p.state = CHUNK_AVAILABLE → (∀ c, p.listClass = some c → c = g.size_class) →
    ∀ m ∈ g.chunks, ChunkOk flags s'.memory s'.shadow g p m
  memory : ∀ a, a < g.beg ∨ g.end_ ≤ a → s'.memory a = s.memory a
  shadow : ∀ k, 8 * k < g.beg ∨ g.end_ ≤ 8 * k →
    s'.shadow (WordSize.w64.SHADOW_OFFSET + k) = s.shadow (WordSize.w64.SHADOW_OFFSET + k)
  poisoned : Negative s'.shadow g.beg g.end_

theorem isAligned_page (h : 4096 ∣ size) : IsAligned size Sanitizer.kPageSize = true :=
  (isAligned_pow (k := 12) (by decide)).mpr h

/-- The state with a new group, and the list of its chunks. -/
def grow (s : MallocInfo) (g : Group) : ℕ × MallocInfo :=
  let r := newChunks (s.memory.fill g.beg g.mmap_size 0) g.beg g.size g.size_class g.n_chunks
  (r.2,{ s with
    memory := PageGroup.write r.1 g.pg g.page
    shadow := s.shadow.memset (WordSize.w64.SHADOW_OFFSET + g.beg / 8) kAsanHeapLeftRedzoneMagic (g.mmap_size / 8)
    page_groups_ := s.page_groups_ ++ [g.pg] })

/-- The header of a chunk that was never handed out. -/
theorem beg_zero (h : get mem m .alignment_log = 0) (hm : m < 2^63) : Beg mem m = some (m + 1) := by
  have hone : AsanChunk.intShl 0 = 2^0 := rfl
  rw [Beg, h, hone, LargeMmap.roundUpTo_pow (by decide)]
  have hlt : m + 1 + 2^0 - 1 = m + 1 := by omega
  rw [hlt, Nat.mod_eq_of_lt (by omega)]
  simp

theorem grown_of_fresh (hused : Used flags g.size_class g.size) (hfresh : s.Fresh g.beg g.mmap_size) :
    Grown flags s (s.grow g).2 g (s.grow g).1 := by
  have hsizes := hused.groupSizes.1
  have hfits : g.n_chunks * g.size + 32 ≤ g.mmap_size := hsizes.fits
  have hend := lt_of_inOneRange hfresh.range le_rfl
  have hsize : 32 ≤ g.size := by
    have hred := flags.le_redzone.1
    have htwo := hused.redzones
    omega
  have h8 : 8 ∣ g.beg ∧ 8 ∣ g.mmap_size :=
    ⟨Dvd.dvd.trans (by decide) hfresh.pages,Dvd.dvd.trans (by decide) hsizes.pages⟩
  have hnew : NewChunks (s.memory.fill g.beg g.mmap_size 0) g.beg g.size g.size_class g.n_chunks
      (newChunks (s.memory.fill g.beg g.mmap_size 0) g.beg g.size g.size_class g.n_chunks) :=
    newChunks_spec hfresh.ne_zero (by omega) (by omega) (by have hlt := hused.lt; omega)
  have hpoisoned : Negative (s.grow g).2.shadow g.beg g.end_ := negative_memset h8.1 h8.2 (by decide)
  have hpg : g.pg = g.beg + g.n_chunks * g.size := rfl
  have hge : g.end_ = g.beg + g.mmap_size := rfl
  -- the structure is written behind all chunks
  have hbelow : ∀ a, a < g.pg → (s.grow g).2.memory a =
      (newChunks (s.memory.fill g.beg g.mmap_size 0) g.beg g.size g.size_class g.n_chunks).1 a :=
    fun a ha => write_outside (.inl ha)
  have hget : ∀ i < g.n_chunks, ∀ f, get (s.grow g).2.memory (g.beg + i * g.size) f =
      get (newChunks (s.memory.fill g.beg g.mmap_size 0) g.beg g.size g.size_class g.n_chunks).1 (g.beg + i * g.size) f := by
    intro i hi f
    have hmul := Nat.mul_le_mul_right g.size (Nat.succ_le_of_lt hi)
    have hf := f.le_bytes
    rw [Nat.succ_mul] at hmul
    exact get_congr fun a ha hlt => hbelow a (by omega)
  have hzero : ∀ i < g.n_chunks, ∀ f, f ≠ .chunk_state → f ≠ .size_class → f ≠ .next →
      get (s.grow g).2.memory (g.beg + i * g.size) f = 0 := by
    intro i hi f h1 h2 h3
    have hmul := Nat.mul_le_mul_right g.size (Nat.succ_le_of_lt hi)
    have hf := f.le_bytes
    rw [Nat.succ_mul] at hmul
    rw [hget i hi, hnew.other i hi f h1 h2 h3]
    exact FlatMemory.load_zero fun a ha hlt => if_pos (by omega)
  refine ⟨hfresh,rfl,rfl,rfl,rfl,rfl,?_,?_,fun p hp hlist m hm => ?_,fun a ha => ?_,fun k hk => ?_,hpoisoned⟩
  · refine hnew.chain.congr fun x hx => ?_
    rw [List.mem_reverse, List.mem_map] at hx
    obtain ⟨i,hi,rfl⟩ := hx
    exact hget i (List.mem_range.mp hi) .next
  · have hmul : g.size * (g.n_chunks - 1) ≤ g.n_chunks * g.size := by
      rw [Nat.mul_comm]
      exact Nat.mul_le_mul_right _ (Nat.sub_le _ _)
    have hlt : g.n_chunks * g.size < 2^63 := by omega
    have hsize_le : 1 * g.size ≤ g.n_chunks * g.size := Nat.mul_le_mul_right _ hsizes.pos
    have hsum : g.beg + g.size * (g.n_chunks - 1) ≤ g.end_ := by omega
    have hword : (256:ℕ)^8 = 2^64 := by norm_num
    refine read_write ?_ ?_ ?_ ?_
    · rw [hword]
      exact (show g.beg < 2^64 by omega)
    · rw [hword]
      exact (show g.end_ < 2^64 by omega)
    · rw [hword]
      exact (show g.size < 2^64 by omega)
    · rw [hword]
      exact (show g.beg + g.size * (g.n_chunks - 1) < 2^64 by omega)
  · obtain ⟨i,hi,rfl⟩ := Group.mem_chunks.mp hm
    have hle := Group.le_of_mem hm
    refine ⟨?_,?_,hlist,⟨_,beg_zero (hzero i hi .alignment_log (by decide) (by decide) (by decide)) (by omega),
      by omega,?_⟩,fun hu => ?_,fun _ => hpoisoned.mono hle.1 (by omega)⟩
    · rw [hget i hi, hnew.state i hi, hp]
    · rw [hget i hi, hnew.size_class i hi]
    · rw [hzero i hi .used_size (by decide) (by decide) (by decide)]
      omega
    · rw [hu] at hp
      exact absurd hp (by decide)
  · have houter : (s.grow g).2.memory a =
        (newChunks (s.memory.fill g.beg g.mmap_size 0) g.beg g.size g.size_class g.n_chunks).1 a :=
      write_outside (by omega)
    rw [houter, hnew.outside a (by omega)]
    exact FlatMemory.fill_outside (by omega)
  · exact (memset_granule h8.1 h8.2).trans (if_neg (by omega))

theorem getNewChunks_runs {bad : Prop} (hused : Used flags size_class size)
    (hroom : ¬bad → s.page_groups_.length < kMaxAvailableRam / kMinMmapSize) :
    Runs bad (s.GetNewChunks mmap size_class) fun r =>
      Grown flags s r.2 ⟨mmap s.page_groups_.length,size_class⟩ r.1 := by
  obtain ⟨hsizes,hmin,hmul⟩ := hused.groupSizes
  generalize hg : (⟨mmap s.page_groups_.length,size_class⟩ : Group) = g
  have hbeg : g.beg = mmap s.page_groups_.length := by rw [← hg]
  have hclass : g.size_class = size_class := by rw [← hg]
  have hsize : g.size = size := by rw [Group.size, hclass, hused.size_eq, Option.getD_some]
  have hn : (groupSizes size).1 = g.n_chunks := by rw [Group.n_chunks, hsize]
  have hm : (groupSizes size).2 = g.mmap_size := by rw [Group.mmap_size, hsize]
  have hpow : IsPowerOfTwo kMinMmapSize = true := by decide
  rw [hn, hm] at hsizes
  rw [GetNewChunks]
  cases hmap : s.MmapOrDie mmap g.mmap_size with
  | error e =>
    cases MmapOrDie_error hmap
    simp [hused.size_eq, CHECK_of, hpow, hmin, hmul, hn, hm, hsizes.pos, MmapNewPagesAndPoisonShadow,
      isAligned_page hsizes.pages, hmap]
    exact Runs.error_mmap
  | ok r =>
    obtain ⟨hfresh,rfl⟩ := MmapOrDie_eq_ok.mp hmap
    rw [← hbeg] at hfresh hmap
    have hpages : 4096 ∣ g.mmap_size := hsizes.pages
    have hpoison := poisonShadow_range s.shadow kAsanHeapLeftRedzoneMagic
      (Dvd.dvd.trans (by decide) hfresh.pages : 8 ∣ g.beg) (Dvd.dvd.trans (by decide) hpages) hfresh.range
    have hgrown : Grown flags s (s.grow g).2 g (s.grow g).1 := grown_of_fresh (by rwa [hsize, hclass]) hfresh
    simp [hused.size_eq, CHECK_of, hpow, hmin, hmul, hn, hm, hsizes.pos, MmapNewPagesAndPoisonShadow,
      isAligned_page hsizes.pages, hmap, hpoison]
    refine (Runs.check hroom).bind fun _ _ => ?_
    rw [grow, Group.page, Group.pg, Group.end_, hsize, hclass] at hgrown
    exact Runs.ok hgrown

end MallocInfo
end CompilerRt.AsanAllocator
