import CompilerRt.Asan.Allocator
import CompilerRt.Lib.Chain
import CompilerRt.Lib.Spread
import Mathlib

/-! # Where chunks lie

The groups of chunks that were mapped, the places that a chunk can be at, and what is in the memory and in the shadow
of a chunk at its place.
-/
namespace CompilerRt.AsanAllocator
open Sanitizer AsanMapping
open AsanChunk

/-! ## Groups -/

/-- The chunks of one call of `GetNewChunks`. -/
structure Group where
  beg : ℕ
  size_class : ℕ

namespace Group

def size (g : Group) : ℕ := (SizeClassToSize g.size_class).getD 0
def n_chunks (g : Group) : ℕ := (MallocInfo.groupSizes g.size).1
def mmap_size (g : Group) : ℕ := (MallocInfo.groupSizes g.size).2
def pg (g : Group) : ℕ := g.beg + g.n_chunks * g.size
def end_ (g : Group) : ℕ := g.beg + g.mmap_size
def chunks (g : Group) : List ℕ := (List.range g.n_chunks).map fun i => g.beg + i * g.size

/-- What is stored behind the chunks. -/
def page (g : Group) : PageGroup := ⟨g.beg,g.end_,g.size,g.beg + g.size * (g.n_chunks - 1)⟩

end Group

/-- The classes that the allocator uses: their chunks have room for two redzones. -/
structure Used (flags : Flags) (size_class size : ℕ) : Prop where
  lt : size_class < 255
  size_eq : SizeClassToSize size_class = some size
  redzones : 2 * flags.redzone ≤ size

variable {flags : Flags} {size_class size m a : ℕ} {g g' : Group}

theorem kMinMmapSize_eq : kMinMmapSize = 2^22 := rfl
theorem kPageSize_eq : Sanitizer.kPageSize = 4096 := rfl

theorem Flags.le_redzone (flags : Flags) : 16 ≤ flags.redzone ∧ 16 ∣ flags.redzone := by
  obtain ⟨j,hj,-,hr⟩ := flags.redzone_pow
  rw [hr]
  exact ⟨Nat.pow_le_pow_right (by decide : 0 < 2) hj,Nat.pow_dvd_pow 2 hj⟩

theorem Flags.pos (flags : Flags) : 0 < flags.redzone := lt_of_lt_of_le (by decide) flags.le_redzone.1

/-- A size is a power of two, or a multiple of the step. -/
theorem Used.shape (h : Used flags size_class size) :
    (∃ k, 5 ≤ k ∧ k ≤ 22 ∧ size = 2^k) ∨ (2^22 < size ∧ 2^22 ∣ size ∧ size < 2^34) := by
  have hpos := flags.le_redzone.1
  have htwo := h.redzones
  have heq := h.size_eq
  rcases Nat.lt_or_ge 26 size_class with hlarge | hsmall
  · rw [sizeClassToSize_large hlarge h.lt] at heq
    have hlt := h.lt
    have hmul : 1 * 2^26 ≤ (size_class - 26) * 2^26 := Nat.mul_le_mul_right _ (by omega)
    have hdvd : 2^22 ∣ (size_class - 26) * 2^26 := Dvd.dvd.mul_left (Nat.pow_dvd_pow 2 (by decide)) _
    cases heq
    exact .inr ⟨by omega,hdvd,by omega⟩
  · rw [sizeClassToSize_small hsmall] at heq
    cases heq
    have h5 : 5 ≤ size_class := by
      by_contra hlt
      have hpow : 2^size_class ≤ 2^4 := Nat.pow_le_pow_right (by decide) (by omega)
      omega
    rcases Nat.lt_or_ge 22 size_class with hbig | hbig
    · have hlow : 2^22 < 2^size_class := Nat.pow_lt_pow_right (by decide) hbig
      have hhigh : 2^size_class < 2^34 := Nat.pow_lt_pow_right (by decide) (by omega)
      exact .inr ⟨hlow,Nat.pow_dvd_pow 2 hbig.le,hhigh⟩
    · exact .inl ⟨size_class,h5,hbig,rfl⟩

/-- The numbers of a group: its chunks and the structure behind them fit into the pages. -/
structure GroupSizes (size n_chunks mmap_size : ℕ) : Prop where
  pos : 0 < n_chunks
  fits : n_chunks * size + 32 ≤ mmap_size
  pages : 4096 ∣ mmap_size
  lt : mmap_size < 2^35
  many : n_chunks = 1 ∨ ∃ k ≤ 22, size = 2^k

theorem Used.groupSizes (h : Used flags size_class size) :
    GroupSizes size (MallocInfo.groupSizes size).1 (MallocInfo.groupSizes size).2 ∧
      (size < kMinMmapSize ∨ size % kMinMmapSize = 0) ∧
      max size kMinMmapSize / size * size = max size kMinMmapSize := by
  rw [MallocInfo.groupSizes, kMinMmapSize_eq, kPageSize_eq]
  rcases h.shape with ⟨k,h5,h22,rfl⟩ | ⟨hlow,hdvd,hlt⟩
  · have hle : 2^k ≤ 2^22 := Nat.pow_le_pow_right (by decide) h22
    have h32 : 2^5 ≤ 2^k := Nat.pow_le_pow_right (by decide) h5
    have hdiv : 2^22 / 2^k = 2^(22 - k) := Nat.pow_div h22 (by decide)
    have hmul : 2^(22 - k) * 2^k = 2^22 := by rw [← Nat.pow_add, Nat.sub_add_cancel h22]
    have hpos := Nat.two_pow_pos (22 - k)
    have hmod : 2^k < 2^22 ∨ 2^k % 2^22 = 0 := by
      rcases Nat.lt_or_eq_of_le hle with hlt | heq
      · exact .inl hlt
      · rw [heq]
        exact .inr (Nat.mod_self _)
    rw [max_eq_right hle, hdiv]
    refine ⟨?_,hmod,hmul⟩
    split_ifs with hpage
    · have htwo : 2 ≤ 2^(22 - k) := by
        have hk : k < 12 := (Nat.pow_lt_pow_iff_right (by decide : 1 < 2)).mp hpage
        calc 2 = 2^1 := rfl
          _ ≤ 2^(22 - k) := Nat.pow_le_pow_right (by decide) (by omega)
      have hsub : (2^(22 - k) - 1) * 2^k = 2^22 - 2^k := by rw [Nat.sub_mul, hmul, Nat.one_mul]
      have hfits : (2^(22 - k) - 1) * 2^k + 32 ≤ 2^22 := by omega
      exact ⟨by omega,hfits,(by decide : 4096 ∣ 2^22),(by decide : 2^22 < 2^35),.inr ⟨k,h22,rfl⟩⟩
    · have hfits : 2^(22 - k) * 2^k + 32 ≤ 2^22 + 4096 := by omega
      exact ⟨hpos,hfits,(by decide : 4096 ∣ 2^22 + 4096),(by decide : 2^22 + 4096 < 2^35),.inr ⟨k,h22,rfl⟩⟩
  · have hpos : 0 < size := by omega
    rw [max_eq_left hlow.le, Nat.div_self hpos, if_neg (by omega)]
    refine ⟨⟨Nat.one_pos,by omega,?_,by omega,.inl rfl⟩,.inr (Nat.mod_eq_zero_of_dvd hdvd),Nat.one_mul size⟩
    exact (Dvd.dvd.trans (by decide : 4096 ∣ 2^22) hdvd).add (dvd_refl 4096)

theorem Group.mem_chunks : m ∈ g.chunks ↔ ∃ i < g.n_chunks, m = g.beg + i * g.size := by
  simp only [Group.chunks, List.mem_map, List.mem_range, eq_comm]

/-- A chunk is before the structure behind the chunks. -/
theorem Group.le_of_mem (h : m ∈ g.chunks) : g.beg ≤ m ∧ m + g.size ≤ g.pg := by
  obtain ⟨i,hi,rfl⟩ := Group.mem_chunks.mp h
  have hmul := Nat.mul_le_mul_right g.size (Nat.succ_le_of_lt hi)
  rw [Nat.succ_mul] at hmul
  rw [Group.pg]
  omega

theorem Group.chunks_apart {m' : ℕ} (h : m ∈ g.chunks) (h' : m' ∈ g.chunks) (hne : m ≠ m') :
    m + g.size ≤ m' ∨ m' + g.size ≤ m := by
  obtain ⟨i,-,rfl⟩ := Group.mem_chunks.mp h
  obtain ⟨j,-,rfl⟩ := Group.mem_chunks.mp h'
  rcases Nat.lt_trichotomy i j with hij | rfl | hij
  · have hmul := Nat.mul_le_mul_right g.size (Nat.succ_le_of_lt hij)
    rw [Nat.succ_mul] at hmul
    omega
  · exact absurd rfl hne
  · have hmul := Nat.mul_le_mul_right g.size (Nat.succ_le_of_lt hij)
    rw [Nat.succ_mul] at hmul
    omega

theorem Group.chunks_nodup (h : 0 < g.size) : g.chunks.Nodup := by
  refine List.Nodup.map (fun i j hij => ?_) List.nodup_range
  exact Nat.eq_of_mul_eq_mul_right h (Nat.add_left_cancel hij)

/-- Chunks have the alignment that the pages of the group have. -/
theorem Group.dvd_of_mem (h : m ∈ g.chunks) (hused : Used flags g.size_class g.size) (hbeg : flags.redzone ∣ g.beg) :
    flags.redzone ∣ m := by
  obtain ⟨i,hi,rfl⟩ := Group.mem_chunks.mp h
  rcases hused.groupSizes.1.many with hone | ⟨k,-,hk⟩
  · have hzero : i = 0 := by
      have hi' : i < (MallocInfo.groupSizes g.size).1 := hi
      omega
    rw [hzero, Nat.zero_mul]
    exact hbeg
  · obtain ⟨j,-,-,hj⟩ := flags.redzone_pow
    have htwo := hused.redzones
    rw [hj] at hbeg htwo ⊢
    have hle : j ≤ k := by
      rw [hk, ← Nat.pow_succ'] at htwo
      have hlt := (Nat.pow_le_pow_iff_right (by decide : 1 < 2)).mp htwo
      omega
    rw [hk]
    exact hbeg.add (Dvd.dvd.mul_left (Nat.pow_dvd_pow 2 hle) i)

/-! ## Places -/

/-- Where a chunk is; a call holds the chunks that it has taken. -/
inductive Place
  | free (size_class : ℕ)
  | cached (t size_class : ℕ)
  | taken
  | user
  | waiting (t : ℕ)
  | quarantine
  deriving DecidableEq

def Place.state : Place → ℕ
  | .free _ | .cached _ _ | .taken => CHUNK_AVAILABLE
  | .user => CHUNK_ALLOCATED
  | .waiting _ | .quarantine => CHUNK_QUARANTINE

/-- The lists that are for one class. -/
def Place.listClass : Place → Option ℕ
  | .free size_class | .cached _ size_class => some size_class
  | _ => none

/-- All granules between two addresses are poisoned as a whole. -/
def Negative (shadow : Shadow) (a b : ℕ) : Prop :=
  ∀ k, a ≤ 8 * k → 8 * k < b → (shadow (WordSize.w64.SHADOW_OFFSET + k)).toInt < 0

def roundedUp (redzone n : ℕ) : ℕ := (n + redzone - 1) / redzone * redzone

/-- A chunk that the user has from `addr` on. -/
structure Owned (flags : Flags) (mem : FlatMemory) (shadow : Shadow) (size m addr : ℕ) : Prop where
  beg : Beg mem m = some addr
  ptr : MallocInfo.PtrToChunk flags mem addr = m
  aligned : flags.redzone ∣ addr
  behind : m + flags.redzone ≤ addr
  pos : 1 ≤ get mem m .used_size
  fits : addr + roundedUp flags.redzone (get mem m .used_size) ≤ m + size
  free_tid : get mem m .free_tid = kInvalidTid
  next : 16 < flags.redzone → get mem m .next = 0
  left : Negative shadow m addr
  inside : ∀ k, addr ≤ 8 * k → 8 * k < addr + roundedUp flags.redzone (get mem m .used_size) →
    shadow (WordSize.w64.SHADOW_OFFSET + k) =
      redzoneValue (get mem m .used_size) (8 * k - addr) kAsanHeapRightRedzoneMagic
  right : Negative shadow (addr + roundedUp flags.redzone (get mem m .used_size)) (m + size)

/-- What the bytes and the shadow of a chunk are at its place. -/
structure ChunkOk (flags : Flags) (mem : FlatMemory) (shadow : Shadow) (g : Group) (p : Place) (m : ℕ) : Prop where
  state : get mem m .chunk_state = p.state
  size_class : get mem m .size_class = g.size_class
  listed : ∀ c, p.listClass = some c → c = g.size_class
  headed : ∃ b, Beg mem m = some b ∧ m < b ∧ b + get mem m .used_size ≤ m + g.size
  owned : p = .user → ∃ addr, Owned flags mem shadow g.size m addr
  poisoned : p ≠ .user → Negative shadow m (m + g.size)

structure Layout where
  groups : List Group
  held : Place → List ℕ

/-- The groups, and the chunks at their places. -/
structure Core (flags : Flags) (s : MallocInfo) (L : Layout) : Prop where
  pages : s.page_groups_.Perm (L.groups.map Group.pg)
  used : ∀ g ∈ L.groups, Used flags g.size_class g.size
  mapped : ∀ g ∈ L.groups, g.beg ≠ 0 ∧ 4096 ∣ g.beg ∧ WordSize.w64.InOneRange g.beg g.end_
  page : ∀ g ∈ L.groups, PageGroup.read s.memory g.pg = g.page
  tail : ∀ g ∈ L.groups, Negative s.shadow g.pg g.end_
  apart : L.groups.Pairwise fun g g' => g.end_ ≤ g'.beg ∨ g'.end_ ≤ g.beg
  spread : Spread L.held (L.groups.flatMap Group.chunks)
  chunk : ∀ g ∈ L.groups, ∀ m ∈ g.chunks, ∀ p, m ∈ L.held p → ChunkOk flags s.memory s.shadow g p m

/-- The lists do not count. -/
theorem Core.of_eq {s s' : MallocInfo} {L : Layout} (h : Core flags s L) (hpages : s'.page_groups_ = s.page_groups_)
    (hmem : s'.memory = s.memory) (hsh : s'.shadow = s.shadow) : Core flags s' L :=
  ⟨hpages ▸ h.pages,h.used,h.mapped,hmem ▸ h.page,hsh ▸ h.tail,h.apart,h.spread,hmem ▸ hsh ▸ h.chunk⟩

/-! ## Poisoning -/

section Poisoning
variable {shadow : Shadow} {addr b c d k : ℕ} {value : BitVec 8}

theorem inOneRange_sub (h : WordSize.w64.InOneRange a b) (hac : a ≤ c) (hcd : c ≤ d) (hdb : d ≤ b) :
    WordSize.w64.InOneRange c d := by
  simp only [WordSize.InOneRange, WordSize.AddrIsInLowMem, WordSize.AddrIsInHighMem, decide_eq_true_eq] at h ⊢
  omega

theorem lt_of_inOneRange (h : WordSize.w64.InOneRange a b) (hcb : c ≤ b) : c < 2^63 := by
  have hend : WordSize.w64.kHighMemEnd < 2^63 ∧ WordSize.w64.kLowMemEnd < 2^63 := by decide
  simp only [WordSize.InOneRange, WordSize.AddrIsInLowMem, WordSize.AddrIsInHighMem, decide_eq_true_eq] at h
  omega

/-- The granules that are set. -/
theorem memset_granule (haddr : 8 ∣ addr) (hsize : 8 ∣ size) :
    shadow.memset (WordSize.w64.SHADOW_OFFSET + addr / 8) value (size / 8) (WordSize.w64.SHADOW_OFFSET + k) =
      if addr ≤ 8 * k ∧ 8 * k < addr + size then value else shadow (WordSize.w64.SHADOW_OFFSET + k) := by
  rw [Shadow.memset]
  exact if_congr (by omega) rfl rfl

theorem poisonShadow_range (shadow : Shadow) (value : BitVec 8) (haddr : 8 ∣ addr) (hsize : 8 ∣ size)
    (h : WordSize.w64.InOneRange addr (addr + size)) :
    PoisonShadow .w64 shadow addr size value =
      some (shadow.memset (WordSize.w64.SHADOW_OFFSET + addr / 8) value (size / 8)) :=
  poisonShadow_eq (Nat.mod_eq_zero_of_dvd haddr) (Nat.mod_eq_zero_of_dvd hsize) h

theorem negative_memset (haddr : 8 ∣ addr) (hsize : 8 ∣ size) (hvalue : value.toInt < 0) :
    Negative (shadow.memset (WordSize.w64.SHADOW_OFFSET + addr / 8) value (size / 8)) addr (addr + size) := by
  intro k ha hb
  rw [memset_granule haddr hsize, if_pos ⟨ha,hb⟩]
  exact hvalue

end Poisoning

/-! ## Bytes that count -/

section Congruence
variable {mem mem' : FlatMemory} {shadow shadow' : Shadow} {p : Place} {addr : ℕ}

/-- The fields but the link. -/
theorem get_head_congr {f : Field} (hf : f ≠ .next) (h : ∀ a, m ≤ a → a < m + 16 → mem' a = mem a) :
    get mem' m f = get mem m f := by
  have hlt : f.offset + f.bytes ≤ 16 := by
    revert hf
    cases f <;> decide
  exact get_congr fun a ha hlt' => h a (by omega) (by omega)

theorem beg_congr (h : ∀ a, m ≤ a → a < m + 16 → mem' a = mem a) : Beg mem' m = Beg mem m := by
  rw [Beg, Beg, get_head_congr (by decide) h]

theorem size_congr (h : ∀ a, m ≤ a → a < m + 16 → mem' a = mem a) : Size mem' m = Size mem m := by
  rw [Size, Size, get_head_congr (by decide) h]

theorem Negative.congr {b : ℕ} (h : Negative shadow a b)
    (hsh : ∀ k, a ≤ 8 * k → 8 * k < b → shadow' (WordSize.w64.SHADOW_OFFSET + k) = shadow (WordSize.w64.SHADOW_OFFSET + k)) :
    Negative shadow' a b := by
  intro k ha hb
  rw [hsh k ha hb]
  exact h k ha hb

theorem Negative.mono {a' b b' : ℕ} (h : Negative shadow a b) (ha : a ≤ a') (hb : b' ≤ b) : Negative shadow a' b' :=
  fun k hka hkb => h k (ha.trans hka) (hkb.trans_le hb)

/-- What comes before the user's bytes counts. -/
theorem Owned.congr (h : Owned flags mem shadow size m addr) (hmem : ∀ a, m ≤ a → a < addr → mem' a = mem a)
    (hsh : ∀ k, m ≤ 8 * k → 8 * k < m + size →
      shadow' (WordSize.w64.SHADOW_OFFSET + k) = shadow (WordSize.w64.SHADOW_OFFSET + k)) :
    Owned flags mem' shadow' size m addr := by
  have hred := flags.le_redzone.1
  have hbehind := h.behind
  have hfits := h.fits
  have hhead : ∀ a, m ≤ a → a < m + 16 → mem' a = mem a := fun a ha hlt => hmem a ha (by omega)
  have hused : get mem' m .used_size = get mem m .used_size := get_head_congr (by decide) hhead
  have hmark : ∀ f, f ≠ .next → get mem' (addr - flags.redzone) f = get mem (addr - flags.redzone) f :=
    fun f hf => get_head_congr hf fun a ha hlt => hmem a (by omega) (by omega)
  refine ⟨(beg_congr hhead).trans h.beg,?_,h.aligned,hbehind,?_,?_,?_,fun hlt => ?_,?_,?_,?_⟩
  · rw [MallocInfo.PtrToChunk, hmark _ (by decide), hmark _ (by decide)]
    exact h.ptr
  · rw [hused]
    exact h.pos
  · rw [hused]
    exact hfits
  · rw [get_head_congr (by decide) hhead]
    exact h.free_tid
  · have h24 : 24 ≤ flags.redzone := by
      obtain ⟨j,hj,-,hr⟩ := flags.redzone_pow
      rw [hr] at hlt ⊢
      have h5 : 5 ≤ j := (Nat.pow_lt_pow_iff_right (by decide : 1 < 2)).mp (hlt : 2^4 < 2^j)
      have hpow : 2^5 ≤ 2^j := Nat.pow_le_pow_right (by decide) h5
      omega
    rw [get_congr (f := .next) fun a ha hlt' => hmem a (Nat.le_of_add_right_le ha) (by
      have hoff : Field.offset .next = 16 := rfl
      have hbytes : Field.bytes .next = 8 := rfl
      omega)]
    exact h.next hlt
  · exact h.left.congr fun k ha hb => hsh k ha (by omega)
  · rw [hused]
    intro k ha hb
    rw [hsh k (by omega) (by omega)]
    exact h.inside k ha hb
  · rw [hused]
    exact h.right.congr fun k ha hb => hsh k (by omega) hb

/-- The link counts for the user's chunks only. -/
theorem ChunkOk.congr (h : ChunkOk flags mem shadow g p m) (hmem : ∀ a, m ≤ a → a < m + 16 → mem' a = mem a)
    (huser : p = .user → ∀ addr, Beg mem m = some addr → ∀ a, m ≤ a → a < addr → mem' a = mem a)
    (hsh : ∀ k, m ≤ 8 * k → 8 * k < m + g.size →
      shadow' (WordSize.w64.SHADOW_OFFSET + k) = shadow (WordSize.w64.SHADOW_OFFSET + k)) :
    ChunkOk flags mem' shadow' g p m where
  state := (get_head_congr (by decide) hmem).trans h.state
  size_class := (get_head_congr (by decide) hmem).trans h.size_class
  listed := h.listed
  headed := by
    rw [beg_congr hmem, get_head_congr (by decide) hmem]
    exact h.headed
  owned hp := by
    obtain ⟨addr,howned⟩ := h.owned hp
    exact ⟨addr,howned.congr (huser hp addr howned.beg) hsh⟩
  poisoned hp := (h.poisoned hp).congr hsh

theorem page_congr {pg : ℕ} (h : ∀ a, pg ≤ a → a < pg + 32 → mem' a = mem a) :
    PageGroup.read mem' pg = PageGroup.read mem pg := by
  have hload : ∀ i, i ≤ 24 → mem'.load (pg + i) 8 = mem.load (pg + i) 8 :=
    fun i hi => FlatMemory.load_congr fun a ha hlt => h a (by omega) (by omega)
  have h0 := hload 0 (by decide)
  rw [Nat.add_zero] at h0
  rw [PageGroup.read, PageGroup.read, h0, hload 8 (by decide), hload 16 (by decide), hload 24 (by decide)]

end Congruence

end CompilerRt.AsanAllocator
