import CompilerRt.Asan.TakeChunk
import Mathlib

/-! # Chunks that are handed out

A chunk that is taken gets its header for the user, and its shadow says which bytes are the user's.
-/
namespace CompilerRt.AsanAllocator
open Sanitizer AsanMapping
open AsanChunk
open Sanitizer.LargeMmap (and_mask_pow isPowerOfTwo_pow roundUpTo_pow)

variable {flags : Flags} {mmap : ℕ → ℕ} {s s' : MallocInfo} {L L' : Layout} {g : Group} {p q : Place} {bad : Prop}
  {alignment size rounded_size needed total m addr t j a n : ℕ} {mem mem' : FlatMemory} {shadow shadow' : Shadow} {u v : List ℕ}

/-! ## Sizes -/

theorem pow_le_word {k : ℕ} (hk : k < 64) : 2^k ≤ 2^63 := Nat.pow_le_pow_right (by decide) (by omega)

theorem roundUpTo_redzone (hr : flags.redzone = 2^j) (hj : j ≤ 30) (n : ℕ) :
    RoundUpTo n flags.redzone = some ((n + 2^j - 1) % 2^64 / 2^j * 2^j) := by
  rw [hr]
  exact roundUpTo_pow (by omega) n

theorem Flags.redzone_dvd_word (flags : Flags) : flags.redzone ∣ 2^64 := by
  obtain ⟨j,-,hj,hr⟩ := flags.redzone_pow
  rw [hr]
  exact Nat.pow_dvd_pow 2 (by omega)

theorem Flags.redzone_le (flags : Flags) : flags.redzone ≤ 2^30 := by
  obtain ⟨j,-,hj,hr⟩ := flags.redzone_pow
  rw [hr]
  exact Nat.pow_le_pow_right (by decide) hj

theorem isAligned_redzone (flags : Flags) (n : ℕ) : IsAligned n flags.redzone = true ↔ flags.redzone ∣ n := by
  obtain ⟨j,-,hj,hr⟩ := flags.redzone_pow
  rw [hr]
  exact isAligned_pow (by omega)

/-- A number that is rounded up to the redzone, without a wrap. -/
theorem roundUpTo_eq (flags : Flags) (h : n + flags.redzone - 1 < 2^64) :
    RoundUpTo n flags.redzone = some (roundedUp flags.redzone n) := by
  obtain ⟨j,-,hj,hr⟩ := flags.redzone_pow
  rw [roundUpTo_redzone hr hj, ← hr, Nat.mod_eq_of_lt h, roundedUp]

theorem dvd_roundedUp (d n : ℕ) : d ∣ roundedUp d n := Dvd.intro_left _ rfl

theorem le_roundedUp {d : ℕ} (hd : 0 < d) (n : ℕ) : n ≤ roundedUp d n ∧ roundedUp d n < n + d := by
  rw [roundedUp, Nat.mul_comm]
  have hdiv := Nat.div_add_mod (n + d - 1) d
  have hmod := Nat.mod_lt (n + d - 1) hd
  omega

/-- Whatever is at least the number and a multiple is at least the number rounded up. -/
theorem roundedUp_le {d : ℕ} (hd : 0 < d) {x : ℕ} (hx : d ∣ x) (hn : n ≤ x) : roundedUp d n ≤ x := by
  obtain ⟨y,rfl⟩ := hx
  have hlt := (le_roundedUp hd n).2
  rw [roundedUp, Nat.mul_comm] at hlt ⊢
  refine Nat.mul_le_mul_left d ?_
  by_contra hgt
  have hle := Nat.mul_le_mul_left d (Nat.succ_le_of_lt (not_le.mp hgt))
  rw [Nat.mul_succ] at hle
  omega

/-- Room for the alignment. -/
def extra (flags : Flags) (alignment : ℕ) : ℕ := if alignment > flags.redzone then alignment else 0

/-- The size rounded up, and the size of the chunk that is needed. -/
structure Needed (flags : Flags) (alignment size rounded_size needed : ℕ) : Prop where
  rounded : rounded_size = roundedUp flags.redzone size
  needed : needed = rounded_size + flags.redzone + extra flags alignment
  alignment : alignment = 0 ∨ ∃ a ≤ 32, alignment = 2^a

theorem neededSize_runs (halignment : alignment < 2^64) (hpow : ¬bad → IsPowerOfTwo alignment) :
    Runs bad (MallocInfo.neededSize flags alignment size) fun r =>
      size ≤ kMaxAllowedMallocSize → r.2 ≤ kMaxAllowedMallocSize → Needed flags alignment size r.1 r.2 := by
  obtain ⟨j,-,hj,hr⟩ := flags.redzone_pow
  rw [MallocInfo.neededSize]
  refine (Runs.check fun hbad => hpow hbad).bind fun _ hpower => ?_
  rw [roundUpTo_redzone hr hj, ← hr]
  generalize hq : (size + flags.redzone - 1) % 2^64 / flags.redzone * flags.redzone = rounded
  have hdvd : flags.redzone ∣ rounded := hq ▸ Dvd.intro_left _ rfl
  have hword := flags.redzone_dvd_word
  have hsum : flags.redzone ∣ (rounded + flags.redzone) % 2^64 := (Nat.dvd_mod_iff hword).mpr (hdvd.add dvd_rfl)
  have hpowers := (isPowerOfTwo_iff halignment).mp hpower
  have haligned : flags.redzone ∣ if alignment > flags.redzone then
      ((rounded + flags.redzone) % 2^64 + alignment) % 2^64 else (rounded + flags.redzone) % 2^64 := by
    split_ifs with hlarge
    · refine (Nat.dvd_mod_iff hword).mpr (hsum.add ?_)
      obtain rfl | ⟨a,ha,rfl⟩ := hpowers
      · exact dvd_zero _
      · rw [hr] at hlarge ⊢
        exact Nat.pow_dvd_pow 2 ((Nat.pow_lt_pow_iff_right (by decide)).mp hlarge).le
    · exact hsum
  simp only [checked_some, ok_bind, CHECK_of ((isAligned_redzone flags _).mpr haligned), pure_eq_ok]
  refine Runs.ok fun hsize hneeded => ?_
  dsimp only at hneeded ⊢
  rw [kMaxAllowedMallocSize_eq] at hsize hneeded
  have hredzone := flags.redzone_le
  have hpos := flags.pos
  rw [Nat.mod_eq_of_lt (by omega)] at hq
  have hrounded : rounded = roundedUp flags.redzone size := hq.symm
  have hle := le_roundedUp hpos size
  have hsmall : alignment ≤ 2^63 := by
    obtain rfl | ⟨a,ha,rfl⟩ := hpowers
    · omega
    · exact pow_le_word ha
  have hnowrap : (rounded + flags.redzone) % 2^64 = rounded + flags.redzone := Nat.mod_eq_of_lt (by omega)
  have hnowrap' : (rounded + flags.redzone + alignment) % 2^64 = rounded + flags.redzone + alignment :=
    Nat.mod_eq_of_lt (by omega)
  rw [hnowrap, hnowrap'] at hneeded ⊢
  refine ⟨hrounded,?_,?_⟩
  · rw [extra]
    split_ifs <;> rfl
  · obtain rfl | ⟨a,ha,rfl⟩ := hpowers
    · exact .inl rfl
    · refine .inr ⟨a,?_,rfl⟩
      by_contra hgt
      have hbig : 2^33 ≤ 2^a := Nat.pow_le_pow_right (by decide) (by omega)
      split_ifs at hneeded
      · omega
      · omega

/-! ## The header -/

/-- Multiples are rounded up past the redzone. -/
theorem roundedUp_succ {d b : ℕ} (hd : 0 < d) (hb : 0 < b) (hm : d ∣ m) (hdb : d ∣ b) :
    roundedUp b (m + 1) = roundedUp b (m + d) := by
  have hone := le_roundedUp hb (m + 1)
  have htwo := le_roundedUp hb (m + d)
  refine le_antisymm (roundedUp_le hb (dvd_roundedUp b _) (by omega)) (roundedUp_le hb (dvd_roundedUp b _) ?_)
  have hlt : m < roundedUp b (m + 1) := by omega
  obtain ⟨x,hx⟩ := hdb.trans (dvd_roundedUp b (m + 1))
  obtain ⟨y,rfl⟩ := hm
  rw [hx] at hlt ⊢
  calc d * y + d = d * (y + 1) := (Nat.mul_succ d y).symm
    _ ≤ d * x := Nat.mul_le_mul_left d (Nat.lt_of_mul_lt_mul_left hlt)

theorem roundedUp_self {d : ℕ} (hd : 0 < d) (h : d ∣ n) : roundedUp d n = n :=
  le_antisymm (roundedUp_le hd h le_rfl) (le_roundedUp hd n).1

theorem roundUpTo_eq_pow (ha : a < 64) (h : n + 2^a < 2^64) : RoundUpTo n (2^a) = some (roundedUp (2^a) n) := by
  rw [roundUpTo_pow ha, Nat.mod_eq_of_lt (by omega), roundedUp]

theorem intShl_pow (ha : a < 31) : AsanChunk.intShl a = 2^a := by
  rw [AsanChunk.intShl, Nat.mod_eq_of_lt (by omega), if_neg (by omega)]

/-- The header of a chunk for the user, and the mark where the alignment has moved the user's bytes. -/
structure Started (flags : Flags) (mem : FlatMemory) (m size addr size_class : ℕ) : Prop where
  beg : Beg mem m = some addr
  ptr : MallocInfo.PtrToChunk flags mem addr = m
  aligned : flags.redzone ∣ addr
  behind : m + flags.redzone ≤ addr
  used : get mem m .used_size = size
  state : get mem m .chunk_state = CHUNK_ALLOCATED
  size_class : get mem m .size_class = size_class
  next : 16 < flags.redzone → get mem m .next = 0

/-- Without the wide alignment the chunk starts one redzone before the user's bytes. -/
theorem Started.mark (h : Started flags mem m size addr n) (hm : flags.redzone ∣ m) :
    addr = m + flags.redzone ∨ m + 2 * flags.redzone ≤ addr := by
  obtain ⟨x,rfl⟩ := h.aligned
  obtain ⟨y,rfl⟩ := hm
  have hbehind := h.behind
  have hpos := flags.pos
  generalize flags.redzone = d at hbehind hpos ⊢
  rw [← Nat.mul_succ] at hbehind ⊢
  rcases Nat.lt_or_eq_of_le (Nat.le_of_mul_le_mul_left hbehind hpos) with hlt | heq
  · right
    have hle := Nat.mul_le_mul_left d (Nat.succ_le_of_lt hlt)
    rw [Nat.mul_succ, Nat.mul_succ] at hle
    omega
  · exact .inl (by rw [heq])

theorem redzone_large (h : 16 < flags.redzone) : 32 ≤ flags.redzone := by
  obtain ⟨j,-,-,hr⟩ := flags.redzone_pow
  rw [hr] at h ⊢
  have hj : 4 < j := (Nat.pow_lt_pow_iff_right (by decide : 1 < 2)).mp (show 2^4 < 2^j from h)
  calc 32 = 2^5 := rfl
    _ ≤ 2^j := Nat.pow_le_pow_right (by decide) hj

/-- The bytes of the header and of the mark count. -/
theorem Started.congr (h : Started flags mem m size addr n)
    (hmem : ∀ a, m ≤ a → a < addr → a < m + 24 ∨ addr ≤ a + flags.redzone ∧ a + flags.redzone < addr + 16 →
      mem' a = mem a) : Started flags mem' m size addr n := by
  have hred := flags.le_redzone.1
  have hbehind := h.behind
  have hhead : ∀ a, m ≤ a → a < m + 16 → mem' a = mem a := fun a ha hlt => hmem a ha (by omega) (by omega)
  have hmark : ∀ f, f ≠ .next → get mem' (addr - flags.redzone) f = get mem (addr - flags.redzone) f :=
    fun f hf => get_head_congr hf fun a ha hlt => hmem a (by omega) (by omega) (by omega)
  refine ⟨(beg_congr hhead).trans h.beg,?_,h.aligned,hbehind,?_,?_,?_,fun hlt => ?_⟩
  · rw [MallocInfo.PtrToChunk, hmark _ (by decide), hmark _ (by decide)]
    exact h.ptr
  · rw [get_head_congr (by decide) hhead, h.used]
  · rw [get_head_congr (by decide) hhead, h.state]
  · rw [get_head_congr (by decide) hhead, h.size_class]
  · have h32 := redzone_large hlt
    have hle := Field.le_bytes .next
    rw [get_congr (f := .next) fun a ha hlt' => hmem a (by omega) (by omega) (by omega), h.next hlt]

theorem get_set_beyond {f f' : Field} (hf : f ≠ .next) (h : m + 16 ≤ n) (x : ℕ) :
    get (set mem m f x) n f' = get mem n f' := by
  have hlt : f.offset + f.bytes ≤ 16 := by
    revert hf
    cases f <;> decide
  exact get_congr fun a ha _ => set_outside (by omega)

/-- The threads in the header. -/
theorem Started.setTid {f : Field} (h : Started flags mem m size addr n) (hm : flags.redzone ∣ m)
    (hf : f = .alloc_tid ∨ f = .free_tid) (x : ℕ) : Started flags (set mem m f x) m size addr n := by
  have hred := flags.le_redzone.1
  have hkeep : ∀ f', f' ≠ .alloc_tid → f' ≠ .free_tid → get (set mem m f x) m f' = get mem m f' := by
    intro f' h1 h2
    rcases hf with rfl | rfl
    · exact get_set_of_ne h1
    · exact get_set_of_ne h2
  have hmark : ∀ f', f' ≠ .alloc_tid → f' ≠ .free_tid →
      get (set mem m f x) (addr - flags.redzone) f' = get mem (addr - flags.redzone) f' := by
    intro f' h1 h2
    rcases h.mark hm with heq | hle
    · rw [heq, Nat.add_sub_cancel]
      exact hkeep f' h1 h2
    · refine get_set_beyond ?_ (by omega) x
      rcases hf with rfl | rfl <;> decide
  refine ⟨?_,?_,h.aligned,h.behind,?_,?_,?_,fun hlt => ?_⟩
  · rw [Beg, hkeep .alignment_log (by decide) (by decide)]
    exact h.beg
  · rw [MallocInfo.PtrToChunk, hmark _ (by decide) (by decide), hmark _ (by decide) (by decide)]
    exact h.ptr
  · rw [hkeep _ (by decide) (by decide), h.used]
  · rw [hkeep _ (by decide) (by decide), h.state]
  · rw [hkeep _ (by decide) (by decide), h.size_class]
  · rw [hkeep _ (by decide) (by decide), h.next hlt]

/-- What `initChunk` has done. -/
structure Initialised (flags : Flags) (mem mem' : FlatMemory) (m alignment size addr : ℕ) : Prop where
  started : Started flags mem' m size addr (get mem m .size_class)
  asked : alignment ≠ 0 → alignment ∣ addr
  le : addr ≤ m + flags.redzone + extra flags alignment
  outside : ∀ a, a < m ∨ m + 24 ≤ a ∧ addr ≤ a → mem' a = mem a

/-- The header is complete but for the size. -/
structure Header (flags : Flags) (mem mem₃ : FlatMemory) (m alignment addr : ℕ) (bad : Prop) : Prop where
  ptr : MallocInfo.PtrToChunk flags mem₃ addr = m
  mark : addr = m + flags.redzone ∨ m + 2 * flags.redzone ≤ addr
  beg : ¬bad → Beg mem₃ m = some addr
  aligned : flags.redzone ∣ addr
  asked : alignment ≠ 0 → alignment ∣ addr
  le : addr ≤ m + flags.redzone + extra flags alignment
  state : get mem₃ m .chunk_state = CHUNK_ALLOCATED
  size_class : get mem₃ m .size_class = get mem m .size_class
  next : 16 < flags.redzone → get mem₃ m .next = 0
  outside : ∀ a, a < m ∨ m + 24 ≤ a ∧ addr ≤ a → mem₃ a = mem a

theorem Header.runs (h : Header flags mem mem' m alignment addr bad) (hsize : size < 256^7) :
    Runs bad (do
      CHECK (m = MallocInfo.PtrToChunk flags mem' addr)
      CHECK (Beg (set mem' m .used_size size) m = some addr)
      pure (set mem' m .used_size size,addr)) fun r => Initialised flags mem r.1 m alignment size r.2 := by
  have h16 := flags.le_redzone.1
  have hbeg : Beg (set mem' m .used_size size) m = Beg mem' m := by rw [Beg, Beg, get_set_of_ne (by decide)]
  refine (Runs.check fun _ => h.ptr.symm).bind fun _ _ => (Runs.check fun hbad => ?_).bind fun _ hchecked => ?_
  · rw [hbeg]
    exact h.beg hbad
  · have hbehind : m + flags.redzone ≤ addr := by
      rcases h.mark with heq | hle
      · exact heq.ge
      · omega
    refine Runs.ok ⟨⟨hchecked,?_,h.aligned,hbehind,get_set hsize,?_,?_,fun hlt => ?_⟩,h.asked,h.le,fun a ha => ?_⟩
    · have hmark : ∀ f, f ≠ .used_size ∨ addr ≠ m + flags.redzone →
          get (set mem' m .used_size size) (addr - flags.redzone) f = get mem' (addr - flags.redzone) f := by
        intro f hf
        rcases h.mark with heq | hle
        · rw [heq, Nat.add_sub_cancel]
          exact get_set_of_ne (hf.resolve_right fun hne => hne heq)
        · exact get_set_beyond (by decide) (by omega) size
      have hptr := h.ptr
      rw [MallocInfo.PtrToChunk, hmark .chunk_state (.inl (by decide))]
      rw [MallocInfo.PtrToChunk] at hptr
      by_cases heq : addr = m + flags.redzone
      · rw [heq, Nat.add_sub_cancel, h.state]
        rfl
      · rw [hmark .used_size (.inr heq)]
        exact hptr
    · rw [get_set_of_ne (by decide), h.state]
    · rw [get_set_of_ne (by decide), h.size_class]
    · rw [get_set_of_ne (by decide), h.next hlt]
    · have hle := Field.le_bytes .used_size
      dsimp only at ha ⊢
      rw [set_outside (by omega), h.outside a ha]

/-- The user's bytes come right behind the redzone. -/
theorem Header.near {mem₁ : FlatMemory} (bad : Prop) (hr : flags.redzone = 2^j) (hj : j ≤ 30) (hm63 : m < 2^63) (hm : flags.redzone ∣ m)
    (hasked : alignment ≠ 0 → alignment ∣ m + flags.redzone) (hstate : get mem₁ m .chunk_state = CHUNK_ALLOCATED)
    (hclass : get mem₁ m .size_class = get mem m .size_class) (hnext : get mem₁ m .next = 0)
    (hout : ∀ a, a < m ∨ m + 24 ≤ a → mem₁ a = mem a) :
    Header flags mem (set mem₁ m .alignment_log j) m alignment (m + flags.redzone) bad := by
  have hpos := flags.pos
  have hred := flags.redzone_le
  have hbyte : j < 256^(Field.bytes .alignment_log) := (show j < 256 by omega)
  refine ⟨?_,.inl rfl,fun _ => ?_,hm.add dvd_rfl,hasked,Nat.le_add_right _ _,?_,?_,fun _ => ?_,fun a ha => ?_⟩
  · rw [MallocInfo.PtrToChunk, Nat.add_sub_cancel, get_set_of_ne (by decide), hstate]
    rfl
  · have hup := roundedUp_succ hpos hpos hm dvd_rfl
    rw [roundedUp_self hpos (hm.add dvd_rfl), hr] at hup
    rw [hr] at hred
    rw [Beg, get_set hbyte]
    rcases Nat.lt_or_ge j 31 with hlt | hge
    · rw [intShl_pow hlt, roundUpTo_eq_pow (by omega) (by omega), hup, hr]
    · omega
  · rw [get_set_of_ne (by decide), hstate]
  · rw [get_set_of_ne (by decide), hclass]
  · rw [get_set_of_ne (by decide), hnext]
  · have hle := Field.le_bytes .alignment_log
    rw [set_outside (by omega), hout a (by omega)]

/-- The user's bytes come at the first address with the alignment, and the header before them leads to the chunk. -/
theorem Header.far {mem₁ : FlatMemory} (bad : Prop) (hr : flags.redzone = 2^j) (ha : a ≤ 32) (hja : j < a) (hm63 : m < 2^63)
    (hm : flags.redzone ∣ m) (hnot : ¬2^a ∣ m + flags.redzone) (hlog : ¬bad → 2^a < 2^31)
    (hstate : get mem₁ m .chunk_state = CHUNK_ALLOCATED)
    (hclass : get mem₁ m .size_class = get mem m .size_class) (hnext : get mem₁ m .next = 0)
    (hout : ∀ a, a < m ∨ m + 24 ≤ a → mem₁ a = mem a) (haddr : addr = roundedUp (2^a) (m + flags.redzone)) :
    Header flags mem (set (set (set mem₁ (addr - flags.redzone) .chunk_state CHUNK_MEMALIGN) (addr - flags.redzone)
      .used_size (addr - flags.redzone - m)) m .alignment_log a) m (2^a) addr bad := by
  have hpos := flags.pos
  have h16 := flags.le_redzone.1
  have hpow := Nat.two_pow_pos a
  have ha32 : 2^a ≤ 2^32 := Nat.pow_le_pow_right (by decide) ha
  have hdvd : flags.redzone ∣ 2^a := hr ▸ Nat.pow_dvd_pow 2 hja.le
  have hround := le_roundedUp hpow (m + flags.redzone)
  have hadvd : 2^a ∣ addr := haddr ▸ dvd_roundedUp _ _
  have hne : m + flags.redzone ≠ addr := fun heq => hnot (heq ▸ hadvd)
  rw [← haddr] at hround
  have haligned : flags.redzone ∣ addr := hdvd.trans hadvd
  have hlt : flags.redzone < 2^a := hr ▸ Nat.pow_lt_pow_right (by decide) hja
  have hmark : m + 2 * flags.redzone ≤ addr := by
    obtain ⟨x,hx⟩ := hm
    obtain ⟨y,hy⟩ := haligned
    have hxy : x + 1 < y := by
      refine Nat.lt_of_mul_lt_mul_left (a := flags.redzone) ?_
      rw [Nat.mul_succ, ← hx, ← hy]
      omega
    have hle := Nat.mul_le_mul_left flags.redzone (Nat.succ_le_of_lt hxy)
    rw [Nat.mul_succ, Nat.mul_succ, ← hx, ← hy] at hle
    omega
  generalize hp : addr - flags.redzone = p
  have hlarge : extra flags (2^a) = 2^a := if_pos hlt
  have hkeep : ∀ f, get (set (set mem₁ p .chunk_state CHUNK_MEMALIGN) p .used_size (p - m)) m f = get mem₁ m f ∨
      f = .next ∧ flags.redzone ≤ 16 := by
    intro f
    by_cases hf : f = .next ∧ flags.redzone ≤ 16
    · exact .inr hf
    · left
      have hle := f.le_bytes
      refine get_congr fun b hb hlt' => ?_
      have hbp : b < p := by
        by_cases hfn : f = .next
        · have h32 := redzone_large (not_le.mp fun hsmall => hf ⟨hfn,hsmall⟩)
          omega
        · have hf16 : f.offset + f.bytes ≤ 16 := by
            revert hfn
            cases f <;> decide
          omega
      rw [set_outside (by omega), set_outside (by omega)]
  have hkeep' : ∀ f, f ≠ .next → get (set (set mem₁ p .chunk_state CHUNK_MEMALIGN) p .used_size (p - m)) m f =
      get mem₁ m f := fun f hf => (hkeep f).resolve_right fun h => hf h.1
  have hbyte : a < 256^(Field.bytes .alignment_log) := (show a < 256 by omega)
  refine ⟨?_,.inr hmark,fun hbad => ?_,haligned,fun _ => hadvd,?_,?_,?_,fun h => ?_,fun b hb => ?_⟩
  · have hused : p - m < 256^(Field.bytes .used_size) := (show p - m < 256^7 by norm_num; omega)
    have hmp : m + 16 ≤ p := by omega
    have hstate' : get (set (set (set mem₁ p .chunk_state CHUNK_MEMALIGN) p .used_size (p - m)) m .alignment_log a) p
        .chunk_state = CHUNK_MEMALIGN := by
      rw [get_set_beyond (by decide) hmp, get_set_of_ne (by decide), get_set (by decide)]
    have hused' : get (set (set (set mem₁ p .chunk_state CHUNK_MEMALIGN) p .used_size (p - m)) m .alignment_log a) p
        .used_size = p - m := by
      rw [get_set_beyond (by decide) hmp, get_set hused]
    rw [MallocInfo.PtrToChunk, hp, hstate', if_pos rfl, hused']
    omega
  · have ha31 : a < 31 := (Nat.pow_lt_pow_iff_right (by decide)).mp (hlog hbad)
    have hbeg : RoundUpTo (m + 1) (2^a) = some (roundedUp (2^a) (m + 1)) := roundUpTo_eq_pow (by omega) (by omega)
    rw [Beg, get_set hbyte, intShl_pow ha31, hbeg, haddr, roundedUp_succ hpos hpow hm hdvd]
  · rw [hlarge]
    omega
  · rw [get_set_of_ne (by decide), hkeep' _ (by decide), hstate]
  · rw [get_set_of_ne (by decide), hkeep' _ (by decide), hclass]
  · rw [get_set_of_ne (by decide), (hkeep .next).resolve_right fun hsmall => by omega, hnext]
  · have hs := Field.le_bytes .chunk_state
    have hu : Field.offset .used_size + Field.bytes .used_size = 16 := rfl
    have hc : Field.offset .chunk_state + Field.bytes .chunk_state = 1 := rfl
    have hl := Field.le_bytes .alignment_log
    rw [set_outside (by omega), set_outside (by omega), set_outside (by omega), hout b (by omega)]

theorem initChunk_runs (hm0 : m ≠ 0) (hm63 : m < 2^63) (hm : flags.redzone ∣ m)
    (hneeded : Needed flags alignment size rounded_size needed) (hlog : ¬bad → alignment < 2^31)
    (hstate : get mem m .chunk_state = CHUNK_AVAILABLE) (htotal : Size mem m = some total) (hsize : size < 256^7) :
    Runs bad (MallocInfo.initChunk flags mem m alignment size total) fun r =>
      Initialised flags mem r.1 m alignment size r.2 := by
  obtain ⟨j,hj4,hj,hr⟩ := flags.redzone_pow
  have hred := flags.redzone_le
  have hpos := flags.pos
  have h16 := flags.le_redzone.1
  generalize hmem₁ : set (set mem m .chunk_state CHUNK_ALLOCATED) m .next 0 = mem₁
  have hclass : get mem₁ m .size_class = get mem m .size_class := by
    rw [← hmem₁, get_set_of_ne (by decide), get_set_of_ne (by decide)]
  have hstate₁ : get mem₁ m .chunk_state = CHUNK_ALLOCATED := by
    rw [← hmem₁, get_set_of_ne (by decide), get_set (by decide)]
  have hnext₁ : get mem₁ m .next = 0 := by
    rw [← hmem₁, get_set (by decide)]
  have hsize₁ : Size mem₁ m = some total := by
    rw [Size, hclass]
    exact htotal
  have hbehind : m + flags.redzone ≤ compressed_free_stack flags.redzone m := by
    rw [compressed_free_stack]
    omega
  have hout₁ : ∀ a, a < m ∨ m + 24 ≤ a → mem₁ a = mem a := by
    intro a ha
    have hs := Field.le_bytes .chunk_state
    have hn := Field.le_bytes .next
    rw [← hmem₁, set_outside (by omega), set_outside (by omega)]
  rw [MallocInfo.initChunk]
  simp only [hmem₁, CHECK_of, hm0, hstate, hsize₁, hbehind, ne_eq, not_false_eq_true, ok_bind]
  split_ifs with hmove
  · obtain ⟨hlarge,hmask⟩ := hmove
    obtain rfl | ⟨a,ha,rfl⟩ := hneeded.alignment
    · omega
    · rw [and_mask_pow (by omega), ← Nat.dvd_iff_mod_eq_zero] at hmask
      have ha32 : 2^a ≤ 2^32 := Nat.pow_le_pow_right (by decide) ha
      have hja : j < a := by
        rw [hr] at hlarge
        exact (Nat.pow_lt_pow_iff_right (by decide)).mp hlarge
      have hheader := Header.far bad hr ha hja hm63 hm hmask hlog hstate₁ hclass hnext₁ hout₁ rfl
      have hmasked : roundedUp (2^a) (m + flags.redzone) &&& mask (2^a) = 0 := by
        rw [and_mask_pow (by omega)]
        exact Nat.mod_eq_zero_of_dvd (dvd_roundedUp _ _)
      rw [roundUpTo_eq_pow (by omega) (by omega), log2_pow (by omega)]
      simp only [checked_some, ok_bind, hmasked, CHECK_of, pure_eq_ok]
      exact (Runs.check hheader.beg).bind fun _ _ => hheader.runs hsize
  · have hasked : alignment ≠ 0 → alignment ∣ m + flags.redzone := by
      intro hne
      obtain ⟨a,ha,rfl⟩ := hneeded.alignment.resolve_left hne
      rw [and_mask_pow (by omega), ← Nat.dvd_iff_mod_eq_zero, not_and_not_right] at hmove
      rcases Nat.lt_or_ge flags.redzone (2^a) with hlt | hge
      · exact hmove hlt
      · have hdvd : 2^a ∣ flags.redzone := by
          rw [hr] at hge ⊢
          exact Nat.pow_dvd_pow 2 ((Nat.pow_le_pow_iff_right (by decide)).mp hge)
        exact (hdvd.trans hm).add hdvd
    have hheader := Header.near bad hr hj hm63 hm hasked hstate₁ hclass hnext₁ hout₁
    have hlog2 : Log2 flags.redzone = some j := by
      rw [hr]
      exact log2_pow (by omega)
    simp only [hlog2, checked_some, ok_bind, pure_eq_ok]
    exact hheader.runs hsize

/-! ## The shadow -/

theorem redzoneValue_add (c n i : ℕ) (value : BitVec 8) :
    redzoneValue (c + n) (c + i) value = redzoneValue n i value := by
  have hgranularity : SHADOW_GRANULARITY = 8 := rfl
  rw [redzoneValue, redzoneValue, hgranularity, Nat.add_sub_add_left]
  exact if_congr (by omega) rfl (if_congr (by omega) rfl rfl)

theorem redzoneValue_zero {i : ℕ} (h : i + 8 ≤ n) (value : BitVec 8) : redzoneValue n i value = 0 := if_pos h

/-- The shadow of the user's bytes, and the bytes around them. -/
structure UserShadow (flags : Flags) (shadow shadow' : Shadow) (addr size : ℕ) : Prop where
  inside : ∀ k, addr ≤ 8 * k → 8 * k < addr + roundedUp flags.redzone size →
    shadow' (WordSize.w64.SHADOW_OFFSET + k) = redzoneValue size (8 * k - addr) kAsanHeapRightRedzoneMagic
  outside : ∀ k, 8 * k < addr ∨ addr + roundedUp flags.redzone size ≤ 8 * k →
    shadow' (WordSize.w64.SHADOW_OFFSET + k) = shadow (WordSize.w64.SHADOW_OFFSET + k)

theorem poisonHeap_eq (haddr : flags.redzone ∣ addr) (hmem : WordSize.w64.AddrIsInMem addr = true)
    (hn : n ≤ flags.redzone) : MallocInfo.PoisonHeapPartialRightRedzone flags shadow addr n =
      .ok (shadow.fill (WordSize.w64.SHADOW_OFFSET + addr / 8) (flags.redzone / 8) fun k =>
        redzoneValue n (8 * k) kAsanHeapRightRedzoneMagic) := by
  obtain ⟨j,-,hj,hr⟩ := flags.redzone_pow
  have h16 := flags.le_redzone
  have h8red : 8 ∣ flags.redzone := Dvd.dvd.trans (by decide) h16.2
  have hpower : IsPowerOfTwo flags.redzone = true := by
    rw [hr]
    exact isPowerOfTwo_pow (by omega)
  have hgranules : IsPowerOfTwo SHADOW_GRANULARITY = true := by decide
  have hgranularity : flags.redzone ≥ SHADOW_GRANULARITY := le_trans (by decide) h16.1
  rw [MallocInfo.PoisonHeapPartialRightRedzone, poisonShadowPartialRightRedzone_eq
    (Nat.mod_eq_zero_of_dvd (h8red.trans haddr)) (Nat.mod_eq_zero_of_dvd h8red) hmem]
  simp only [CHECK_of, hn, (isAligned_redzone flags addr).mpr haddr, hgranules, hpower, hgranularity, ok_bind,
    checked_some]

theorem userShadow (flags : Flags) (shadow : Shadow) (haddr : flags.redzone ∣ addr) (hpos : 0 < size)
    (hrange : WordSize.w64.InOneRange addr (addr + roundedUp flags.redzone size)) :
    ∃ shadow₁ shadow₂, PoisonShadow .w64 shadow addr (roundedUp flags.redzone size) 0 = some shadow₁ ∧
      (if size < roundedUp flags.redzone size then
        MallocInfo.PoisonHeapPartialRightRedzone flags shadow₁
          (addr + roundedUp flags.redzone size - flags.redzone) (size &&& mask flags.redzone)
      else pure shadow₁) = .ok shadow₂ ∧ UserShadow flags shadow shadow₂ addr size := by
  obtain ⟨j,hj4,hj,hr⟩ := flags.redzone_pow
  have h16 := flags.le_redzone
  have hround := le_roundedUp flags.pos size
  have hdvd := dvd_roundedUp flags.redzone size
  have hmask : size &&& mask flags.redzone = size % flags.redzone := by
    rw [hr]
    exact and_mask_pow (by omega) size
  have hmod := Nat.mod_lt size flags.pos
  have hdiv : flags.redzone ∣ size - size % flags.redzone := Nat.dvd_sub_mod size
  have hle := roundedUp_le flags.pos hdvd hround.1
  have hlow : size % flags.redzone = 0 → roundedUp flags.redzone size = size :=
    fun h0 => roundedUp_self flags.pos (Nat.dvd_of_mod_eq_zero h0)
  -- the last redzone begins where the whole redzones of the user's bytes end
  have hhigh : size % flags.redzone ≠ 0 →
      roundedUp flags.redzone size = size - size % flags.redzone + flags.redzone := by
    intro h0
    refine le_antisymm (roundedUp_le flags.pos (hdiv.add dvd_rfl) (by omega)) ?_
    obtain ⟨x,hx⟩ := hdiv
    obtain ⟨y,hy⟩ := hdvd
    have hmod' := Nat.mod_le size flags.redzone
    have hxy : x < y := by
      refine Nat.lt_of_mul_lt_mul_left (a := flags.redzone) ?_
      rw [← hx, ← hy]
      omega
    have hmul := Nat.mul_le_mul_left flags.redzone (Nat.succ_le_of_lt hxy)
    rw [Nat.mul_succ, ← hx, ← hy] at hmul
    exact hmul
  have h8addr : 8 ∣ addr := (Dvd.dvd.trans (by decide) h16.2).trans haddr
  have h8round : 8 ∣ roundedUp flags.redzone size := (Dvd.dvd.trans (by decide) h16.2).trans hdvd
  have h8red : 8 ∣ flags.redzone := Dvd.dvd.trans (by decide) h16.2
  generalize hrounded : roundedUp flags.redzone size = rounded at *
  have hzero : PoisonShadow .w64 shadow addr rounded 0 =
      some (shadow.memset (WordSize.w64.SHADOW_OFFSET + addr / 8) 0 (rounded / 8)) :=
    poisonShadow_range _ _ h8addr h8round hrange
  by_cases hfull : size < rounded
  · have hne : size % flags.redzone ≠ 0 := fun h0 => by
      have := hlow h0
      omega
    have heq := hhigh hne
    have hmem : WordSize.w64.AddrIsInMem (addr + rounded - flags.redzone) = true :=
      (inOneRange_sub (c := addr + rounded - flags.redzone) (d := addr + rounded) hrange (by omega) (by omega) le_rfl).left
    have hlast : flags.redzone ∣ addr + rounded - flags.redzone := by
      have hsub : addr + rounded - flags.redzone = addr + (size - size % flags.redzone) := by omega
      rw [hsub]
      exact haddr.add hdiv
    have hfill : ∀ k, ((shadow.memset (WordSize.w64.SHADOW_OFFSET + addr / 8) 0 (rounded / 8)).fill
        (WordSize.w64.SHADOW_OFFSET + (addr + rounded - flags.redzone) / 8) (flags.redzone / 8) fun k =>
          redzoneValue (size % flags.redzone) (8 * k) kAsanHeapRightRedzoneMagic) (WordSize.w64.SHADOW_OFFSET + k) =
        if addr + rounded - flags.redzone ≤ 8 * k ∧ 8 * k < addr + rounded then
          redzoneValue (size % flags.redzone) (8 * k - (addr + rounded - flags.redzone)) kAsanHeapRightRedzoneMagic
        else if addr ≤ 8 * k ∧ 8 * k < addr + rounded then 0 else shadow (WordSize.w64.SHADOW_OFFSET + k) := by
      intro k
      rw [Shadow.fill, memset_granule h8addr h8round]
      refine if_congr (by omega) ?_ rfl
      exact congrArg (fun i => redzoneValue (size % flags.redzone) i kAsanHeapRightRedzoneMagic) (by omega)
    refine ⟨_,_,hzero,(if_pos hfull).trans ((congrArg _ hmask).trans (poisonHeap_eq hlast hmem hmod.le)),
      ⟨fun k ha hb => ?_,fun k hk => ?_⟩⟩
    · rw [hfill]
      rw [hrounded] at hb
      by_cases hbehind : addr + rounded - flags.redzone ≤ 8 * k
      · rw [if_pos ⟨hbehind,hb⟩]
        have hmod' := Nat.mod_le size flags.redzone
        calc redzoneValue (size % flags.redzone) (8 * k - (addr + rounded - flags.redzone)) kAsanHeapRightRedzoneMagic
            = redzoneValue ((rounded - flags.redzone) + size % flags.redzone)
              ((rounded - flags.redzone) + (8 * k - (addr + rounded - flags.redzone))) kAsanHeapRightRedzoneMagic :=
            (redzoneValue_add ..).symm
          _ = redzoneValue size (8 * k - addr) kAsanHeapRightRedzoneMagic := by
            rw [show rounded - flags.redzone + size % flags.redzone = size by omega,
              show rounded - flags.redzone + (8 * k - (addr + rounded - flags.redzone)) = 8 * k - addr by omega]
      · rw [if_neg (by omega), if_pos ⟨ha,hb⟩, redzoneValue_zero (by omega)]
    · rw [hrounded] at hk
      rw [hfill, if_neg (by omega), if_neg (by omega)]
  · have hexact : rounded = size := by omega
    refine ⟨_,_,hzero,if_neg hfull,⟨fun k ha hb => ?_,fun k hk => ?_⟩⟩
    · rw [hrounded] at hb
      rw [memset_granule h8addr h8round, if_pos ⟨ha,hb⟩, redzoneValue_zero (by omega)]
    · rw [hrounded] at hk
      rw [memset_granule h8addr h8round, if_neg (by omega)]

/-! ## The chunk of the user -/

/-- What is done to a chunk that is handed out. -/
structure Finished (flags : Flags) (s s' : MallocInfo) (g : Group) (m alignment size addr : ℕ) : Prop where
  ok : ChunkOk flags s'.memory s'.shadow g .user m
  beg : Beg s'.memory m = some addr
  used : get s'.memory m .used_size = size
  asked : alignment ≠ 0 → alignment ∣ addr
  memory : ∀ a, a < m ∨ m + g.size ≤ a → s'.memory a = s.memory a
  shadow : ∀ k, 8 * k < m ∨ m + g.size ≤ 8 * k →
    s'.shadow (WordSize.w64.SHADOW_OFFSET + k) = s.shadow (WordSize.w64.SHADOW_OFFSET + k)
  filled : size ≤ flags.max_malloc_fill_size → ∀ a, addr ≤ a → a < addr + size → s'.memory a = 0
  rest : s' = { s with memory := s'.memory, shadow := s'.shadow }

theorem finish_runs {stack : StackTrace 64} (hm0 : m ≠ 0) (hm : flags.redzone ∣ m)
    (hneeded : Needed flags alignment size rounded_size needed) (hpos : 1 ≤ size) (hsize : size ≤ kMaxAllowedMallocSize)
    (hlog : ¬bad → alignment < 2^31) (hfits : needed ≤ g.size) (htotal : Size s.memory m = some g.size)
    (hok : ChunkOk flags s.memory s.shadow g .taken m) (hrange : WordSize.w64.InOneRange m (m + g.size)) :
    Runs bad (MallocInfo.finish flags s t m alignment size rounded_size g.size stack) fun r =>
      Finished flags s r.2 g m alignment size r.1 := by
  have hred := flags.le_redzone.1
  have hmax := kMaxAllowedMallocSize_eq
  have hm63 := lt_of_inOneRange hrange (Nat.le_add_right m g.size)
  have hround := le_roundedUp flags.pos size
  have hr := hneeded.rounded
  have hn := hneeded.needed
  rw [MallocInfo.finish]
  refine (initChunk_runs hm0 hm63 hm hneeded hlog hok.state htotal (by norm_num; omega)).bind fun r h => ?_
  obtain ⟨mem₁,addr⟩ := r
  dsimp only at h ⊢
  have hstarted := (h.started.setTid hm (.inl rfl) (if (s.threads t).isSome then t else 0)).setTid hm (.inr rfl) kInvalidTid
  have hle := h.le
  have hbehind := hstarted.behind
  have hmark := hstarted.mark hm
  have hfree₃ : get (set (set mem₁ m .alloc_tid (if (s.threads t).isSome then t else 0)) m .free_tid kInvalidTid) m
      .free_tid = kInvalidTid := get_set (by decide)
  have hout₃ : ∀ a, a < m ∨ m + 24 ≤ a ∧ addr ≤ a →
      set (set mem₁ m .alloc_tid (if (s.threads t).isSome then t else 0)) m .free_tid kInvalidTid a = s.memory a := by
    intro a ha
    have h1 := Field.le_bytes .alloc_tid
    have h2 := Field.le_bytes .free_tid
    rw [set_outside (by omega), set_outside (by omega), h.outside a ha]
  generalize set (set mem₁ m .alloc_tid (if (s.threads t).isSome then t else 0)) m .free_tid kInvalidTid = mem₃
    at hstarted hfree₃ hout₃ ⊢
  obtain ⟨mem₄,hmem₄⟩ := compressStack_isSome stack mem₃ (compressed_alloc_stack m)
    (compressed_alloc_stack_size flags.redzone)
  -- the stack is between the header and the end of the redzone
  have hstack : ∀ a, a < m + 24 ∨ m + flags.redzone ≤ a → mem₄ a = mem₃ a := by
    intro a ha
    refine compressStack_outside hmem₄ ?_
    rw [compressed_alloc_stack, compressed_alloc_stack_size, sizeofChunkBase]
    split_ifs
    · omega
    · omega
  have hinside : addr + rounded_size ≤ m + g.size := by omega
  have hwhole : flags.redzone ≤ rounded_size := Nat.le_of_dvd (by omega) (hr ▸ dvd_roundedUp _ _)
  obtain ⟨shadow₁,shadow₂,hzero,hpart,hshadow⟩ := userShadow flags s.shadow hstarted.aligned hpos
    (inOneRange_sub hrange (by omega) (Nat.le_add_right _ _) (by rw [← hr]; exact hinside))
  rw [← hr] at hzero hpart
  simp only [hmem₄, hzero, checked_some, ok_bind, pure_eq_ok]
  generalize hmem₅ : (if size ≤ flags.max_malloc_fill_size then mem₄.fill addr rounded_size 0 else mem₄) = mem₅
  have hfill : ∀ a, a < addr ∨ addr + rounded_size ≤ a → mem₅ a = mem₄ a := by
    intro a ha
    rw [← hmem₅]
    split_ifs
    · exact FlatMemory.fill_outside (by omega)
    · rfl
  have hstarted₅ : Started flags mem₅ m size addr (get s.memory m .size_class) := by
    refine hstarted.congr fun a ha hlt hhead => ?_
    rw [hfill a (by omega), hstack a (by omega)]
  have hout : ∀ a, a < m ∨ m + g.size ≤ a → mem₅ a = s.memory a := by
    intro a ha
    rw [hfill a (by omega), hstack a (by omega), hout₃ a (by omega)]
  have hinr : m + flags.redzone ≤ m + g.size := by omega
  have hfree₅ : get mem₅ m .free_tid = kInvalidTid := by
    rw [get_head_congr (by decide) fun a ha hlt => (hfill a (by omega)).trans (hstack a (by omega)), hfree₃]
  have hneg := hok.poisoned (by decide)
  suffices hfinished : Finished flags s { s with memory := mem₅, shadow := shadow₂ } g m alignment size addr by
    by_cases hlt : size < rounded_size
    · rw [if_pos hlt] at hpart ⊢
      rw [hpart, ok_bind]
      exact Runs.ok hfinished
    · rw [if_neg hlt] at hpart ⊢
      cases hpart
      exact Runs.ok hfinished
  refine ⟨⟨hstarted₅.state,hstarted₅.size_class.trans hok.size_class,nofun,⟨addr,hstarted₅.beg,by omega,?_⟩,
    fun _ => ⟨addr,hstarted₅.beg,hstarted₅.ptr,hstarted₅.aligned,hbehind,?_,?_,hfree₅,hstarted₅.next,?_,?_,?_⟩,
    fun hne => absurd rfl hne⟩,hstarted₅.beg,hstarted₅.used,h.asked,hout,fun k hk => ?_,fun hle a ha hlt => ?_,rfl⟩
  · rw [hstarted₅.used]
    omega
  · rw [hstarted₅.used]
    exact hpos
  · rw [hstarted₅.used, ← hr]
    exact hinside
  · exact (hneg.mono le_rfl (by omega)).congr fun k ha hb => hshadow.outside k (.inl hb)
  · rw [hstarted₅.used]
    exact hshadow.inside
  · rw [hstarted₅.used]
    exact (hneg.mono (by omega) le_rfl).congr fun k ha hb => hshadow.outside k (.inr ha)
  · exact hshadow.outside k (by omega)
  · dsimp only
    rw [← hmem₅, if_pos hle, FlatMemory.fill, if_pos (by omega)]

end CompilerRt.AsanAllocator
