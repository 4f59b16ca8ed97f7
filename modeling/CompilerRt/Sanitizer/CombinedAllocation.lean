import CompilerRt.Sanitizer.CombinedBlocks
import Mathlib

/-! # Allocation of a block

An allocation adds a block that is aligned and apart from the others, and fails only for sizes that are too large; the
bytes of the other blocks stay.
-/
namespace CompilerRt.Sanitizer

namespace Primary
variable {Cache : Type*} {t : Template} {fuel class_id p q x : ℕ} {s s' : Primary Cache} {k : Cache}

/-- Chunks in lists are not the user's. -/
theorem freeNodes_carved (h : s.Inv t) (hx : x ∈ s.freeNodes k class_id) :
    x ∈ s.carved class_id ∧ x ∉ s.user class_id := by
  have hspread := (h.kept class_id).spread
  rcases List.mem_append.mp hx with hx | hx
  · refine ⟨hspread.mem (i := Place.cache k) hx,fun hmem => ?_⟩
    exact absurd (hspread.disjoint (.cache k) .user x hx hmem) (by simp)
  · refine ⟨hspread.mem (i := Place.region) hx,fun hmem => ?_⟩
    exact absurd (hspread.disjoint .region .user x hx hmem) (by simp)

variable [DecidableEq Cache]

/-- The user gets a chunk; the nodes whose links are written were not the user's. -/
theorem Allocate_user (h : s.Inv t) (h' : s'.Inv t) (he : s.Allocate t fuel k class_id = some (q,s')) :
    s'.user = Function.update s.user class_id (q :: s.user class_id) ∧
    (∀ c x, x ∈ s.carved c → x ∈ s'.carved c) ∧
    ∀ x ∈ s.linked t fuel k class_id, x ∈ s'.carved class_id ∧ x ∉ s.user class_id := by
  have huser : ∀ s₁ s₂ : Primary Cache, s₁.take k class_id = some (q,s₂) →
      s₂.user = Function.update s₁.user class_id (q :: s₁.user class_id) ∧ s₂.carved = s₁.carved := by
    intro s₁ s₂ htake
    obtain ⟨l,-,rfl⟩ := take_eq htake
    exact ⟨rfl,rfl⟩
  obtain ⟨hclass,⟨hne,htake⟩ | ⟨hempty,s₁,hrefill,htake⟩⟩ := Allocate_eq he
  · obtain ⟨htaken,hcarved⟩ := huser s s' htake
    refine ⟨htaken,fun c x hx => hcarved ▸ hx,fun x hx => ?_⟩
    rw [linked, if_neg (mt List.isEmpty_iff.mp hne)] at hx
    exact absurd hx List.not_mem_nil
  · obtain ⟨r,-,rfl⟩ := Option.map_eq_some_iff.mp hrefill
    obtain ⟨htaken,hcarved⟩ := huser _ s' htake
    dsimp only [setList, setRegion] at htaken hcarved
    have hclass' : s'.carved class_id = s.carved class_id ++ s.carves t fuel class_id := by
      rw [hcarved, Function.update_self]
    have hnodup := (apart_of_laid h'.laid h'.room hclass).nodup
    rw [hclass', List.nodup_append] at hnodup
    refine ⟨htaken,fun c x hx => ?_,fun x hx => ?_⟩
    · rw [hcarved]
      by_cases hc : c = class_id
      · subst hc
        rw [Function.update_self]
        exact List.mem_append_left _ hx
      · rwa [Function.update_of_ne hc]
    · rw [linked, if_pos (List.isEmpty_iff.mpr hempty), List.mem_append] at hx
      rw [hclass', List.mem_append]
      rcases hx with hx | hx
      · obtain ⟨hold,hout⟩ := freeNodes_carved h hx
        exact ⟨.inl hold,hout⟩
      · refine ⟨.inr hx,fun hmem => ?_⟩
        exact hnodup.2.2 x ((h.kept class_id).spread.mem (i := Place.user) hmem) x hx rfl

/-- The chunk is new to the user. -/
theorem Allocate_new (h : s.Inv t) (h' : s'.Inv t) (he : s.Allocate t fuel k class_id = some (q,s')) :
    class_id < 256 ∧ q ∈ s'.user class_id ∧ q ∉ s.user class_id := by
  have huser := (Allocate_user h h' he).1
  have hnodup : (s'.user class_id).Nodup := (h'.kept class_id).spread.nodup .user
  rw [huser, Function.update_self, List.nodup_cons] at hnodup
  refine ⟨(Allocate_eq he).1,?_,hnodup.1⟩
  rw [huser, Function.update_self]
  exact List.mem_cons_self

theorem Deallocate_user (he : s.Deallocate t k class_id p = some s') :
    s'.user = Function.update s.user class_id ((s.user class_id).erase p) ∧ s'.carved = s.carved := by
  obtain ⟨-,⟨-,rfl⟩ | ⟨-,hdrain⟩⟩ := Deallocate_eq he
  · exact ⟨rfl,rfl⟩
  · obtain ⟨front,rest,-,-,rfl⟩ := DrainHalf_eq hdrain
    exact ⟨rfl,rfl⟩

theorem Deallocate_isSome (hclass : class_id < 256) : ∃ s', s.Deallocate t k class_id p = some s' := by
  have hnum : class_id < kNumClasses := hclass
  rw [Deallocate, if_pos hnum]
  dsimp only
  split_ifs
  · obtain ⟨a,b,hmove⟩ := Template.moveFront_isSome [] (Nat.div_le_self ((s.give k class_id p).free_lists_ k class_id).length 2)
    rw [DrainHalf, hmove]
    exact ⟨_,rfl⟩
  · exact ⟨_,rfl⟩

theorem foldl_drainClass_user (l : List ℕ) (s : Primary Cache) : (l.foldl (drainClass k) s).user = s.user := by
  induction l generalizing s with
  | nil => rfl
  | cons c l ih => exact ih _

theorem Drain_user (s : Primary Cache) (k : Cache) : (s.Drain k).user = s.user ∧ (s.Drain k).carved = s.carved :=
  ⟨foldl_drainClass_user _ s,(sameLayout_drain _ s k).carved⟩

end Primary

namespace Combined
open LargeMmap (needed pages mapSize)
variable {Cache : Type*} [DecidableEq Cache] {t : DefaultTemplate} {s s' : Combined Cache}
variable {k : Cache} {p p' n n' m q j size map_beg class_id : ℕ} {w : Memory}

/-- One block more, and the bytes of the others as they were. -/
structure Adds (t : DefaultTemplate) (s s' : Combined Cache) (q n : ℕ) : Prop where
  live : ∀ p m, s'.Live t p m ↔ s.Live t p m ∨ p = q ∧ m = n
  apart : ∀ p m, s.Live t p m → q + n ≤ p ∨ p + m ≤ q
  memory : ∀ p m a, s.Live t p m → p ≤ a ∧ a < p + m → s'.memory a = s.memory a

theorem scribble_of_not {written : ℕ → Bool} {a : ℕ} (m w : Memory) (h : written a = false) :
    m.scribble written w a = m a := by
  rw [Memory.scribble, h]
  exact if_neg Bool.false_ne_true

/-- A chunk is added. -/
theorem adds_chunk {primary_ : Primary Cache} (h : s.Inv t)
    (he : s.primary_.Allocate t.toTemplate kPopulateSize k class_id = some (q,primary_)) :
    let s' : Combined Cache := ⟨primary_,s.secondary_,
      s.memory.scribble (inNodes (s.primary_.linked t.toTemplate kPopulateSize k class_id)) w⟩
    s'.Inv t ∧ 0 < q ∧ q ∈ primary_.carved class_id ∧ Adds t s s' q (t.map.Size class_id) := by
  intro s'
  have hstep : s.primary_.step t.toTemplate kPopulateSize (.Allocate k class_id) = some primary_ := by
    rw [Primary.step, he, Option.map_some]
  have hprimary := Primary.step_inv_default h.primary hstep
  have h' : s'.Inv t := ⟨hprimary,h.secondary,h.outside,h.sized⟩
  obtain ⟨huser,hcarved,hlinked⟩ := Primary.Allocate_user h.primary hprimary he
  obtain ⟨hclass,hq,hnew⟩ := Primary.Allocate_new h.primary hprimary he
  have hlive : ∀ p m, s'.Live t p m ↔ s.Live t p m ∨ p = q ∧ m = t.map.Size class_id := by
    intro p m
    have hmem : ∀ c, p ∈ primary_.user c ↔ p ∈ s.primary_.user c ∨ p = q ∧ c = class_id := by
      intro c
      rw [huser]
      by_cases hc : c = class_id
      · subst hc
        rw [Function.update_self, List.mem_cons]
        tauto
      · rw [Function.update_of_ne hc]
        tauto
    constructor
    · rintro (⟨c,hc,hp,rfl⟩ | hlarge)
      · rcases (hmem c).mp hp with hp | ⟨rfl,rfl⟩
        · exact .inl (.inl ⟨c,hc,hp,rfl⟩)
        · exact .inr ⟨rfl,rfl⟩
      · exact .inl (.inr hlarge)
    · rintro ((⟨c,hc,hp,rfl⟩ | hlarge) | ⟨rfl,rfl⟩)
      · exact .inl ⟨c,hc,(hmem c).mpr (.inl hp),rfl⟩
      · exact .inr hlarge
      · exact .inl ⟨class_id,hclass,hq,rfl⟩
  have hne : ∀ p m x, s.Live t p m → x ∈ primary_.carved class_id → x ∉ s.primary_.user class_id → x ≠ p := by
    rintro p m x (⟨c,hc,hp,rfl⟩ | ⟨b,hb,rfl,rfl⟩) hx hout rfl
    · have heq := h'.carved_class hclass hc hx (hcarved c x (h.carved hp))
      exact hout (heq ▸ hp)
    · have hapart := h'.chunk_large hclass hx hb
      have hsizes := t.Size_bounds hclass
      have hlarge := h.large hb
      omega
  refine ⟨h',?_,h'.carved hq,hlive,fun p m hp => ?_,fun p m a hp ha => ?_⟩
  · have hin := h'.region hclass (h'.carved hq)
    have hsmall : t.kRegionSize ≤ t.regionBeg class_id := t.kRegionSize_le_regionBeg class_id
    have hregion := t.kSpaceSize_eq
    omega
  · have hlive' := (hlive p m).mpr (.inl hp)
    rcases h'.disjoint ((hlive q _).mpr (.inr ⟨rfl,rfl⟩)) hlive' with ⟨heq,-⟩ | hapart
    · exact absurd heq (hne p m q hp (h'.carved hq) hnew)
    · exact hapart
  · refine scribble_of_not _ _ (h'.not_inNodes ((hlive p m).mpr (.inl hp)) ha fun x hx => ?_)
    obtain ⟨hx,hout⟩ := hlinked x hx
    exact ⟨hne p m x hp hx hout,class_id,hclass,hx⟩

omit [DecidableEq Cache] in
/-- A large block is added. -/
theorem adds_large (h : s.Inv t) (hsize : 0 < size) (hsize' : size < 2^64) (hj : j < 64)
    (hfresh : s.secondary_.Fresh map_beg (needed size (2^j))) (hout : Outside t map_beg (needed size (2^j))) :
    ∃ q secondary_, s.secondary_.Allocate map_beg size (2^j) = some (q,secondary_) ∧ 0 < q ∧ q % 2^j = 0 ∧
      let s' : Combined Cache := ⟨s.primary_,secondary_,s.memory.scribble (inNewest secondary_.live) w⟩
      s'.Inv t ∧ Adds t s s' q (pages size) := by
  obtain ⟨hresult,hmod⟩ := LargeMmap.Allocate_fresh hfresh hsize' hj
  obtain ⟨hplaced,hapart⟩ := LargeMmap.newBlock_placed hfresh hj
  have hheader := hplaced.header
  refine ⟨_,_,hresult,by omega,hmod,?_⟩
  generalize hb : LargeMmap.newBlock map_beg size (2^j) = b at *
  have hbeg : b.map_beg = map_beg := by rw [← hb]; rfl
  have hmap : b.map_size = needed size (2^j) := by rw [← hb]; rfl
  have hbsize : b.size = size := by rw [← hb]; rfl
  intro s'
  have hlist : s'.secondary_.live = b :: s.secondary_.live := rfl
  have h' : s'.Inv t := by
    refine ⟨h.primary,LargeMmap.insert_inv h.secondary hplaced hapart,?_,?_⟩
    · intro b' hb'
      rcases List.mem_cons.mp hb' with rfl | hb'
      · rwa [hbeg, hmap]
      · exact h.outside b' hb'
    · intro b' hb'
      rcases List.mem_cons.mp hb' with rfl | hb'
      · rwa [hbsize]
      · exact h.sized b' hb'
  have hlive : ∀ p m, s'.Live t p m ↔ s.Live t p m ∨ p = b.res ∧ m = pages size := by
    intro p m
    constructor
    · rintro (hchunk | ⟨b',hb',rfl,rfl⟩)
      · exact .inl (.inl hchunk)
      · rcases List.mem_cons.mp hb' with rfl | hb'
        · exact .inr ⟨rfl,by rw [hbsize]⟩
        · exact .inl (.inr ⟨b',hb',rfl,rfl⟩)
    · rintro ((hchunk | ⟨b',hb',rfl,rfl⟩) | ⟨rfl,rfl⟩)
      · exact .inl hchunk
      · exact .inr ⟨b',List.mem_cons_of_mem _ hb',rfl,rfl⟩
      · exact .inr ⟨b,List.mem_cons_self,rfl,by rw [hbsize]⟩
  have hne : ∀ p m, s.Live t p m → p ≠ b.res := by
    rintro p m (⟨c,hc,hp,rfl⟩ | ⟨b',hb',rfl,rfl⟩)
    · have hchunk := h'.chunk_large hc (h'.carved hp) List.mem_cons_self
      have hlarge := h'.large (b := b) List.mem_cons_self
      have hsizes := t.Size_bounds hc
      omega
    · have hlarge := h.large hb'
      have hlarge' := h'.large (b := b) List.mem_cons_self
      have happart := hapart b' hb'
      rw [Block.Apart] at happart
      omega
  refine ⟨h',hlive,fun p m hp => ?_,fun p m a hp ha => ?_⟩
  · rcases h'.disjoint ((hlive b.res _).mpr (.inr ⟨rfl,rfl⟩)) ((hlive p m).mpr (.inl hp)) with ⟨heq,-⟩ | happart
    · exact absurd heq.symm (hne p m hp)
    · exact happart
  · have hmapping := h'.not_inMapping ((hlive p m).mpr (.inl hp)) ha List.mem_cons_self (hne p m hp)
    have hheaders := h.not_inHeaders hp ha
    refine scribble_of_not _ _ ?_
    have hnewest : inNewest s'.secondary_.live a =
        (inMapping b.map_beg b.map_size a || inHeaders s.secondary_.live a) := rfl
    rw [hnewest, hmapping, hheaders]
    rfl

/-! ## Sizes -/

/-- The size rounded up to a large alignment. -/
def padded (size alignment : ℕ) : ℕ :=
  if 8 < alignment then (size + alignment - 1) / alignment * alignment else size

/-- The sizes for which nothing wraps. -/
def Fits (t : DefaultTemplate) (size alignment : ℕ) : Prop :=
  nonzero size + alignment < 2^64 ∧ (t.CanAllocate (padded (nonzero size) alignment) alignment = true ∨
    needed (padded (nonzero size) alignment) alignment < 2^64)

theorem eight_lt_pow : 8 < 2^j ↔ 3 < j := by
  have h8 : (8:ℕ) = 2^3 := rfl
  rw [h8, Nat.pow_lt_pow_iff_right (by decide)]

theorem rounded_eq (hsum : n + 2^j < 2^64) (hj : j < 64) : rounded n (2^j) = some (padded n (2^j)) ∧
    n ≤ padded n (2^j) ∧ padded n (2^j) < 2^64 ∧ (3 < j → 2^j ∣ padded n (2^j)) := by
  rw [rounded, padded]
  by_cases hlarge : 3 < j
  · have hpos := Nat.two_pow_pos j
    have hdiv := Nat.div_add_mod (n + 2^j - 1) (2^j)
    have hmod := Nat.mod_lt (n + 2^j - 1) hpos
    rw [if_pos (eight_lt_pow.mpr hlarge), if_pos (eight_lt_pow.mpr hlarge), LargeMmap.roundUpTo_pow hj,
      Nat.mod_eq_of_lt (by omega)]
    rw [Nat.mul_comm] at hdiv
    exact ⟨rfl,by omega,by omega,fun _ => Nat.dvd_mul_left ..⟩
  · rw [if_neg (mt eight_lt_pow.mp hlarge), if_neg (mt eight_lt_pow.mp hlarge)]
    exact ⟨rfl,le_rfl,(Nat.le_add_right n _).trans_lt hsum,fun h => absurd h hlarge⟩

omit [DecidableEq Cache] in
/-- Chunks are aligned as their sizes are. -/
theorem Inv.chunk_aligned (h : s.Inv t) (hq : q ∈ s.primary_.carved class_id) (hdvd : 2^j ∣ t.map.Size class_id)
    (hj : j ≤ 32) : q % 2^j = 0 := by
  rw [(h.primary.laid class_id).2, List.mem_map] at hq
  obtain ⟨i,-,rfl⟩ := hq
  obtain ⟨b,hb,-,hregion⟩ := t.kRegionSize_pow
  obtain ⟨m,-,-,hbeg⟩ := t.regionBeg_eq
  have hword : 2^j ∣ 2^64 := Nat.pow_dvd_pow 2 (by omega)
  refine Nat.mod_eq_zero_of_dvd ?_
  rw [Template.chunk]
  refine (Nat.dvd_mod_iff hword).mpr (Nat.dvd_add ?_ ((Nat.dvd_mod_iff hword).mpr (hdvd.mul_left i)))
  rw [hbeg, hregion]
  exact (Nat.pow_dvd_pow 2 (by omega)).mul_left _

theorem CanAllocate_iff : t.CanAllocate n (2^j) = true ↔ n ≤ 2^21 ∧ j ≤ 21 := by
  have hmax : t.map.kMaxSize = 2^21 := by
    rw [t.default]
    rfl
  rw [Template.CanAllocate, hmax, Bool.and_eq_true, decide_eq_true_iff, decide_eq_true_iff,
    Nat.pow_le_pow_iff_right (by decide)]

/-- The three outcomes: the region is full, the size too large, or there is a new block. -/
theorem AllocateFrom_spec (h : s.Inv t) (hpos : 0 < n) (hn : n < 2^64) (hj : j < 64) (hdvd : 3 < j → 2^j ∣ n)
    (hfresh : t.CanAllocate n (2^j) = false → ∀ map_size, mapSize n (2^j) = some map_size → n ≤ map_size →
      s.secondary_.Fresh map_beg map_size ∧ Outside t map_beg map_size) :
    (∃ c < 256, s.primary_.Full t c ∧ s.primary_.Allocate t.toTemplate kPopulateSize k c = none ∧
      s.AllocateFrom t k map_beg n (2^j) w = none) ∨
    (¬(t.CanAllocate n (2^j) = true ∨ needed n (2^j) < 2^64) ∧ s.AllocateFrom t k map_beg n (2^j) w = some (0,s)) ∨
    (t.CanAllocate n (2^j) = true ∨ needed n (2^j) < 2^64) ∧ ∃ q s' m,
      s.AllocateFrom t k map_beg n (2^j) w = some (q,s') ∧ 0 < q ∧ q % 2^j = 0 ∧ n ≤ m ∧ s'.Inv t ∧ Adds t s s' q m := by
  rw [AllocateFrom]
  by_cases hcan : t.CanAllocate n (2^j) = true
  · rw [if_pos hcan]
    obtain ⟨hle,hj21⟩ := CanAllocate_iff.mp hcan
    obtain ⟨hclass,-⟩ := DefaultSizeClassMap.Size_ClassID hpos hle
    have hmap : t.map.ClassID n = DefaultSizeClassMap.ClassID n := by
      rw [t.default]
      rfl
    have hsize : t.map.Size (t.map.ClassID n) = DefaultSizeClassMap.Size (DefaultSizeClassMap.ClassID n) := by
      rw [t.default]
      rfl
    dsimp only
    cases he : s.primary_.Allocate t.toTemplate kPopulateSize k (t.map.ClassID n) with
    | none =>
      have hclass' : t.map.ClassID n < 256 := hmap ▸ hclass
      exact .inl ⟨_,hclass',Primary.Allocate_none h.primary.laid h.primary.room hclass' he,he,rfl⟩
    | some r =>
      obtain ⟨q,primary_⟩ := r
      obtain ⟨h',hq,hcarved,hadds⟩ := adds_chunk (w := w) h he
      refine .inr (.inr ⟨.inl hcan,q,_,_,rfl,hq,h'.chunk_aligned hcarved ?_ (by omega),?_,h',hadds⟩)
      · rw [hsize]
        by_cases hlarge : 3 < j
        · exact DefaultSizeClassMap.dvd_Size hpos hle (hdvd hlarge)
        · have h16 : 2^j ∣ 16 := Nat.pow_dvd_pow (n := 4) 2 (by omega)
          exact h16.trans (DefaultSizeClassMap.sixteen_dvd_Size hpos hle)
      · rw [hsize]
        exact DefaultSizeClassMap.size_le hpos hle
  · rw [if_neg hcan]
    by_cases hfit : needed n (2^j) < 2^64
    · obtain ⟨hmap,-⟩ := LargeMmap.mapSize_eq hn hj
      rw [Nat.mod_eq_of_lt hfit] at hmap
      have hle : n ≤ needed n (2^j) := by
        have hpages := LargeMmap.le_pages n
        rw [needed]
        omega
      obtain ⟨hfresh,hout⟩ := hfresh (Bool.not_eq_true _ ▸ hcan) _ hmap hle
      obtain ⟨q,secondary_,hresult,hq,hmod,h',hadds⟩ := adds_large (w := w) h hpos hn hj hfresh hout
      rw [hresult, Option.map_some]
      dsimp only
      rw [if_neg hq.ne']
      exact .inr (.inr ⟨.inr hfit,q,_,_,rfl,hq,hmod,LargeMmap.le_pages n,h',hadds⟩)
    · rw [LargeMmap.Allocate_overflow _ hn hj (not_lt.mp hfit), Option.map_some]
      exact .inr (.inl ⟨fun hor => hor.elim hcan hfit,rfl⟩)

/-! ## Memory -/

theorem foldl_update_of_ne {f : ℕ → ℕ} {g : ℕ → Memory → BitVec 8} {l : List ℕ} {a : ℕ} (h : ∀ i ∈ l, f i ≠ a)
    (m : Memory) : l.foldl (fun m i => Function.update m (f i) (g i m)) m a = m a := by
  induction l generalizing m with
  | nil => rfl
  | cons i l ih =>
    rw [List.foldl_cons, ih fun i' hi' => h i' (List.mem_cons_of_mem i hi')]
    exact Function.update_of_ne (h i List.mem_cons_self).symm _ _

theorem internal_memset_of_not {a c : ℕ} {v : BitVec 8} (m : Memory) (h : a < c ∨ c + n ≤ a) :
    m.internal_memset c v n a = m a := by
  refine foldl_update_of_ne (fun i hi => ?_) m
  have hi := List.mem_range.mp hi
  omega

theorem internal_memcpy_of_not {a dest src : ℕ} (m : Memory) (h : a < dest ∨ dest + n ≤ a) :
    m.internal_memcpy dest src n a = m a := by
  refine foldl_update_of_ne (g := fun i m => m (src + i)) (fun i hi => ?_) m
  have hi := List.mem_range.mp hi
  omega

/-- The bytes are copied where the ranges do not overlap. -/
theorem internal_memcpy_apply {dest src i : ℕ} (m : Memory) (h : dest + n ≤ src ∨ src + n ≤ dest) (hi : i < n) :
    m.internal_memcpy dest src n (dest + i) = m (src + i) := by
  induction n with
  | zero => exact absurd hi (Nat.not_lt_zero i)
  | succ n ih =>
    have hstep : m.internal_memcpy dest src (n + 1) = Function.update (m.internal_memcpy dest src n) (dest + n)
        (m.internal_memcpy dest src n (src + n)) := by
      rw [Memory.internal_memcpy, List.range_succ, List.foldl_append]
      rfl
    rw [hstep]
    rcases Nat.lt_succ_iff_lt_or_eq.mp hi with hlt | rfl
    · rw [Function.update_of_ne (by omega)]
      exact ih (by omega) hlt
    · rw [Function.update_self]
      exact internal_memcpy_of_not m (by omega)

/-! ## Requests -/

omit [DecidableEq Cache] in
/-- The memory of the new block does not count. -/
theorem Adds.congr {s'' : Combined Cache} (h : Adds t s s' q n) (hprimary : s''.primary_ = s'.primary_)
    (hsecondary : s''.secondary_ = s'.secondary_) (hmemory : ∀ a, a < q ∨ q + n ≤ a → s''.memory a = s'.memory a) :
    Adds t s s'' q n := by
  refine ⟨fun p m => ?_,h.apart,fun p m a hp ha => ?_⟩
  · rw [← h.live, Live, Live, hprimary, hsecondary]
  · rw [← h.memory p m a hp ha]
    have hapart := h.apart p m hp
    exact hmemory a (by omega)

theorem Allocate_spec {cleared : Bool} (h : s.Inv t) (hj : j < 64) (hasked : s.Asked t map_beg size (2^j)) :
    (∃ c < 256, s.primary_.Full t c ∧ s.primary_.Allocate t.toTemplate kPopulateSize k c = none ∧
      s.Allocate t k map_beg size (2^j) cleared w = none) ∨
    (¬Fits t size (2^j) ∧ s.Allocate t k map_beg size (2^j) cleared w = some (0,s)) ∨
    Fits t size (2^j) ∧ ∃ q s' m, s.Allocate t k map_beg size (2^j) cleared w = some (q,s') ∧
      0 < q ∧ q % 2^j = 0 ∧ size ≤ m ∧ s'.Inv t ∧ Adds t s s' q m := by
  obtain ⟨hsize,-,hfresh⟩ := hasked
  have hone : 0 < nonzero size ∧ size ≤ nonzero size ∧ nonzero size < 2^64 := by
    rw [nonzero]
    split_ifs <;> omega
  have hpow : 2^j < 2^64 := Nat.pow_lt_pow_right (by decide) hj
  rw [Allocate, Fits]
  dsimp only
  by_cases hsum : nonzero size + 2^j < 2^64
  · obtain ⟨hrounded,hle,hlt,hdvd⟩ := rounded_eq hsum hj
    have hno : ¬(nonzero size + 2^j) % 2^64 < nonzero size := by
      rw [Nat.mod_eq_of_lt hsum]
      exact Nat.not_lt.mpr (Nat.le_add_right ..)
    rw [if_neg hno, hrounded, Option.bind_some]
    rcases AllocateFrom_spec (k := k) (w := w) h (hone.1.trans_le hle) hlt hj hdvd
      (fun hcan => hfresh _ hrounded hcan) with ⟨c,hc,hfull,hnone,he⟩ | ⟨hnot,he⟩ | ⟨hfit,q,s',m,he,hq,hmod,hm,h',hadds⟩
    · rw [he]
      exact .inl ⟨c,hc,hfull,hnone,rfl⟩
    · refine .inr (.inl ⟨fun hfit => hnot hfit.2,?_⟩)
      rw [he, Option.bind_some]
      dsimp only
      rw [Nat.zero_and, if_neg (fun hand => hand.2 rfl), if_neg (fun hand => hand.2 rfl)]
    · refine .inr (.inr ⟨⟨hsum,hfit⟩,q,?_⟩)
      rw [he, Option.bind_some]
      dsimp only
      rw [LargeMmap.and_mask_pow hj, if_neg (fun hand => hand.2 hmod)]
      by_cases hcleared : cleared = true ∧ q ≠ 0
      · rw [if_pos hcleared]
        refine ⟨_,m,rfl,hq,hmod,hone.2.1.trans (hle.trans hm),⟨h'.primary,h'.secondary,h'.outside,h'.sized⟩,?_⟩
        refine hadds.congr rfl rfl fun a ha => internal_memset_of_not _ ?_
        omega
      · rw [if_neg hcleared]
        exact ⟨s',m,rfl,hq,hmod,hone.2.1.trans (hle.trans hm),h',hadds⟩
  · refine .inr (.inl ⟨fun hfit => hsum hfit.1,?_⟩)
    rw [if_pos]
    omega

end Combined
end CompilerRt.Sanitizer
