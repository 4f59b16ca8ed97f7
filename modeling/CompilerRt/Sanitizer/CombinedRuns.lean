import CompilerRt.Sanitizer.CombinedAllocation
import Mathlib

/-! # Runs of the combined allocator

Every operation keeps the blocks apart. `Reallocate` gives the old block back whatever comes of the new one, so a size
that is too large loses the block.
-/
namespace CompilerRt.Sanitizer
namespace Combined
open LargeMmap (needed pages mapSize)
variable {Cache : Type*} [DecidableEq Cache] {t : DefaultTemplate} {s s' : Combined Cache}
variable {k : Cache} {p p' n n' m q j size map_beg class_id : ℕ} {w v : Memory}

/-! ## Blocks that are given back -/

/-- One block less, and the bytes of the others as they were. -/
structure Removes (t : DefaultTemplate) (s s' : Combined Cache) (p : ℕ) : Prop where
  live : ∀ p' m, s'.Live t p' m ↔ s.Live t p' m ∧ p' ≠ p
  memory : ∀ p' m a, s.Live t p' m → p' ≠ p → p' ≤ a ∧ a < p' + m → s'.memory a = s.memory a

theorem removes_chunk {primary_ : Primary Cache} (h : s.Inv t) (hclass : class_id < 256)
    (hp : p ∈ s.primary_.user class_id)
    (he : s.primary_.Deallocate t.toTemplate k class_id p = some primary_) :
    let s' : Combined Cache := ⟨primary_,s.secondary_,
      s.memory.scribble (inNodes (p :: s.primary_.freeNodes k class_id)) w⟩
    s'.Inv t ∧ Removes t s s' p := by
  intro s'
  have hstep : s.primary_.step t.toTemplate kPopulateSize (.Deallocate k class_id p) = some primary_ := by
    rw [Primary.step, if_pos hp, he]
  have hprimary := Primary.step_inv_default h.primary hstep
  have h' : s'.Inv t := ⟨hprimary,h.secondary,h.outside,h.sized⟩
  obtain ⟨huser,hcarved⟩ := Primary.Deallocate_user he
  have hnodup : (s.primary_.user class_id).Nodup := (h.primary.kept class_id).spread.nodup .user
  refine ⟨h',fun p' m => ?_,fun p' m a hp' hne ha => ?_⟩
  · have hmem : ∀ c < 256, p' ∈ primary_.user c ↔ p' ∈ s.primary_.user c ∧ p' ≠ p := by
      intro c hc
      rw [huser]
      by_cases heq : c = class_id
      · subst heq
        rw [Function.update_self, hnodup.mem_erase_iff, and_comm]
      · rw [Function.update_of_ne heq]
        refine ⟨fun hp' => ⟨hp',?_⟩,And.left⟩
        rintro rfl
        exact heq (h.carved_class hc hclass (h.carved hp') (h.carved hp))
    have hlarge : ∀ b ∈ s.secondary_.live, b.res ≠ p := by
      rintro b hb rfl
      have hapart := h.chunk_large hclass (h.carved hp) hb
      have hin := h.large hb
      have hsizes := t.Size_bounds hclass
      omega
    constructor
    · rintro (⟨c,hc,hp',rfl⟩ | ⟨b,hb,rfl,rfl⟩)
      · obtain ⟨hp',hne⟩ := (hmem c hc).mp hp'
        exact ⟨.inl ⟨c,hc,hp',rfl⟩,hne⟩
      · exact ⟨.inr ⟨b,hb,rfl,rfl⟩,hlarge b hb⟩
    · rintro ⟨⟨c,hc,hp',rfl⟩ | ⟨b,hb,rfl,rfl⟩,hne⟩
      · exact .inl ⟨c,hc,(hmem c hc).mpr ⟨hp',hne⟩,rfl⟩
      · exact .inr ⟨b,hb,rfl,rfl⟩
  · refine scribble_of_not _ _ (h.not_inNodes hp' ha fun x hx => ?_)
    rcases List.mem_cons.mp hx with rfl | hx
    · exact ⟨hne.symm,class_id,hclass,h.carved hp⟩
    · obtain ⟨hx,hout⟩ := Primary.freeNodes_carved h.primary hx
      refine ⟨?_,class_id,hclass,hx⟩
      rintro rfl
      rcases hp' with ⟨c,hc,hp',rfl⟩ | ⟨b,hb,rfl,rfl⟩
      · exact hout (h.carved_class hc hclass (h.carved hp') hx ▸ hp')
      · have hapart := h.chunk_large hclass hx hb
        have hin := h.large hb
        have hsizes := t.Size_bounds hclass
        omega

omit [DecidableEq Cache] in
theorem removes_large {b : Block} (h : s.Inv t) (hb : b ∈ s.secondary_.live) :
    let r := s.secondary_.Deallocate b.res
    let s' : Combined Cache := ⟨s.primary_,r.2,
      s.memory.scribble (fun a => inMapping r.1.1 r.1.2 a || inHeaders s.secondary_.live a) w⟩
    s'.Inv t ∧ Removes t s s' b.res := by
  intro r s'
  obtain ⟨hsecondary,hmapping,hlive⟩ := LargeMmap.Deallocate_inv h.secondary hb
  have hnodup : s.secondary_.live.Nodup := h.secondary.nodup.of_map LargeMmap.headerOf
  have hres : ∀ b' ∈ s.secondary_.live, b'.res = b.res → b' = b := by
    intro b' hb' heq
    by_contra hne
    have hapart := h.secondary.apart.forall hb' hb hne
    have hlarge := h.large hb
    have hlarge' := h.large hb'
    rw [Block.Apart] at hapart
    omega
  have hmem : ∀ b', b' ∈ r.2.live ↔ b' ∈ s.secondary_.live ∧ b' ≠ b := by
    intro b'
    rw [hlive, hnodup.mem_erase_iff, and_comm]
  refine ⟨⟨h.primary,hsecondary,fun b' hb' => h.outside b' ((hmem b').mp hb').1,
    fun b' hb' => h.sized b' ((hmem b').mp hb').1⟩,fun p' m => ?_,fun p' m a hp' hne ha => ?_⟩
  · constructor
    · rintro (⟨c,hc,hp',rfl⟩ | ⟨b',hb',rfl,rfl⟩)
      · refine ⟨.inl ⟨c,hc,hp',rfl⟩,?_⟩
        rintro rfl
        have hapart := h.chunk_large hc (h.carved hp') hb
        have hin := h.large hb
        have hsizes := t.Size_bounds hc
        omega
      · obtain ⟨hb',hne⟩ := (hmem b').mp hb'
        exact ⟨.inr ⟨b',hb',rfl,rfl⟩,fun heq => hne (hres b' hb' heq)⟩
    · rintro ⟨⟨c,hc,hp',rfl⟩ | ⟨b',hb',rfl,rfl⟩,hne⟩
      · exact .inl ⟨c,hc,hp',rfl⟩
      · exact .inr ⟨b',(hmem b').mpr ⟨hb',fun heq => hne (heq ▸ rfl)⟩,rfl,rfl⟩
  · have hout : (inMapping r.1.1 r.1.2 a || inHeaders s.secondary_.live a) = false := by
      rw [hmapping, h.not_inMapping hp' ha hb hne, h.not_inHeaders hp' ha]
      rfl
    exact if_neg (ne_true_of_eq_false hout)

/-- A live block can always be given back. -/
theorem Deallocate_spec (h : s.Inv t) (hp : s.Live t p n) :
    ∃ s', s.Deallocate t k p w = some s' ∧ s'.Inv t ∧ Removes t s s' p := by
  obtain ⟨hpos,⟨c,hc,hp,-,hmine,hclass⟩ | ⟨b,hb,rfl,-,hmine⟩⟩ := h.pointerIsMine hp
  · obtain ⟨primary_,he⟩ := Primary.Deallocate_isSome (s := s.primary_) (t := t.toTemplate) (k := k) (p := p) hc
    obtain ⟨h',hremoves⟩ := removes_chunk (w := w) h hc hp he
    refine ⟨_,?_,h',hremoves⟩
    rw [Deallocate, if_neg hpos.ne', if_pos hmine]
    dsimp only
    rw [hclass, he]
    rfl
  · obtain ⟨h',hremoves⟩ := removes_large (w := w) h hb
    refine ⟨_,?_,h',hremoves⟩
    rw [Deallocate, if_neg hpos.ne', hmine, if_neg Bool.false_ne_true]

theorem SwallowCache_inv (h : s.Inv t) : (s.SwallowCache k w).Inv t ∧
    (∀ p m, (s.SwallowCache k w).Live t p m ↔ s.Live t p m) ∧
    ∀ p m a, s.Live t p m → p ≤ a ∧ a < p + m → (s.SwallowCache k w).memory a = s.memory a := by
  have hstep : s.primary_.step t.toTemplate kPopulateSize (.Drain k) = some (s.primary_.Drain k) := rfl
  have hprimary := Primary.step_inv_default h.primary hstep
  have hswallowed : (s.SwallowCache k w).primary_ = s.primary_.Drain k := by rw [SwallowCache]
  refine ⟨⟨?_,h.secondary,h.outside,h.sized⟩,fun p m => ?_,fun p m a hp ha => ?_⟩
  · rw [hswallowed]
    exact hprimary
  · rw [Live, Live, hswallowed, (Primary.Drain_user s.primary_ k).1]
    rfl
  · have hwritten : (s.SwallowCache k w).memory a =
        s.memory.scribble (inNodes ((List.range kNumClasses).flatMap (s.primary_.freeNodes k))) w a := rfl
    rw [hwritten]
    refine scribble_of_not _ _ (h.not_inNodes hp ha fun x hx => ?_)
    obtain ⟨c,hc,hx⟩ := List.mem_flatMap.mp hx
    rw [List.mem_range] at hc
    obtain ⟨hx,hout⟩ := Primary.freeNodes_carved h.primary hx
    refine ⟨?_,c,hc,hx⟩
    rintro rfl
    rcases hp with ⟨c',hc',hp,rfl⟩ | ⟨b,hb,rfl,rfl⟩
    · exact hout (h.carved_class hc' hc (h.carved hp) hx ▸ hp)
    · have hapart := h.chunk_large hc hx hb
      have hin := h.large hb
      have hsizes := t.Size_bounds hc
      omega

/-! ## Reallocation -/

omit [DecidableEq Cache] in
/-- The size of a live block is that of all its bytes, and the block is found. -/
theorem lookup_spec (h : s.Inv t) (hp : s.Live t p n) :
    s.PointerIsMine t p = some true ∧ s.GetActuallyAllocatedSize t p = some n := by
  rw [PointerIsMine, GetActuallyAllocatedSize]
  obtain ⟨hpos,⟨c,hc,hp,rfl,hmine,hclass⟩ | ⟨b,hb,rfl,rfl,hmine⟩⟩ := h.pointerIsMine hp
  · rw [if_pos hmine, if_pos hmine, Template.GetActuallyAllocatedSize, if_pos hmine, hclass]
    exact ⟨rfl,rfl⟩
  · have hplaced := h.secondary.placed b hb
    rw [hmine, if_neg Bool.false_ne_true, if_neg Bool.false_ne_true]
    constructor
    · have hpage : ¬b.res % kPageSize ≠ 0 := not_not_intro hplaced.page
      rw [LargeMmap.PointerIsMine, if_neg hpage]
      have hlength : (s.secondary_.live.map LargeMmap.headerOf).length < s.secondary_.live.length + 1 := by
        rw [List.length_map]
        exact Nat.lt_succ_self _
      rw [LargeMmap.find_eq h.secondary.links _ hlength, Option.map_some]
      have hfound : ((s.secondary_.live.map LargeMmap.headerOf).find?
          fun l => LargeMmap.GetUser l == b.res).isSome = true := by
        rw [List.find?_isSome]
        refine ⟨_,List.mem_map_of_mem hb,?_⟩
        rw [beq_iff_eq]
        exact LargeMmap.headerOf_add hplaced
      rw [hfound]
    · have hsize := (h.secondary.contents b hb).2.2
      have hround : RoundUpTo b.size kPageSize = some ((b.size + 4096 - 1) % 2^64 / 4096 * 4096) :=
        LargeMmap.roundUpTo_pow (k := 12) (by decide) b.size
      have hbelow := hplaced.below
      have hfits := hplaced.fits
      have hle := LargeMmap.le_pages b.size
      rw [LargeMmap.GetActuallyAllocatedSize, LargeMmap.RoundUpMapSize]
      have hheader : LargeMmap.GetHeader b.res = LargeMmap.headerOf b := rfl
      rw [hheader, hsize, hround, Option.map_some, Option.map_some, LargeMmap.kPageSize_eq]
      rw [pages] at hfits hle ⊢
      generalize b.size = x at hfits hle ⊢
      have hwrap : (x + 4096 - 1) % 2^64 / 4096 * 4096 = (x + 4095) / 4096 * 4096 := by omega
      rw [hwrap]
      generalize (x + 4095) / 4096 * 4096 = y at hfits ⊢
      have hback : ((y + 4096) % 2^64 + (2^64 - 4096)) % 2^64 = y := by omega
      rw [hback]

theorem Allocate_inv {alignment : ℕ} {cleared : Bool} (h : s.Inv t) (hasked : s.Asked t map_beg size alignment)
    (hs : s.Allocate t k map_beg size alignment cleared w = some (q,s')) : s'.Inv t := by
  obtain ⟨j,hj,rfl⟩ := hasked.2.1
  rcases Allocate_spec (k := k) (w := w) h hj hasked with ⟨c,hc,-,-,he⟩ | ⟨-,he⟩ | ⟨-,q,s₁,m,he,-,-,-,h₁,-⟩
  · rw [he] at hs
    cases hs
  · rw [he] at hs
    cases hs
    exact h
  · rw [he] at hs
    cases hs
    exact h₁

/-- What `Reallocate` should do with a block: on failure it stays as it was, and else its bytes are in the new block,
and it is free. -/
structure Reallocated (t : DefaultTemplate) (s s' : Combined Cache) (p old_size new_size q : ℕ) : Prop where
  failed : q = 0 → new_size ≠ 0 → s'.Live t p old_size ∧ ∀ a, p ≤ a ∧ a < p + old_size → s'.memory a = s.memory a
  copied : q ≠ 0 → ∃ n, s'.Live t q n ∧ new_size ≤ n ∧ ∀ i < min old_size new_size, s'.memory (q + i) = s.memory (p + i)
  freed : q ≠ 0 → ∀ m, ¬s'.Live t p m
  others : q ≠ 0 → ∀ p' m, p' ≠ p → s.Live t p' m →
    s'.Live t p' m ∧ ∀ a, p' ≤ a ∧ a < p' + m → s'.memory a = s.memory a

/-- The outcomes for a live block and a size that is not zero. -/
theorem Reallocate_spec (h : s.Inv t) (hp : s.Live t p n) (hsize : size ≠ 0) (hj : j < 64)
    (hasked : s.Asked t map_beg size (2^j)) :
    (∃ c < 256, s.primary_.Full t c ∧ s.Reallocate t k p map_beg size (2^j) w v = none) ∨
    (¬Fits t size (2^j) ∧ ∃ s', s.Reallocate t k p map_beg size (2^j) w v = some (0,s') ∧ s'.Inv t ∧
      Removes t s s' p) ∨
    Fits t size (2^j) ∧ ∃ q s', s.Reallocate t k p map_beg size (2^j) w v = some (q,s') ∧ q ≠ 0 ∧ s'.Inv t ∧
      Reallocated t s s' p n size q := by
  obtain ⟨hmine,hold⟩ := lookup_spec h hp
  have hpos : p ≠ 0 := (h.pointerIsMine hp).1.ne'
  rw [Reallocate, if_neg hpos, if_neg hsize, if_pos hmine, hold, Option.bind_some]
  dsimp only
  rcases Allocate_spec (k := k) (w := w) h hj hasked with
    ⟨c,hc,hfull,-,he⟩ | ⟨hnot,he⟩ | ⟨hfit,q,s₁,m,he,hq,hmod,hm,h₁,hadds⟩
  · rw [he]
    exact .inl ⟨c,hc,hfull,rfl⟩
  · rw [he, Option.bind_some]
    dsimp only
    rw [if_neg (not_not_intro rfl)]
    obtain ⟨s',hs',h',hremoves⟩ := Deallocate_spec (k := k) (w := v) h hp
    rw [hs']
    exact .inr (.inl ⟨hnot,s',rfl,h',hremoves⟩)
  · rw [he, Option.bind_some]
    dsimp only
    rw [if_pos hq.ne']
    have hapart := hadds.apart p n hp
    have hne : q ≠ p := by
      rintro rfl
      have hn : 0 < n := by
        obtain ⟨-,⟨c,hc,-,rfl,-⟩ | ⟨b,hb,-,rfl,-⟩⟩ := h.pointerIsMine hp
        · exact (t.Size_bounds hc).1.trans_lt' (by decide)
        · exact (h.large hb).2.1
      omega
    -- the state with the copied bytes
    obtain ⟨s₂,hs₂⟩ : ∃ s₂ : Combined Cache, s₂ = { s₁ with memory := s₁.memory.internal_memcpy q p (min size n) } :=
      ⟨_,rfl⟩
    have hmemory : s₂.memory = s₁.memory.internal_memcpy q p (min size n) := by rw [hs₂]
    have h₂ : s₂.Inv t := hs₂ ▸ ⟨h₁.primary,h₁.secondary,h₁.outside,h₁.sized⟩
    have hadds₂ : Adds t s s₂ q m := by
      refine hadds.congr (by rw [hs₂]) (by rw [hs₂]) fun a ha => ?_
      rw [hmemory]
      exact internal_memcpy_of_not _ (by omega)
    have hnew : s₂.Live t q m := (hadds₂.live q m).mpr (.inr ⟨rfl,rfl⟩)
    obtain ⟨s',hs',h',hremoves⟩ := Deallocate_spec (k := k) (w := v) h₂ ((hadds₂.live p n).mpr (.inl hp))
    rw [← hs₂, hs']
    refine .inr (.inr ⟨hfit,q,s',rfl,hq.ne',h',fun hzero => absurd hzero hq.ne',fun _ => ?_,fun _ m' hlive' => ?_,
      fun _ p' m' hne' hp' => ?_⟩)
    · refine ⟨m,(hremoves.live q m).mpr ⟨hnew,hne⟩,hm,fun i hi => ?_⟩
      have hbyte : s₂.memory (q + i) = s₁.memory (p + i) := by
        rw [hmemory]
        exact internal_memcpy_apply _ (by omega) (by omega)
      rw [hremoves.memory q m (q + i) hnew hne (by omega), hbyte, hadds.memory p n (p + i) hp (by omega)]
    · exact ((hremoves.live p m').mp hlive').2 rfl
    · have hkept : s₂.Live t p' m' := (hadds₂.live p' m').mpr (.inl hp')
      refine ⟨(hremoves.live p' m').mpr ⟨hkept,hne'⟩,fun a ha => ?_⟩
      rw [hremoves.memory p' m' a hkept hne' ha, hadds₂.memory p' m' a hp' ha]

/-- The invariant is kept whatever the pointer and the size. -/
theorem Reallocate_inv {alignment : ℕ} (h : s.Inv t) (hp : p = 0 ∨ ∃ n, s.Live t p n)
    (hasked : p ≠ 0 ∧ size = 0 ∨ s.Asked t map_beg size alignment)
    (hs : s.Reallocate t k p map_beg size alignment w v = some (q,s')) : s'.Inv t := by
  rcases hp with rfl | ⟨n,hp⟩
  · have hasked := hasked.resolve_left fun hand => hand.1 rfl
    obtain ⟨j,hj,rfl⟩ := hasked.2.1
    rw [Reallocate, if_pos rfl] at hs
    exact Allocate_inv h hasked hs
  · have hpos : p ≠ 0 := (h.pointerIsMine hp).1.ne'
    by_cases hsize : size = 0
    · obtain ⟨s₁,he,h₁,-⟩ := Deallocate_spec (k := k) (w := v) h hp
      rw [Reallocate, if_neg hpos, if_pos hsize, he] at hs
      cases hs
      exact h₁
    · have hasked := hasked.resolve_left fun hand => hsize hand.2
      obtain ⟨j,hj,rfl⟩ := hasked.2.1
      rcases Reallocate_spec (k := k) (w := w) (v := v) h hp hsize hj hasked with
        ⟨c,hc,-,he⟩ | ⟨-,s₁,he,h₁,-⟩ | ⟨-,q₁,s₁,he,-,h₁,-⟩
      · rw [he] at hs
        cases hs
      · rw [he] at hs
        cases hs
        exact h₁
      · rw [he] at hs
        cases hs
        exact h₁

/-! ## Runs -/

theorem step_inv {o : Op Cache} (h : s.Inv t) (hs : s.step t o = some s') : s'.Inv t := by
  cases o with
  | Allocate k map_beg size alignment cleared w =>
    rw [step, Option.ite_none_right_eq_some] at hs
    obtain ⟨hasked,hs⟩ := hs
    rw [Option.map_eq_some_iff] at hs
    obtain ⟨⟨q,s₁⟩,hs₁,rfl⟩ := hs
    exact Allocate_inv h hasked hs₁
  | Deallocate k p w =>
    rw [step, Option.ite_none_right_eq_some] at hs
    obtain ⟨rfl | ⟨n,hp⟩,hs⟩ := hs
    · rw [Deallocate, if_pos rfl] at hs
      cases hs
      exact h
    · obtain ⟨s₁,he,h₁,-⟩ := Deallocate_spec (k := k) (w := w) h hp
      rw [he] at hs
      cases hs
      exact h₁
  | Reallocate k p map_beg new_size alignment w v =>
    rw [step, Option.ite_none_right_eq_some] at hs
    obtain ⟨⟨hp,hasked⟩,hs⟩ := hs
    rw [Option.map_eq_some_iff] at hs
    obtain ⟨⟨q,s₁⟩,hs₁,rfl⟩ := hs
    exact Reallocate_inv h hp hasked hs₁
  | SwallowCache k w =>
    cases hs
    exact (SwallowCache_inv h).1
  | Write a v =>
    rw [step, Option.ite_none_right_eq_some] at hs
    cases hs.2
    exact ⟨h.primary,h.secondary,h.outside,h.sized⟩

/-- The blocks do not overlap, and an allocation ends the process in a region that is full, gives zero for a size that is
too large, or adds a block. -/
structure Sound (t : DefaultTemplate) (s : Combined Cache) : Prop where
  disjoint : ∀ p n p' n', s.Live t p n → s.Live t p' n' → p = p' ∧ n = n' ∨ p + n ≤ p' ∨ p' + n' ≤ p
  allocates : ∀ k map_beg size j cleared w, j < 64 → s.Asked t map_beg size (2^j) →
    (∃ c < 256, s.primary_.Full t c ∧ s.primary_.Allocate t.toTemplate kPopulateSize k c = none ∧
      s.Allocate t k map_beg size (2^j) cleared w = none) ∨
    (¬Fits t size (2^j) ∧ s.Allocate t k map_beg size (2^j) cleared w = some (0,s)) ∨
    Fits t size (2^j) ∧ ∃ q s' m, s.Allocate t k map_beg size (2^j) cleared w = some (q,s') ∧ 0 < q ∧ q % 2^j = 0 ∧
      size ≤ m ∧ Adds t s s' q m

theorem Inv.sound (h : s.Inv t) : s.Sound t where
  disjoint := fun _ _ _ _ hp hp' => h.disjoint hp hp'
  allocates := by
    intro k map_beg size j cleared w hj hasked
    rcases Allocate_spec (k := k) (w := w) h hj hasked with
      hfull | hover | ⟨hfit,q,s',m,he,hq,hmod,hm,-,hadds⟩
    · exact .inl hfull
    · exact .inr (.inl hover)
    · exact .inr (.inr ⟨hfit,q,s',m,he,hq,hmod,hm,hadds⟩)

theorem inv_of_run {ops : List (Op Cache)} {memory : Memory}
    (hrun : Transition.run (step t) (Init memory) ops = some s) : s.Inv t :=
  Transition.run_inv (fun _ _ _ h hs => step_inv h hs) (init_inv memory) hrun

/-- In every state of every run an allocation gives zero, or a block that is aligned, large enough and apart. -/
theorem combined_allocation (t : DefaultTemplate) (memory : Memory) (ops : List (Op Cache)) :
    Transition.AllStates (step t) (Sound t) (Init memory) ops :=
  Transition.allStates_of_inv (fun _ _ _ h _ hs => step_inv h hs) (fun _ h => h.sound) (init_inv memory)
    (Transition.AllSteps.of_forall (Q := fun _ _ => True) fun _ _ => trivial)

/-- `Reallocate` does what it should unless the size is too large: then the block is lost. -/
theorem reallocate_iff {ops : List (Op Cache)} {memory : Memory}
    (hrun : Transition.run (step t) (Init memory) ops = some s) (hp : s.Live t p n) (hj : j < 64)
    (hasked : size = 0 ∨ s.Asked t map_beg size (2^j)) (hs : s.Reallocate t k p map_beg size (2^j) w v = some (q,s')) :
    Reallocated t s s' p n size q ↔ size = 0 ∨ Fits t size (2^j) := by
  have h := inv_of_run hrun
  by_cases hsize : size = 0
  · have hpos : p ≠ 0 := (h.pointerIsMine hp).1.ne'
    have hq : q = 0 := by
      rw [Reallocate, if_neg hpos, if_pos hsize, Option.map_eq_some_iff] at hs
      obtain ⟨s₁,-,heq⟩ := hs
      exact (congrArg Prod.fst heq).symm
    refine ⟨fun _ => .inl hsize,fun _ => ⟨fun _ hne => absurd hsize hne,?_,?_,?_⟩⟩
    · exact fun hne => absurd hq hne
    · exact fun hne => absurd hq hne
    · exact fun hne => absurd hq hne
  · rcases Reallocate_spec (k := k) (w := w) (v := v) h hp hsize hj (hasked.resolve_left hsize) with
      ⟨c,hc,-,he⟩ | ⟨hnot,s₁,he,-,hremoves⟩ | ⟨hfit,q₁,s₁,he,-,-,hdone⟩
    · rw [he] at hs
      cases hs
    · rw [he] at hs
      cases hs
      refine ⟨fun hdone => ?_,fun hor => absurd hor (not_or.mpr ⟨hsize,hnot⟩)⟩
      exact absurd rfl ((hremoves.live p n).mp (hdone.failed rfl hsize).1).2
    · rw [he] at hs
      cases hs
      exact ⟨fun _ => .inr hfit,fun _ => hdone⟩

/-- A large block of 4 MiB at the beginning of a run. -/
def largeBlock : Block := ⟨2^20 + 4096,2^22,2^20,2^22 + 4096⟩

def withLarge : Combined Unit :=
  ⟨Primary.Init,LargeMmap.Init.insert largeBlock,
    Memory.scribble (fun _ => 0) (inNewest (LargeMmap.Init.insert largeBlock).live) fun _ => 0⟩

theorem run_withLarge : Transition.run (step tsanTemplate) (Init fun _ => 0)
    [.Allocate () (2^20) (2^22) (2^0) false fun _ => 0] = some withLarge := by
  have hasked : (Init fun _ => 0 : Combined Unit).Asked tsanTemplate (2^20) (2^22) (2^0) := by
    refine ⟨by decide,⟨0,by decide,rfl⟩,fun n hn hcan map_size hmap hle => ?_⟩
    have hrounded : rounded (nonzero (2^22)) (2^0) = some (2^22) := by decide
    have hsize : mapSize (2^22) (2^0) = some (2^22 + 4096) := by decide
    rw [hrounded] at hn
    cases hn
    rw [hsize] at hmap
    cases hmap
    exact ⟨⟨by decide,by decide,by decide,fun b hb => absurd hb List.not_mem_nil⟩,.inl (by decide)⟩
  have hresult : (Init fun _ => 0 : Combined Unit).Allocate tsanTemplate () (2^20) (2^22) (2^0) false (fun _ => 0) =
      some (largeBlock.res,withLarge) := rfl
  rw [Transition.run_cons, step, if_pos hasked, hresult]
  rfl

theorem live_withLarge : withLarge.Live tsanTemplate (2^20 + 4096) (2^22) :=
  .inr ⟨largeBlock,List.mem_singleton.mpr rfl,rfl,by decide⟩

/-- The block is moved to a larger one. -/
theorem reallocate_iff_larger : ∃ q s',
    withLarge.Reallocate tsanTemplate () (2^20 + 4096) (2^30) (2^23) (2^0) (fun _ => 0) (fun _ => 0) = some (q,s') ∧
      (Reallocated tsanTemplate withLarge s' (2^20 + 4096) (2^22) (2^23) q ↔
        2^23 = 0 ∨ Fits tsanTemplate (2^23) (2^0)) := by
  have hasked : withLarge.Asked tsanTemplate (2^30) (2^23) (2^0) := by
    refine ⟨by decide,⟨0,by decide,rfl⟩,fun n hn hcan map_size hmap hle => ?_⟩
    have hrounded : rounded (nonzero (2^23)) (2^0) = some (2^23) := by decide
    have hsize : mapSize (2^23) (2^0) = some (2^23 + 4096) := by decide
    rw [hrounded] at hn
    cases hn
    rw [hsize] at hmap
    cases hmap
    refine ⟨⟨by decide,by decide,by decide,fun b hb => ?_⟩,.inl (by decide)⟩
    rw [List.mem_singleton.mp hb]
    exact .inr (by decide)
  have hsome : (withLarge.Reallocate tsanTemplate () (2^20 + 4096) (2^30) (2^23) (2^0) (fun _ => 0)
      (fun _ => 0)).isSome = true := rfl
  obtain ⟨⟨q,s'⟩,hs⟩ := Option.isSome_iff_exists.mp hsome
  exact ⟨q,s',hs,reallocate_iff run_withLarge live_withLarge (by decide) (.inr hasked) hs⟩

/-- For the largest size `Reallocate` gives zero, and the block is gone. -/
theorem reallocate_loses_block : ∃ s',
    Transition.run (step tsanTemplate) (Init fun _ => 0) [.Allocate () (2^20) (2^22) (2^0) false fun _ => 0] =
      some withLarge ∧
    withLarge.Live tsanTemplate (2^20 + 4096) (2^22) ∧
    withLarge.Reallocate tsanTemplate () (2^20 + 4096) 0 (2^64 - 1) (2^0) (fun _ => 0) (fun _ => 0) = some (0,s') ∧
    ¬s'.Live tsanTemplate (2^20 + 4096) (2^22) ∧
    ¬Reallocated tsanTemplate withLarge s' (2^20 + 4096) (2^22) (2^64 - 1) 0 := by
  have hasked : withLarge.Asked tsanTemplate 0 (2^64 - 1) (2^0) := by
    refine ⟨by decide,⟨0,by decide,rfl⟩,fun n hn hcan map_size hmap hle => ?_⟩
    have hrounded : rounded (nonzero (2^64 - 1)) (2^0) = some (2^64 - 1) := by decide
    have hsize : mapSize (2^64 - 1) (2^0) = some 4096 := by decide
    rw [hrounded] at hn
    cases hn
    rw [hsize] at hmap
    cases hmap
    omega
  have hnot : ¬Fits tsanTemplate (2^64 - 1) (2^0) := fun hfit => absurd hfit.1 (by decide)
  rcases Reallocate_spec (k := ()) (w := fun _ => 0) (v := fun _ => 0) (inv_of_run run_withLarge) live_withLarge
    (by decide) (by decide) hasked with ⟨c,hc,-,he⟩ | ⟨-,s',he,-,hremoves⟩ | ⟨hfit,-⟩
  · have hsome : (withLarge.Reallocate tsanTemplate () (2^20 + 4096) 0 (2^64 - 1) (2^0) (fun _ => 0)
        (fun _ => 0)).isSome = true := rfl
    rw [he] at hsome
    cases hsome
  · have hgone : ¬s'.Live tsanTemplate (2^20 + 4096) (2^22) := fun hlive => ((hremoves.live _ _).mp hlive).2 rfl
    exact ⟨s',run_withLarge,live_withLarge,he,hgone,fun hdone => hgone (hdone.failed rfl (by decide)).1⟩
  · exact absurd hfit hnot

end Combined
end CompilerRt.Sanitizer
