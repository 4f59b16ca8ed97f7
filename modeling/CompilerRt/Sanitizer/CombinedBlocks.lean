import CompilerRt.Sanitizer.CombinedAllocator
import Mathlib

/-! # The blocks of the combined allocator

Chunks lie in the regions and large blocks outside of the space, so no two blocks overlap; the class of a size that was
rounded up to the alignment has chunks that are aligned.
-/
namespace CompilerRt.Sanitizer
namespace Combined
variable {Cache : Type*} {t : DefaultTemplate} {s s' : Combined Cache}
variable {k : Cache} {p p' n n' q j size map_beg class_id : ℕ} {w : Memory}

structure Inv (t : DefaultTemplate) (s : Combined Cache) : Prop where
  primary : s.primary_.Inv t.toTemplate
  secondary : s.secondary_.Inv
  outside : ∀ b ∈ s.secondary_.live, Outside t b.map_beg b.map_size
  sized : ∀ b ∈ s.secondary_.live, 0 < b.size

theorem init_inv (memory : Memory) : (Init memory : Combined Cache).Inv t :=
  ⟨Primary.init_inv,LargeMmap.init_inv,fun _ h => absurd h List.not_mem_nil,fun _ h => absurd h List.not_mem_nil⟩

/-! ## Blocks that do not overlap -/

/-- Where chunks are. -/
theorem Inv.region (h : s.Inv t) (hclass : class_id < 256) (hp : p ∈ s.primary_.carved class_id) :
    t.regionBeg class_id ≤ p ∧ p + t.map.Size class_id ≤ t.regionBeg class_id + t.kRegionSize :=
  (Primary.apart_of_laid h.primary.laid h.primary.room hclass).inside p hp

theorem Inv.carved (h : s.Inv t) (hp : p ∈ s.primary_.user class_id) : p ∈ s.primary_.carved class_id :=
  (h.primary.kept class_id).spread.mem (i := Primary.Place.user) hp

/-- Regions come one behind the other. -/
theorem regionBeg_lt {c c' : ℕ} (t : DefaultTemplate) (h : c < c') : t.regionBeg c + t.kRegionSize ≤ t.regionBeg c' := by
  rw [Template.regionBeg, Template.regionBeg, Nat.add_assoc, ← Nat.mul_succ]
  exact Nat.add_le_add_left (Nat.mul_le_mul_left _ h) _

theorem le_regionBeg (t : DefaultTemplate) (c : ℕ) : t.kSpaceBeg ≤ t.regionBeg c := Nat.le_add_right ..

/-- A chunk is of one class. -/
theorem Inv.carved_class {c c' : ℕ} (h : s.Inv t) (hc : c < 256) (hc' : c' < 256) (hp : p ∈ s.primary_.carved c)
    (hp' : p ∈ s.primary_.carved c') : c = c' := by
  have hsizes := t.Size_bounds hc
  have hsizes' := t.Size_bounds hc'
  have hin := h.region hc hp
  have hin' := h.region hc' hp'
  rcases Nat.lt_trichotomy c c' with hlt | heq | hlt
  · have hle := regionBeg_lt t hlt
    omega
  · exact heq
  · have hle := regionBeg_lt t hlt
    omega

/-- Two chunks do not overlap. -/
theorem Inv.chunks {c c' : ℕ} (h : s.Inv t) (hc : c < 256) (hc' : c' < 256) (hp : p ∈ s.primary_.carved c)
    (hp' : p' ∈ s.primary_.carved c') (hne : p ≠ p') : p + t.map.Size c ≤ p' ∨ p' + t.map.Size c' ≤ p := by
  have hin := h.region hc hp
  have hin' := h.region hc' hp'
  rcases Nat.lt_trichotomy c c' with hlt | rfl | hlt
  · have hle := regionBeg_lt t hlt
    omega
  · exact (Primary.apart_of_laid h.primary.laid h.primary.room hc).apart p hp p' hp' hne
  · have hle := regionBeg_lt t hlt
    omega

/-- Where a large block is. -/
theorem Inv.large {b : Block} (h : s.Inv t) (hb : b ∈ s.secondary_.live) :
    b.map_beg + 4096 ≤ b.res ∧ 0 < LargeMmap.pages b.size ∧ b.res + LargeMmap.pages b.size ≤ b.map_beg + b.map_size ∧
      (b.map_beg + b.map_size ≤ t.kSpaceBeg ∨ t.kSpaceBeg + t.kSpaceSize + 64 * kNumClasses ≤ b.map_beg) :=
  ⟨(h.secondary.placed b hb).header,(h.sized b hb).trans_le (LargeMmap.le_pages b.size),(h.secondary.placed b hb).fits,h.outside b hb⟩

/-- Chunks are apart from mappings. -/
theorem Inv.chunk_large {b : Block} (h : s.Inv t) (hclass : class_id < 256) (hp : p ∈ s.primary_.carved class_id)
    (hb : b ∈ s.secondary_.live) : p + t.map.Size class_id ≤ b.map_beg ∨ b.map_beg + b.map_size ≤ p := by
  have hin := h.region hclass hp
  have hlarge := h.large hb
  have hbeg := le_regionBeg t class_id
  have hend := Template.regionEnd_le (t := t.toTemplate) hclass
  omega

/-- Two blocks do not overlap, and one address has one block. -/
theorem Inv.disjoint (h : s.Inv t) (hp : s.Live t p n) (hp' : s.Live t p' n') :
    p = p' ∧ n = n' ∨ p + n ≤ p' ∨ p' + n' ≤ p := by
  rcases hp with ⟨c,hc,hp,rfl⟩ | ⟨b,hb,rfl,rfl⟩ <;> rcases hp' with ⟨c',hc',hp',rfl⟩ | ⟨b',hb',rfl,rfl⟩
  · by_cases hne : p = p'
    · subst hne
      have hclass := h.carved_class hc hc' (h.carved hp) (h.carved hp')
      exact .inl ⟨rfl,by rw [hclass]⟩
    · exact .inr (h.chunks hc hc' (h.carved hp) (h.carved hp') hne)
  · have hapart := h.chunk_large hc (h.carved hp) hb'
    have hlarge := h.large hb'
    omega
  · have hapart := h.chunk_large hc' (h.carved hp') hb
    have hlarge := h.large hb
    omega
  · have hlarge := h.large hb
    have hlarge' := h.large hb'
    by_cases hne : b = b'
    · rw [hne]
      exact .inl ⟨rfl,rfl⟩
    · have hapart := h.secondary.apart.forall hb hb' hne
      rw [Block.Apart] at hapart
      omega

/-- Which allocator a block is from. -/
theorem Inv.pointerIsMine (h : s.Inv t) (hp : s.Live t p n) : 0 < p ∧
    ((∃ class_id < kNumClasses, p ∈ s.primary_.user class_id ∧ n = t.map.Size class_id ∧
        t.PointerIsMine p = true ∧ t.GetSizeClass p = class_id) ∨
      ∃ b ∈ s.secondary_.live, p = b.res ∧ n = LargeMmap.pages b.size ∧ t.PointerIsMine p = false) := by
  obtain ⟨m,hm,hspace,-⟩ := t.regionBeg_eq
  have hregion := t.kSpaceSize_eq
  rcases hp with ⟨c,hc,hp,rfl⟩ | ⟨b,hb,rfl,rfl⟩
  · have hin := h.region hc (h.carved hp)
    have hsizes := t.Size_bounds hc
    have hsmall : t.kRegionSize ≤ t.regionBeg c := t.kRegionSize_le_regionBeg c
    obtain ⟨o,ho⟩ := Nat.exists_eq_add_of_le hin.1
    have haddress := Template.region_address (t := t.toTemplate) (o := o) (by omega) hc
    refine ⟨by omega,.inl ⟨c,hc,hp,rfl,?_,?_⟩⟩
    · rw [ho]
      exact haddress.2.2.2.2
    · rw [ho]
      exact haddress.2.1
  · have hlarge := h.large hb
    refine ⟨by omega,.inr ⟨b,hb,rfl,rfl,?_⟩⟩
    have hpos : 0 < t.kSpaceSize := by omega
    rw [Template.PointerIsMine, hspace, Nat.mul_div_cancel _ hpos]
    refine beq_false_of_ne fun hdiv => ?_
    have hlow := Nat.mul_div_le b.res t.kSpaceSize
    have hhigh := Nat.lt_mul_div_succ b.res hpos
    rw [hdiv, Nat.mul_comm, ← hspace] at hlow
    rw [hdiv, Nat.mul_comm, Nat.succ_mul, ← hspace] at hhigh
    omega

/-! ## Bytes that are not of a block -/

theorem inNodes_eq_false {nodes : List ℕ} {a : ℕ} : inNodes nodes a = false ↔ ∀ x ∈ nodes, a < x ∨ x + 8 ≤ a := by
  rw [inNodes, List.any_eq_false]
  refine forall₂_congr fun x _ => ?_
  rw [Bool.and_eq_true, decide_eq_true_iff, decide_eq_true_iff]
  omega

theorem inHeaders_eq_false {blocks : List Block} {a : ℕ} :
    inHeaders blocks a = false ↔ ∀ b ∈ blocks, a < LargeMmap.headerOf b ∨ LargeMmap.headerOf b + 40 ≤ a := by
  rw [inHeaders, List.any_eq_false]
  refine forall₂_congr fun b _ => ?_
  rw [Bool.and_eq_true, decide_eq_true_iff, decide_eq_true_iff, LargeMmap.headerOf]
  omega

theorem inMapping_eq_false {a map_size : ℕ} :
    inMapping map_beg map_size a = false ↔ a < map_beg ∨ map_beg + map_size ≤ a := by
  rw [inMapping, Bool.and_eq_false_iff, decide_eq_false_iff_not, decide_eq_false_iff_not]
  omega

/-- The link of a chunk that is not the user's is in no block. -/
theorem Inv.not_inNodes {nodes : List ℕ} {a : ℕ} (h : s.Inv t) (hp : s.Live t p n) (ha : p ≤ a ∧ a < p + n)
    (hnodes : ∀ x ∈ nodes, x ≠ p ∧ ∃ c < 256, x ∈ s.primary_.carved c) : inNodes nodes a = false := by
  rw [inNodes_eq_false]
  intro x hx
  obtain ⟨hne,c,hc,hx⟩ := hnodes x hx
  have hsizes := t.Size_bounds hc
  rcases hp with ⟨c',hc',hp,rfl⟩ | ⟨b,hb,rfl,rfl⟩
  · have happart := h.chunks hc hc' hx (h.carved hp) hne
    omega
  · have hapart := h.chunk_large hc hx hb
    have hlarge := h.large hb
    omega

/-- The headers of large blocks are in no block. -/
theorem Inv.not_inHeaders {a : ℕ} (h : s.Inv t) (hp : s.Live t p n) (ha : p ≤ a ∧ a < p + n) :
    inHeaders s.secondary_.live a = false := by
  rw [inHeaders_eq_false]
  intro b hb
  have hlarge := h.large hb
  have hheader := LargeMmap.headerOf_add (h.secondary.placed b hb)
  rcases hp with ⟨c,hc,hp,rfl⟩ | ⟨b',hb',rfl,rfl⟩
  · have hapart := h.chunk_large hc (h.carved hp) hb
    omega
  · have hlarge' := h.large hb'
    by_cases hne : b = b'
    · subst hne
      omega
    · have hapart := h.secondary.apart.forall hb hb' hne
      rw [Block.Apart] at hapart
      omega

/-- The mapping of a block has the bytes of no other block. -/
theorem Inv.not_inMapping {a : ℕ} {b : Block} (h : s.Inv t) (hp : s.Live t p n) (ha : p ≤ a ∧ a < p + n)
    (hb : b ∈ s.secondary_.live) (hne : p ≠ b.res) : inMapping b.map_beg b.map_size a = false := by
  rw [inMapping_eq_false]
  rcases hp with ⟨c,hc,hp,rfl⟩ | ⟨b',hb',rfl,rfl⟩
  · have hapart := h.chunk_large hc (h.carved hp) hb
    omega
  · have hlarge' := h.large hb'
    have hapart := h.secondary.apart.forall hb hb' fun heq => hne (heq ▸ rfl)
    rw [Block.Apart] at hapart
    omega

end Combined
end CompilerRt.Sanitizer
