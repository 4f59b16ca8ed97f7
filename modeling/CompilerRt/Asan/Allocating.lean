import CompilerRt.Asan.ChunkChange
import CompilerRt.Asan.HandOut
import Mathlib

/-! # Allocation

`Allocate` takes a chunk and hands it out. All blocks that the user has stay as they are.
-/
namespace CompilerRt.AsanAllocator
open Sanitizer AsanMapping
open AsanChunk

variable {flags : Flags} {mmap : ℕ → ℕ} {s s' s₁ : MallocInfo} {L L' L₁ : Layout} {g : Group} {p : Place} {bad : Prop}
  {alignment size rounded_size needed total size_class m x t addr a b c d : ℕ} {new : List Group}

/-! ## What stays -/

/-- The memory and the shadow of an interval stay. -/
structure Same (s s' : MallocInfo) (a b : ℕ) : Prop where
  memory : ∀ c, a ≤ c → c < b → s'.memory c = s.memory c
  shadow : ∀ k, a ≤ 8 * k → 8 * k < b →
    s'.shadow (WordSize.w64.SHADOW_OFFSET + k) = s.shadow (WordSize.w64.SHADOW_OFFSET + k)

namespace Same

theorem refl (s : MallocInfo) (a b : ℕ) : Same s s a b := ⟨fun _ _ _ => rfl,fun _ _ _ => rfl⟩

theorem trans (h : Same s s₁ a b) (h' : Same s₁ s' a b) : Same s s' a b :=
  ⟨fun c ha hb => (h'.memory c ha hb).trans (h.memory c ha hb),
    fun k ha hb => (h'.shadow k ha hb).trans (h.shadow k ha hb)⟩

theorem of_within (h : Within s s' m size) (hap : b ≤ m ∨ m + size ≤ a) : Same s s' a b :=
  ⟨fun c ha hb => h.memory c (by omega),fun k ha hb => h.shadow k (by omega)⟩

end Same

/-- The chunks stay as they are. -/
def Kept (s s' : MallocInfo) (L : Layout) (chunks : List ℕ) : Prop :=
  ∀ x ∈ chunks, ∀ g ∈ L.groups, x ∈ g.chunks → Same s s' x (x + g.size)

theorem Kept.refl (s : MallocInfo) (L : Layout) (l : List ℕ) : Kept s s L l := fun x _ g _ _ => Same.refl s x (x + g.size)

theorem Kept.of_eq {l : List ℕ} (h : Kept s s₁ L l) (hmem : s'.memory = s₁.memory) (hsh : s'.shadow = s₁.shadow) :
    Kept s s' L l := fun x hx g hg hxg =>
  ⟨hmem ▸ (h x hx g hg hxg).memory,hsh ▸ (h x hx g hg hxg).shadow⟩

theorem Kept.trans {l : List ℕ} (h : Kept s s₁ L l) (h' : Kept s₁ s' L₁ l) (hgroups : L₁.groups = L.groups ++ new) :
    Kept s s' L l := fun x hx g hg hxg =>
  (h x hx g hg hxg).trans (h' x hx g (hgroups ▸ List.mem_append_left _ hg) hxg)

theorem Grows.new_apart (h : Grows new s s' L L') (hc' : Core flags s' L') {g' : Group} (hg : g ∈ L.groups) (hg' : g' ∈ new) :
    g.end_ ≤ g'.beg ∨ g'.end_ ≤ g.beg := by
  have hap := hc'.apart
  rw [h.groups, List.pairwise_append] at hap
  exact hap.2.2 g hg g' hg'

theorem Grows.kept (h : Grows new s s' L L') (hc : Core flags s L) (hc' : Core flags s' L')
    (hp : p.state ≠ CHUNK_AVAILABLE) : Kept s s' L (L.held p) := by
  intro x hx g hg hxg
  have hr := hc.chunk_range hg hxg
  refine ⟨fun a ha hlt => h.memory a (fun g' hg' => ?_) fun q y hq hy => ?_,fun k ha hlt => h.shadow k fun g' hg' => ?_⟩
  · have hap := h.new_apart hc' hg hg'
    omega
  · have hne : x ≠ y := by
      rintro rfl
      exact hp (hc.spread.disjoint p q x hx hy ▸ hq)
    obtain ⟨g',hg',hyg⟩ := hc.group_of hy
    have hap := hc.chunks_apart hg hg' hxg hyg hne
    have hsize := hc.le_size hg'
    omega
  · have hap := h.new_apart hc' hg hg'
    omega

/-! ## The call -/

/-- What a call that returns a block has done. -/
structure Allocated (flags : Flags) (s s' : MallocInfo) (L L' : Layout) (alignment size addr : ℕ) : Prop where
  core : Core flags s' L'
  lists : Lists s' L'
  taken : L'.held .taken = []
  groups : ∃ new, L'.groups = L.groups ++ new ∧ s'.page_groups_ = s.page_groups_ ++ new.map Group.pg
  sorted : s'.n_sorted_page_groups_ = s.n_sorted_page_groups_
  user : ∃ m, L'.held .user = m :: L.held .user ∧ Beg s'.memory m = some addr ∧ get s'.memory m .used_size = size
  kept : Kept s s' L (L.held .user)
  held : ∀ p, p.state = CHUNK_QUARANTINE → L'.held p = L.held p
  threads : ∀ t, (s'.threads t).isSome = (s.threads t).isSome
  cached : ∀ t c, s.threads t = none → L'.held (.cached t c) = L.held (.cached t c)
  asked : alignment ≠ 0 → alignment ∣ addr
  ne_zero : addr ≠ 0
  filled : size ≤ flags.max_malloc_fill_size → ∀ a, addr ≤ a → a < addr + size → s'.memory a = 0

theorem Flags.dvd_page (hred : flags.redzone ≤ 4096) : flags.redzone ∣ 4096 := by
  obtain ⟨j,-,-,hr⟩ := flags.redzone_pow
  rw [hr] at hred ⊢
  exact Nat.pow_dvd_pow 2 ((Nat.pow_le_pow_iff_right (by decide : 1 < 2)).mp (show 2^j ≤ 2^12 from hred))

theorem Core.dvd (h : Core flags s L) (hred : flags.redzone ≤ 4096) (hm : m ∈ L.held p) : flags.redzone ∣ m := by
  obtain ⟨g,hg,hmg⟩ := h.group_of hm
  exact Group.dvd_of_mem hmg (h.used g hg) ((Flags.dvd_page hred).trans (h.mapped g hg).2.1)

theorem Core.inOneRange (h : Core flags s L) (hg : g ∈ L.groups) (hmg : m ∈ g.chunks) :
    WordSize.w64.InOneRange m (m + g.size) := by
  have hr := h.chunk_range hg hmg
  exact inOneRange_sub (h.mapped g hg).2.2 hr.1 (Nat.le_add_right _ _) (by omega)

/-- The class that is found has room for what is needed. -/
theorem Needed.used (h : Needed flags alignment size rounded_size needed) (hpos : 1 ≤ size)
    (hred : flags.redzone ≤ 4096) (hround : RoundedTo needed total) (hclass : size_class < 255)
    (heq : SizeClassToSize size_class = some total) : Used flags size_class total ∧ flags.redzone ∣ total := by
  have hn := h.needed
  have hr := h.rounded
  have hup := le_roundedUp flags.pos size
  have hwhole : flags.redzone ≤ rounded_size := Nat.le_of_dvd (by omega) (hr ▸ dvd_roundedUp _ _)
  have hle := hround.1
  have htwo : 2 * flags.redzone ≤ total := by omega
  refine ⟨⟨hclass,heq,htwo⟩,?_⟩
  rcases hround.2 with ⟨k,-,rfl,-⟩ | ⟨-,hdvd,-⟩
  · obtain ⟨j,-,-,hj⟩ := flags.redzone_pow
    rw [hj] at htwo ⊢
    have hle : 2^j ≤ 2^k := by omega
    exact Nat.pow_dvd_pow 2 ((Nat.pow_le_pow_iff_right (by decide)).mp hle)
  · exact (Flags.dvd_page hred).trans (Dvd.dvd.trans (by decide) hdvd)

/-- The chunk that was taken is handed out. -/
theorem TookOne.handOut {stack : StackTrace 64} (h : TookOne flags size_class s s₁ L L₁ m) (hc : Core flags s L)
    (hred : flags.redzone ≤ 4096) (hneeded : Needed flags alignment size rounded_size needed) (hpos : 1 ≤ size)
    (hsize : size ≤ kMaxAllowedMallocSize) (hlog : ¬bad → alignment < 2^31) (hfits : needed ≤ total)
    (heq : SizeClassToSize size_class = some total) :
    Runs bad (s₁.finish flags t m alignment size rounded_size total stack) fun r =>
      ∃ L', Allocated flags s r.2 L L' alignment size r.1 := by
  have hm : m ∈ L₁.held .taken := h.taken ▸ List.mem_cons_self
  obtain ⟨g,hg,hmg,hok⟩ := h.core.ok hm
  have hgsize : g.size = total := by rw [Group.size, ← h.isOf g hg hmg, heq, Option.getD_some]
  have hrange := h.core.inOneRange hg hmg
  have hdvd := h.core.dvd hred hm
  have hsize₁ := h.core.size_eq hm hg hmg
  rw [← hgsize] at hfits ⊢
  refine (finish_runs (h.core.ne_zero hm) hdvd hneeded hpos hsize hlog hfits hsize₁ hok hrange).mono fun r hr => ?_
  obtain ⟨addr,s'⟩ := r
  dsimp only at hr ⊢
  have hwithin : Within s₁ s' m g.size := ⟨hr.memory,hr.shadow⟩
  have hpages : s'.page_groups_ = s₁.page_groups_ := by rw [hr.rest]
  have hnot : ∀ p, p ≠ .taken → m ∉ L₁.held p := fun p hp hmp => hp (h.core.spread.disjoint p .taken m hmp hm)
  have hperm : ([] ++ m :: L₁.held .user).Perm (L₁.held .taken ++ L₁.held .user) := by rw [h.taken]; rfl
  have hcore := h.core.change hpages hg hmg hm (j := .user) (by simp) hwithin hr.ok hperm List.mem_cons_self
    (fun x hx => absurd hx List.not_mem_nil) fun x hx => List.mem_cons.mp hx
  have hother : ∀ p, p ≠ .taken → p ≠ .user →
      Function.update (Function.update L₁.held .taken []) .user (m :: L₁.held .user) p = L₁.held p := by
    intro p hpt hpu
    rw [Function.update_of_ne hpu, Function.update_of_ne hpt]
  obtain ⟨new,hgrows⟩ := h.grows
  have huser : L₁.held .user = L.held .user := hgrows.held .user (by decide)
  refine ⟨_,hcore,fun p => ?_,?_,⟨new,hgrows.groups,hpages.trans hgrows.pages⟩,?_,⟨m,?_,hr.beg,hr.used⟩,?_,fun p hp => ?_,fun t => ?_,fun t c hnone => ?_,
    hr.asked,?_,hr.filled⟩
  · by_cases hpu : p = .user
    · subst hpu
      trivial
    · by_cases hpt : p = .taken
      · subst hpt
        trivial
      · dsimp only
        rw [hother p hpt hpu]
        exact (h.lists p).change h.core (.of_eq (by rw [hr.rest]) (by rw [hr.rest]) (by rw [hr.rest]) p) hg hmg hwithin
          (hnot p hpt)
  · dsimp only
    rw [Function.update_of_ne (by decide), Function.update_self]
  · rw [hr.rest]
    exact hgrows.sorted
  · dsimp only
    rw [Function.update_self, huser]
  · have hkept : Kept s s₁ L (L.held .user) := hgrows.kept hc h.core (by decide)
    refine hkept.trans (fun x hx g' hg' hxg => Same.of_within hwithin ?_) hgrows.groups
    refine h.core.chunks_apart hg' hg hxg hmg ?_
    rintro rfl
    exact hnot .user (by decide) (huser ▸ hx)
  · dsimp only
    rw [hother p (by rintro rfl; exact absurd hp (by decide)) (by rintro rfl; exact absurd hp (by decide)),
      hgrows.held p (by rw [hp]; decide)]
  · rw [hr.rest]
    exact h.threads t
  · dsimp only
    rw [hother _ (by simp) (by simp)]
    exact h.cached t c hnone
  · obtain ⟨addr',hb,hlt,-⟩ := hr.ok.headed
    have haddr : addr = addr' := Option.some.inj (hr.beg.symm.trans hb)
    omega

theorem allocate_runs (t size : ℕ) (stack : StackTrace 64) (mmap : ℕ → ℕ) (hc : Core flags s L) (hl : Lists s L) (htaken : L.held .taken = [])
    (hred : flags.redzone ≤ 4096) (halignment : alignment < 2^64) (hpow : ¬bad → IsPowerOfTwo alignment)
    (hlog : ¬bad → alignment < 2^31) (hroom : ¬bad → s.page_groups_.length < kMaxAvailableRam / kMinMmapSize) :
    Runs bad (s.Allocate flags mmap t alignment size stack) fun r =>
      r = (0,s) ∨ ∃ L', Allocated flags s r.2 L L' alignment (max size 1) r.1 := by
  have hone : (if size = 0 then 1 else size) = max size 1 := by
    split_ifs with h0
    · rw [h0]
      rfl
    · exact (max_eq_left (Nat.one_le_iff_ne_zero.mpr h0)).symm
  have hpos : 1 ≤ max size 1 := le_max_right _ _
  rw [MallocInfo.Allocate]
  dsimp only
  rw [hone]
  generalize max size 1 = size at hpos ⊢
  refine (neededSize_runs halignment hpow).bind fun r hneeded => ?_
  obtain ⟨rounded_size,needed⟩ := r
  dsimp only at hneeded ⊢
  split_ifs with hrefused
  · exact Runs.ok (.inl rfl)
  · rw [not_or, not_lt, not_lt] at hrefused
    have hn := hneeded hrefused.1 hrefused.2
    have hpos' : 0 < needed := by
      have hsum := hn.needed
      have hred0 := flags.pos
      omega
    obtain ⟨size_class,total,hclass,hlt,htotal,hround⟩ := sizeToSizeClass_spec hpos' hrefused.2
    obtain ⟨hused,hdvd⟩ := hn.used hpos hred hround hlt htotal
    have htwo : total ≥ MallocInfo.kMinAllocSize flags := by
      have hle := hused.redzones
      rw [MallocInfo.kMinAllocSize]
      omega
    simp only [hclass, htotal, checked_some, ok_bind, CHECK_of htwo, CHECK_of hround.1,
      CHECK_of ((isAligned_redzone flags total).mpr hdvd)]
    refine (takeChunk_runs hc hl htaken hused hroom).bind fun r hr => ?_
    obtain ⟨L₁,h⟩ := hr
    exact (h.handOut hc hred hn hpos hrefused.1 hlog hround.1 htotal).mono fun r hr => .inr hr

end CompilerRt.AsanAllocator
