import CompilerRt.Asan.Allocating
import CompilerRt.Lib.BoundedQueue
import Mathlib

/-! # The quarantine

Freed chunks wait in the list of their thread and then in the quarantine, and the oldest go back to the free lists once the
quarantine is too large.
-/
namespace CompilerRt.AsanAllocator
open Sanitizer AsanMapping
open AsanChunk

variable {flags : Flags} {s s' s₁ : MallocInfo} {L L' L₁ : Layout} {g : Group} {p : Place} {m n t fuel : ℕ} {rest l : List ℕ}
  {shadow : Shadow} {value : BitVec 8}

/-- Chunks keep their groups, and those of the user stay as they are. -/
structure Shifted (flags : Flags) (s s' : MallocInfo) (L L' : Layout) : Prop where
  core : Core flags s' L'
  lists : Lists s' L'
  groups : L'.groups = L.groups
  pages : s'.page_groups_ = s.page_groups_ ∧ s'.n_sorted_page_groups_ = s.n_sorted_page_groups_
  kept : Kept s s' L (L.held .user)
  user : L'.held .user = L.held .user
  taken : L'.held .taken = L.held .taken
  threads : ∀ t, (s'.threads t).isSome = (s.threads t).isSome

namespace Shifted

theorem refl (hc : Core flags s L) (hl : Lists s L) : Shifted flags s s L L :=
  ⟨hc,hl,rfl,⟨rfl,rfl⟩,Kept.refl s L _,rfl,rfl,fun _ => rfl⟩

theorem trans (h : Shifted flags s s₁ L L₁) (h' : Shifted flags s₁ s' L₁ L') : Shifted flags s s' L L' where
  core := h'.core
  lists := h'.lists
  groups := h'.groups.trans h.groups
  pages := ⟨h'.pages.1.trans h.pages.1,h'.pages.2.trans h.pages.2⟩
  kept := h.kept.trans (h.user ▸ h'.kept) (h.groups.trans (List.append_nil _).symm)
  user := h'.user.trans h.user
  taken := h'.taken.trans h.taken
  threads := fun t => (h'.threads t).trans (h.threads t)

end Shifted

/-- A whole chunk is poisoned. -/
theorem poison_chunk (hc : Core flags s L) (hg : g ∈ L.groups) (hmg : m ∈ g.chunks) (hred : flags.redzone ≤ 4096)
    (hm : m ∈ L.held p) (value : BitVec 8) (hvalue : value.toInt < 0) :
    ∃ shadow', PoisonShadow .w64 s.shadow m g.size value = some shadow' ∧ Negative shadow' m (m + g.size) ∧
      ∀ k, 8 * k < m ∨ m + g.size ≤ 8 * k →
        shadow' (WordSize.w64.SHADOW_OFFSET + k) = s.shadow (WordSize.w64.SHADOW_OFFSET + k) := by
  have h8m : 8 ∣ m := (Dvd.dvd.trans (by decide) flags.le_redzone.2).trans (hc.dvd hred hm)
  have h8 : 8 ∣ g.size := by
    rcases (hc.used g hg).shape with ⟨k,hk,-,heq⟩ | ⟨-,hdvd,-⟩
    · rw [heq]
      exact Nat.pow_dvd_pow 2 (show 3 ≤ k by omega)
    · exact Dvd.dvd.trans (by decide) hdvd
  refine ⟨_,poisonShadow_range _ _ h8m h8 (hc.inOneRange hg hmg),negative_memset h8m h8 hvalue,fun k hk => ?_⟩
  rw [memset_granule h8m h8, if_neg (by omega)]

/-- The layout once the first chunk of the quarantine is free. -/
def Layout.release (L : Layout) (g : Group) (m : ℕ) (rest : List ℕ) : Layout where
  groups := L.groups
  held := Function.update (Function.update L.held .quarantine rest) (.free g.size_class)
    (m :: L.held (.free g.size_class))

theorem quarantinePop_ok (hc : Core flags s L) (hl : Lists s L) (hred : flags.redzone ≤ 4096)
    (hq : L.held .quarantine = m :: rest) : ∃ s' g, s.QuarantinePop = .ok s' ∧ g ∈ L.groups ∧ m ∈ g.chunks ∧
      Shifted flags s s' L (L.release g m rest) ∧ s'.threads = s.threads := by
  have hm : m ∈ L.held .quarantine := hq ▸ List.mem_cons_self
  obtain ⟨g,hg,hmg,hok⟩ := hc.ok hm
  have hfifo : Fifo s.memory s.quarantine_ (m :: rest) := hq ▸ hl .quarantine
  have hsize := hc.size_eq hm hg hmg
  obtain ⟨q,hpop,hfifo'⟩ := hfifo.pop hsize
  have hm0 := hc.ne_zero hm
  have hstate : get s.memory m .chunk_state = CHUNK_QUARANTINE := hok.state
  have hpositive : s.quarantine_.size_ > 0 := by
    have hle := hc.le_size hg
    rw [hfifo.size, List.map_cons, List.sum_cons, hsize, Option.getD_some]
    omega
  obtain ⟨shadow',hshadow,hneg,hout⟩ := poison_chunk hc hg hmg hred hm kAsanHeapLeftRedzoneMagic (by decide)
  have hsize₁ : Size (set s.memory m .chunk_state CHUNK_AVAILABLE) m = some g.size := by
    rw [Size, get_set_of_ne (by decide)]
    exact hsize
  have hclass : get (set s.memory m .chunk_state CHUNK_AVAILABLE) m .size_class = g.size_class := by
    rw [get_set_of_ne (by decide), hok.size_class]
  have hfree : Chain (nextOf s.memory) (s.free_lists_ g.size_class) (L.held (.free g.size_class)) :=
    hl (.free g.size_class)
  generalize hs' : ({ s with
    memory := set (set s.memory m .chunk_state CHUNK_AVAILABLE) m .next (s.free_lists_ g.size_class)
    shadow := shadow'
    free_lists_ := Function.update s.free_lists_ g.size_class m
    quarantine_ := q } : MallocInfo) = s'
  have hmem' : s'.memory = set (set s.memory m .chunk_state CHUNK_AVAILABLE) m .next (s.free_lists_ g.size_class) := by
    rw [← hs']
  have hword : s.free_lists_ g.size_class < 256^8 := by
    by_cases hzero : s.free_lists_ g.size_class = 0
    · rw [hzero]
      decide
    · obtain ⟨l',hl',-⟩ := hfree.tail hzero
      have hlt := hc.lt_word (p := .free g.size_class) (m := s.free_lists_ g.size_class) (hl' ▸ List.mem_cons_self)
      omega
  have hwithin : Within s s' m g.size := by
    refine ⟨fun a ha => ?_,fun k hk => ?_⟩
    · have hle := hc.le_size hg
      have h1 := Field.le_bytes .chunk_state
      have h2 := Field.le_bytes .next
      rw [hmem', set_outside (by omega), set_outside (by omega)]
    · rw [← hs']
      exact hout k hk
  have hkeep : ∀ f, f ≠ .chunk_state → f ≠ .next → get s'.memory m f = get s.memory m f := by
    intro f h1 h2
    rw [hmem', get_set_of_ne h2, get_set_of_ne h1]
  have hok' : ChunkOk flags s'.memory s'.shadow g (.free g.size_class) m := by
    refine ⟨?_,?_,fun c hcl => (Option.some.inj hcl).symm,?_,by simp,fun _ => ?_⟩
    · rw [hmem', get_set_of_ne (by decide), get_set (by decide)]
      rfl
    · rw [hkeep _ (by decide) (by decide), hok.size_class]
    · rw [Beg, hkeep _ (by decide) (by decide), hkeep _ (by decide) (by decide)]
      exact hok.headed
    · rw [← hs']
      exact hneg
  have hperm : (rest ++ m :: L.held (.free g.size_class)).Perm (L.held .quarantine ++ L.held (.free g.size_class)) := by
    rw [hq, List.cons_append]
    exact List.perm_middle
  have hpages : s'.page_groups_ = s.page_groups_ := by rw [← hs']
  have hcore := hc.change hpages hg hmg hm (j := .free g.size_class) (by simp) hwithin hok' hperm List.mem_cons_self
    (fun x hx => hq ▸ List.mem_cons_of_mem m hx) fun x hx => List.mem_cons.mp hx
  have hnot : ∀ p, p ≠ .quarantine → m ∉ L.held p := fun p hp hmp => hp (hc.spread.disjoint p .quarantine m hmp hm)
  have hother : ∀ p, p ≠ .quarantine → p ≠ .free g.size_class → (L.release g m rest).held p = L.held p := by
    intro p hpq hpf
    rw [Layout.release]
    dsimp only
    rw [Function.update_of_ne hpf, Function.update_of_ne hpq]
  have hrest : m ∉ rest := (List.nodup_cons.mp (hq ▸ hc.spread.nodup .quarantine)).1
  refine ⟨s',g,?_,hg,hmg,⟨hcore,fun p => ?_,rfl,⟨hpages,by rw [← hs']⟩,fun x hx g' hg' hxg => ?_,hother .user (by decide) (by simp),
    hother .taken (by decide) (by simp),fun t => by rw [← hs']⟩,by rw [← hs']⟩
  · rw [MallocInfo.QuarantinePop, hpop]
    simp only [CHECK_of, hpositive, hm0, hstate, ne_eq, not_false_eq_true, ok_bind, hsize₁, checked_some, hshadow, hclass,
      pure_eq_ok, hs']
  · by_cases hpf : p = .free g.size_class
    · subst hpf
      have hhead : s'.free_lists_ g.size_class = m := by
        rw [← hs']
        exact Function.update_self ..
      have hnext : nextOf s'.memory m = s.free_lists_ g.size_class := by rw [nextOf, hmem', get_set hword]
      rw [ListAt, hhead, Layout.release]
      dsimp only
      rw [Function.update_self]
      refine (hfree.congr fun x hx => ?_).cons hm0 hnext
      exact hc.other_get hg hmg hwithin (ne_of_mem_of_not_mem hx (hnot _ (by simp))) hx .next
    · by_cases hpq : p = .quarantine
      · subst hpq
        have hqueue : s'.quarantine_ = q := by rw [← hs']
        have hget : ∀ x ∈ rest, ∀ f, get s'.memory x f = get s.memory x f := fun x hx =>
          hc.other_get hg hmg hwithin (ne_of_mem_of_not_mem hx hrest) (hq ▸ List.mem_cons_of_mem m hx)
        rw [ListAt, hqueue, Layout.release]
        dsimp only
        rw [Function.update_of_ne (by simp), Function.update_self]
        exact hfifo'.congr (fun x hx => hget x hx .next) fun x hx => by rw [Size, Size, hget x hx]
      · rw [hother p hpq hpf]
        refine (hl p).change hc ?_ hg hmg hwithin (hnot p hpq)
        rw [← hs']
        cases p with
        | free c => exact Function.update_of_ne (fun hcc => hpf (by rw [hcc])) _ _
        | cached t c => exact fun x hx => ⟨x,hx,rfl⟩
        | waiting t => exact fun x hx => ⟨x,hx,rfl⟩
        | quarantine => exact absurd rfl hpq
        | taken => trivial
        | user => trivial
  · refine Same.of_within hwithin (hc.chunks_apart hg' hg hxg hmg ?_)
    rintro rfl
    exact hnot .user (by decide) hx

/-- No list is longer than there are addresses. -/
theorem Core.length_lt (h : Core flags s L) (p : Place) : (L.held p).length < MallocInfo.kMaxRounds := by
  have hsub : L.held p ⊆ List.range (2^63) := fun x hx => List.mem_range.mpr (h.lt_word hx)
  have hle := (h.spread.nodup p).length_le_of_subset hsub
  rw [List.length_range] at hle
  exact lt_of_le_of_lt hle (by decide)

/-- Chunks pass the quarantine in their order, and leave it only where it is too large. -/
def Layout.Passes (flags : Flags) (L L' : Layout) : Prop :=
  ∀ size, (∀ g ∈ L'.groups, ∀ m ∈ g.chunks, size m = g.size) →
    Passed flags.quarantine_size.toNat size (L.held .quarantine) (L'.held .quarantine)

theorem Layout.Passes.of_eq (h : L'.held .quarantine = L.held .quarantine) : L.Passes flags L' :=
  fun _ _ => h.symm ▸ Passed.refl (L.held .quarantine)

theorem Layout.Passes.trans (h : L.Passes flags L₁) (h' : L₁.Passes flags L') (hgroups : ∀ g ∈ L₁.groups, g ∈ L'.groups) :
    L.Passes flags L' :=
  fun size hsize => (h size fun g hg => hsize g (hgroups g hg)).trans (h' size hsize)

/-- The quarantine once it is small enough: the oldest chunks have left. -/
structure Shrunk (flags : Flags) (s s' : MallocInfo) (L L' : Layout) : Prop where
  shifted : Shifted flags s s' L L'
  small : s'.quarantine_.size_ ≤ flags.quarantine_size.toNat
  passes : L.Passes flags L'
  held : ∀ p, p ≠ .quarantine → (∀ c, p ≠ .free c) → L'.held p = L.held p
  threads : s'.threads = s.threads

theorem shrink_ok (hred : flags.redzone ≤ 4096) (hc : Core flags s L) (hl : Lists s L)
    (hfuel : (L.held .quarantine).length < fuel) :
    ∃ s' L', MallocInfo.shrink flags fuel s = .ok s' ∧ Shrunk flags s s' L L' := by
  induction fuel generalizing s L with
  | zero => exact absurd hfuel (Nat.not_lt_zero _)
  | succ fuel ih =>
    rw [MallocInfo.shrink]
    split_ifs with hlarge
    · have hfifo : Fifo s.memory s.quarantine_ (L.held .quarantine) := hl .quarantine
      obtain ⟨m,rest,hq⟩ := List.exists_cons_of_ne_nil (hfifo.ne_nil (by omega))
      obtain ⟨s₁,g,hpop,hg,hmg,hshift,hthreads⟩ := quarantinePop_ok hc hl hred hq
      have hrest : (L.release g m rest).held .quarantine = rest := by
        rw [Layout.release]
        dsimp only
        rw [Function.update_of_ne (by simp), Function.update_self]
      obtain ⟨s',L',hrun,h⟩ := ih hshift.core hshift.lists (by
        rw [hrest]
        rw [hq, List.length_cons] at hfuel
        omega)
      have hpasses : L.Passes flags (L.release g m rest) := by
        intro size hsize
        have hsum := hfifo.size
        have heq : (L.held .quarantine).map (fun m => (Size s.memory m).getD 0) = (L.held .quarantine).map size := by
          refine List.map_congr_left fun m hm => ?_
          obtain ⟨g,hg,hmg⟩ := hc.group_of hm
          rw [hc.size_eq hm hg hmg, Option.getD_some, hsize g hg m hmg]
        rw [hrest, hq]
        rw [heq, hq] at hsum
        exact Passed.pop (hsum ▸ hlarge)
      refine ⟨s',L',?_,hshift.trans h.shifted,h.small,hpasses.trans h.passes fun _ hg => h.shifted.groups.symm ▸ hg,fun p hp hpf => ?_,
        h.threads.trans hthreads⟩
      · rw [hpop, ok_bind, hrun]
      · rw [h.held p hp hpf, Layout.release]
        dsimp only
        rw [Function.update_of_ne (hpf _), Function.update_of_ne hp]
    · exact ⟨s,L,rfl,Shifted.refl hc hl,not_lt.mp hlarge,Layout.Passes.of_eq rfl,fun _ _ _ => rfl,rfl⟩

end CompilerRt.AsanAllocator
