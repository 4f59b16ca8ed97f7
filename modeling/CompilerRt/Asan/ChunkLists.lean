import CompilerRt.Asan.HeapLayout
import Mathlib

/-! # The lists in the memory

The links of chunks are in their headers. Chunks do not overlap, so that the link of one chunk is changed without any
other list or header.
-/
namespace CompilerRt.AsanAllocator
open Sanitizer AsanMapping
open AsanChunk

abbrev nextOf (mem : FlatMemory) (m : ℕ) : ℕ := get mem m .next

/-- A queue with the chunks that are in it. -/
structure Fifo (mem : FlatMemory) (q : AsanChunkFifoList) (l : List ℕ) : Prop where
  chain : Chain (nextOf mem) q.first_ l
  last : q.last_ = l.getLastD 0
  size : q.size_ = (l.map fun m => (Size mem m).getD 0).sum

/-- The list of a place; threads that are gone have none. -/
def ListAt (s : MallocInfo) (l : List ℕ) : Place → Prop
  | .free c => Chain (nextOf s.memory) (s.free_lists_ c) l
  | .cached t c => ∀ x, s.threads t = some x → Chain (nextOf s.memory) (x.free_lists_ c) l
  | .waiting t => ∀ x, s.threads t = some x → Fifo s.memory x.quarantine_ l
  | .quarantine => Fifo s.memory s.quarantine_ l
  | .taken | .user => True

/-- The lists of the allocator and of the threads. -/
def Lists (s : MallocInfo) (L : Layout) : Prop := ∀ p, ListAt s (L.held p) p

/-- The pointers to the list of a place are the same. -/
def SameHead (s s' : MallocInfo) : Place → Prop
  | .free c => s'.free_lists_ c = s.free_lists_ c
  | .cached t c => ∀ x', s'.threads t = some x' → ∃ x, s.threads t = some x ∧ x'.free_lists_ c = x.free_lists_ c
  | .waiting t => ∀ x', s'.threads t = some x' → ∃ x, s.threads t = some x ∧ x'.quarantine_ = x.quarantine_
  | .quarantine => s'.quarantine_ = s.quarantine_
  | .taken | .user => True

/-- Only links of these chunks are changed. -/
def LinksOnly (l : List ℕ) (mem mem' : FlatMemory) : Prop :=
  ∀ a, (∀ x ∈ l, a < x + 16 ∨ x + 24 ≤ a) → mem' a = mem a

variable {flags : Flags} {s : MallocInfo} {L : Layout} {p p' : Place} {m m' n : ℕ} {g g' : Group} {mem mem' : FlatMemory}
  {l l' : List ℕ}

namespace LinksOnly

theorem refl : LinksOnly l mem mem := fun _ _ => rfl

theorem trans {mem'' : FlatMemory} (h : LinksOnly l mem mem') (h' : LinksOnly l mem' mem'') : LinksOnly l mem mem'' :=
  fun a ha => (h' a ha).trans (h a ha)

theorem mono (h : LinksOnly l mem mem') (hl : ∀ x ∈ l, x ∈ l') : LinksOnly l' mem mem' :=
  fun a ha => h a fun x hx => ha x (hl x hx)

theorem set (hm : m ∈ l) (v : ℕ) : LinksOnly l mem (AsanChunk.set mem m .next v) := by
  intro a ha
  have hoff : Field.offset .next = 16 := rfl
  have hbytes : Field.bytes .next = 8 := rfl
  exact set_outside (by have hx := ha m hm; omega)

end LinksOnly

/-- All pointers are the same. -/
theorem SameHead.of_eq {s' : MallocInfo} (hfree : s'.free_lists_ = s.free_lists_) (hq : s'.quarantine_ = s.quarantine_)
    (hthreads : s'.threads = s.threads) (p : Place) : SameHead s s' p := by
  cases p with
  | free c => exact congrFun hfree c
  | cached t c => exact fun x hx => ⟨x,hthreads ▸ hx,rfl⟩
  | waiting t => exact fun x hx => ⟨x,hthreads ▸ hx,rfl⟩
  | quarantine => exact hq
  | taken => trivial
  | user => trivial

namespace Core

theorem group_of (h : Core flags s L) (hm : m ∈ L.held p) : ∃ g ∈ L.groups, m ∈ g.chunks :=
  List.mem_flatMap.mp (h.spread.mem hm)

theorem groups_apart (h : Core flags s L) (hg : g ∈ L.groups) (hg' : g' ∈ L.groups) (hne : g ≠ g') :
    g.end_ ≤ g'.beg ∨ g'.end_ ≤ g.beg := by
  have hsymm : Std.Symm fun g g' : Group => g.end_ ≤ g'.beg ∨ g'.end_ ≤ g.beg := ⟨fun _ _ hxy => Or.symm hxy⟩
  exact h.apart.forall hg hg' hne

theorem le_size (h : Core flags s L) (hg : g ∈ L.groups) : 32 ≤ g.size := by
  have hred := flags.le_redzone.1
  have htwo := (h.used g hg).redzones
  omega

/-- The structure behind the chunks is in the pages. -/
theorem page_le (h : Core flags s L) (hg : g ∈ L.groups) : g.beg ≤ g.pg ∧ g.pg + 32 ≤ g.end_ := by
  have hfits := (h.used g hg).groupSizes.1.fits
  rw [Group.pg, Group.end_, Group.n_chunks, Group.mmap_size]
  omega

theorem chunk_range (h : Core flags s L) (hg : g ∈ L.groups) (hm : m ∈ g.chunks) :
    g.beg ≤ m ∧ m + g.size ≤ g.pg ∧ g.pg + 32 ≤ g.end_ := by
  have hle := Group.le_of_mem hm
  have hpage := h.page_le hg
  exact ⟨hle.1,hle.2,hpage.2⟩

theorem group_unique (h : Core flags s L) (hg : g ∈ L.groups) (hg' : g' ∈ L.groups) (hm : m ∈ g.chunks)
    (hm' : m ∈ g'.chunks) : g = g' := by
  by_contra hne
  have hr := h.chunk_range hg hm
  have hr' := h.chunk_range hg' hm'
  have hpos := h.le_size hg
  rcases h.groups_apart hg hg' hne with hlt | hlt
  · omega
  · omega

theorem chunks_apart (h : Core flags s L) (hg : g ∈ L.groups) (hg' : g' ∈ L.groups) (hm : m ∈ g.chunks)
    (hm' : m' ∈ g'.chunks) (hne : m ≠ m') : m + g.size ≤ m' ∨ m' + g'.size ≤ m := by
  by_cases heq : g = g'
  · subst heq
    exact Group.chunks_apart hm hm' hne
  · have hr := h.chunk_range hg hm
    have hr' := h.chunk_range hg' hm'
    rcases h.groups_apart hg hg' heq with hlt | hlt
    · omega
    · omega

theorem page_apart (h : Core flags s L) (hg : g ∈ L.groups) (hg' : g' ∈ L.groups) (hm : m ∈ g.chunks) :
    m + g.size ≤ g'.pg ∨ g'.pg + 32 ≤ m := by
  have hr := h.chunk_range hg hm
  by_cases heq : g = g'
  · subst heq
    exact .inl hr.2.1
  · have hpage := h.page_le hg'
    rcases h.groups_apart hg hg' heq with hlt | hlt
    · omega
    · omega

theorem ne_zero (h : Core flags s L) (hm : m ∈ L.held p) : m ≠ 0 := by
  obtain ⟨g,hg,hmg⟩ := h.group_of hm
  have hr := h.chunk_range hg hmg
  have hbeg := (h.mapped g hg).1
  omega

theorem headers_apart (h : Core flags s L) (hm : m ∈ L.held p) (hm' : m' ∈ L.held p') (hne : m ≠ m') :
    m + 24 ≤ m' ∨ m' + 24 ≤ m := by
  obtain ⟨g,hg,hmg⟩ := h.group_of hm
  obtain ⟨g',hg',hmg'⟩ := h.group_of hm'
  have hpos := h.le_size hg
  have hpos' := h.le_size hg'
  rcases h.chunks_apart hg hg' hmg hmg' hne with hlt | hlt
  · omega
  · omega

/-- A chunk at its place. -/
theorem ok (h : Core flags s L) (hm : m ∈ L.held p) : ∃ g ∈ L.groups, m ∈ g.chunks ∧
    ChunkOk flags s.memory s.shadow g p m := by
  obtain ⟨g,hg,hmg⟩ := h.group_of hm
  exact ⟨g,hg,hmg,h.chunk g hg m hmg p hm⟩

theorem state_eq (h : Core flags s L) (hm : m ∈ L.held p) : get s.memory m .chunk_state = p.state := by
  obtain ⟨g,-,-,hok⟩ := h.ok hm
  exact hok.state

theorem size_eq (h : Core flags s L) (hm : m ∈ L.held p) (hg : g ∈ L.groups) (hmg : m ∈ g.chunks) :
    Size s.memory m = some g.size := by
  rw [Size, (h.chunk g hg m hmg p hm).size_class]
  exact (h.used g hg).size_eq

/-- Links of chunks that the user does not have can be changed. -/
theorem setLinks (h : Core flags s L) (hl : ∀ x ∈ l, ∃ p ≠ .user, x ∈ L.held p) (hmem : LinksOnly l s.memory mem') :
    Core flags { s with memory := mem' } L where
  pages := h.pages
  used := h.used
  mapped := h.mapped
  page := fun g hg => by
    refine (page_congr fun a ha hlt => hmem a fun x hx => ?_).trans (h.page g hg)
    obtain ⟨p,-,hxp⟩ := hl x hx
    obtain ⟨g',hg',hxg'⟩ := h.group_of hxp
    have hsize := h.le_size hg'
    rcases h.page_apart hg' hg hxg' with hap | hap
    · omega
    · omega
  tail := h.tail
  apart := h.apart
  spread := h.spread
  chunk := fun g hg m hm p hp => by
    have hother : ∀ x ∈ l, x ≠ m → x + 24 ≤ m ∨ m + g.size ≤ x := by
      intro x hx hne
      obtain ⟨q,-,hxq⟩ := hl x hx
      obtain ⟨g',hg',hxg'⟩ := h.group_of hxq
      have hsize := h.le_size hg'
      rcases h.chunks_apart hg' hg hxg' hm hne with hap | hap
      · omega
      · omega
    have hsize := h.le_size hg
    refine (h.chunk g hg m hm p hp).congr (fun a ha hlt => hmem a fun x hx => ?_) (fun huser addr hbeg a ha hlt => ?_)
      fun _ _ _ => rfl
    · by_cases hxm : x = m
      · omega
      · rcases hother x hx hxm with hap | hap
        · omega
        · omega
    · obtain ⟨addr',howned⟩ := (h.chunk g hg m hm p hp).owned huser
      have haddr : addr = addr' := Option.some.inj (hbeg.symm.trans howned.beg)
      have hfits := howned.fits
      refine hmem a fun x hx => ?_
      have hxm : x ≠ m := by
        rintro rfl
        obtain ⟨q,hq,hxq⟩ := hl x hx
        exact hq ((h.spread.disjoint q p x hxq hp).trans huser)
      rcases hother x hx hxm with hap | hap
      · omega
      · omega

end Core

/-- Headers of these chunks do not overlap. -/
def HeadersApart (l : List ℕ) : Prop := ∀ x ∈ l, ∀ y ∈ l, x ≠ y → x + 24 ≤ y ∨ y + 24 ≤ x

theorem HeadersApart.mono (h : HeadersApart l) (hl : ∀ x ∈ l', x ∈ l) : HeadersApart l' :=
  fun x hx y hy hne => h x (hl x hx) y (hl y hy) hne

/-- The other fields stay. -/
theorem LinksOnly.get_eq {f : Field} (h : LinksOnly l mem mem') (hf : f ≠ .next)
    (hm : ∀ x ∈ l, x ≠ m → x + 24 ≤ m ∨ m + 24 ≤ x) : get mem' m f = get mem m f := by
  refine get_head_congr hf fun a ha hlt => h a fun x hx => ?_
  by_cases hxm : x = m
  · omega
  · have hap := hm x hx hxm
    omega

theorem LinksOnly.size_eq (h : LinksOnly l mem mem') (hm : ∀ x ∈ l, x ≠ m → x + 24 ≤ m ∨ m + 24 ≤ x) :
    Size mem' m = Size mem m := by rw [Size, Size, h.get_eq (by decide) hm]

/-- The links of other chunks stay. -/
theorem LinksOnly.next_eq (h : LinksOnly l mem mem') (hm : ∀ x ∈ l, x + 24 ≤ m ∨ m + 24 ≤ x) :
    nextOf mem' m = nextOf mem m := by
  have hoff : Field.offset .next = 16 := rfl
  have hbytes : Field.bytes .next = 8 := rfl
  refine get_congr fun a ha hlt => h a fun x hx => ?_
  have hap := hm x hx
  omega

/-! ## Queues -/

namespace Fifo
variable {q x : AsanChunkFifoList} {k : ℕ}

theorem clear (mem : FlatMemory) : Fifo mem .clear [] := ⟨rfl,rfl,rfl⟩

/-- Only the chunks of the queue count. -/
theorem congr (h : Fifo mem q l) (hnext : ∀ m ∈ l, nextOf mem' m = nextOf mem m)
    (hsize : ∀ m ∈ l, Size mem' m = Size mem m) : Fifo mem' q l := by
  refine ⟨h.chain.congr hnext,h.last,?_⟩
  rw [h.size]
  exact congrArg List.sum (List.map_congr_left fun m hm => by rw [hsize m hm])

theorem ne_nil (h : Fifo mem q l) (hq : q.size_ > 0) : l ≠ [] := by
  rintro rfl
  rw [h.size] at hq
  exact lt_irrefl 0 hq

/-- The chunks of two queues, one behind the other, once the link between them is set. -/
theorem link {first : ℕ} {l₀ : List ℕ} {t : ℕ} (h : Chain (nextOf mem) first (l₀ ++ [t])) (h' : Chain (nextOf mem) n l')
    (hn : n < 2^64) (hnodup : (l₀ ++ [t] ++ l').Nodup) (hap : HeadersApart (l₀ ++ [t] ++ l')) :
    Chain (nextOf (AsanChunk.set mem t .next n)) first (l₀ ++ [t] ++ l') := by
  have ht : t ∈ l₀ ++ [t] ++ l' := by simp
  have hother : ∀ y ∈ l₀ ++ [t] ++ l', y ≠ t → nextOf (AsanChunk.set mem t .next n) y = nextOf mem y :=
    fun y hy hne => get_set_apart (hap t ht y hy (Ne.symm hne))
  have hself : nextOf (AsanChunk.set mem t .next n) t = n := get_set hn
  have hnodup' := hnodup
  simp only [List.append_assoc, List.singleton_append, List.nodup_append, List.nodup_cons] at hnodup'
  rw [List.append_assoc, List.singleton_append]
  refine h.concat (fun x hx => hother x (by simp [hx]) ?_) hself (h'.congr fun x hx => hother x (by simp [hx]) ?_)
  · exact hnodup'.2.2 x hx t List.mem_cons_self
  · exact ne_of_mem_of_not_mem hx hnodup'.2.1.1

/-- The sizes of the chunks do not change with the links. -/
theorem sum_sizes (hlinks : LinksOnly l mem mem') (hap : HeadersApart (l ++ l')) :
    ((l ++ l').map fun m => (Size mem' m).getD 0).sum =
      (l.map fun m => (Size mem m).getD 0).sum + (l'.map fun m => (Size mem m).getD 0).sum := by
  rw [← List.sum_append, ← List.map_append]
  refine congrArg List.sum (List.map_congr_left fun y hy => ?_)
  rw [hlinks.size_eq fun z hz hne => hap z (List.mem_append_left l' hz) y hy hne]

theorem push (h : Fifo mem q l) (hn0 : n ≠ 0) (hlt : n < 2^64) (hnext : get mem n .next = 0)
    (hsize : Size mem n = some k) (hnodup : (l ++ [n]).Nodup) (hap : HeadersApart (l ++ [n])) :
    ∃ q' mem', q.Push n mem = .ok (q',mem') ∧ Fifo mem' q' (l ++ [n]) ∧ LinksOnly l mem mem' ∧
      q'.size_ = q.size_ + k := by
  have hsingle : Chain (nextOf mem) n [n] := ⟨rfl,hn0,hnext⟩
  have hsum : ∀ mem', LinksOnly l mem mem' → q.size_ + k = ((l ++ [n]).map fun m => (Size mem' m).getD 0).sum := by
    intro mem' hlinks
    rw [sum_sizes hlinks hap, ← h.size]
    simp [hsize]
  rcases List.eq_nil_or_concat' l with rfl | ⟨l₀,t,rfl⟩
  · have hlast : q.last_ = 0 := h.last
    have hfirst : q.first_ = 0 := h.chain
    refine ⟨⟨n,n,q.size_ + k⟩,mem,?_,⟨hsingle,rfl,hsum mem .refl⟩,.refl,rfl⟩
    simp [AsanChunkFifoList.Push, CHECK_of, hnext, hlast, hfirst, hsize]
  · have hlast : q.last_ = t := by rw [h.last, List.getLastD_concat]
    have ht : t ∈ l₀ ++ [t] := List.mem_append_right _ (List.mem_singleton.mpr rfl)
    have ht0 : t ≠ 0 := h.chain.ne_zero ht
    have hfirst : q.first_ ≠ 0 := fun h0 => by simpa using h.chain.eq_zero_iff.mp h0
    have htnext : get mem t .next = 0 := h.chain.last_next
    have hlinks : LinksOnly (l₀ ++ [t]) mem (AsanChunk.set mem t .next n) := LinksOnly.set ht n
    have hsize' : Size (AsanChunk.set mem t .next n) n = some k := by
      rw [hlinks.size_eq fun z hz hne => hap z (List.mem_append_left _ hz) n (by simp) hne, hsize]
    refine ⟨⟨q.first_,n,q.size_ + k⟩,_,?_,⟨link h.chain hsingle hlt hnodup hap,?_,hsum _ hlinks⟩,hlinks,rfl⟩
    · simp [AsanChunkFifoList.Push, CHECK_of, hnext, hlast, ht0, hfirst, htnext, hsize']
    · rw [List.getLastD_concat]

theorem pushList (h : Fifo mem q l) (h' : Fifo mem x l') (hx : x.size_ > 0) (hlt : ∀ m ∈ l', m < 2^64)
    (hnodup : (l ++ l').Nodup) (hap : HeadersApart (l ++ l')) :
    ∃ q' mem', q.PushList x mem = .ok (q',mem') ∧ Fifo mem' q' (l ++ l') ∧ LinksOnly l mem mem' := by
  have hne := h'.ne_nil hx
  obtain ⟨l₁,u,rfl⟩ := (List.eq_nil_or_concat' l').resolve_left hne
  have hu : u ∈ l₁ ++ [u] := List.mem_append_right _ (List.mem_singleton.mpr rfl)
  have hxlast : x.last_ = u := by rw [h'.last, List.getLastD_concat]
  have hu0 : u ≠ 0 := h'.chain.ne_zero hu
  have hunext : get mem u .next = 0 := h'.chain.last_next
  have hxfirst : x.first_ ≠ 0 := fun h0 => hne (h'.chain.eq_zero_iff.mp h0)
  have hxmem : x.first_ < 2^64 := by
    obtain ⟨l₂,heq,-⟩ := h'.chain.tail hxfirst
    exact hlt x.first_ (heq ▸ List.mem_cons_self)
  have hsum : ∀ mem', LinksOnly l mem mem' →
      q.size_ + x.size_ = ((l ++ (l₁ ++ [u])).map fun m => (Size mem' m).getD 0).sum := by
    intro mem' hlinks
    rw [sum_sizes hlinks hap, ← h.size, ← h'.size]
  have hxsize : 0 < x.size_ := hx
  rcases List.eq_nil_or_concat' l with rfl | ⟨l₀,t,rfl⟩
  · have hlast : q.last_ = 0 := h.last
    have hfirst : q.first_ = 0 := h.chain
    refine ⟨⟨x.first_,u,q.size_ + x.size_⟩,mem,?_,⟨h'.chain,?_,hsum mem .refl⟩,.refl⟩
    · simp [AsanChunkFifoList.PushList, CHECK_of, hxsize, hlast, hfirst, hxfirst, hxlast, hu0, hunext]
    · rw [List.nil_append, List.getLastD_concat]
  · have hlast : q.last_ = t := by rw [h.last, List.getLastD_concat]
    have ht : t ∈ l₀ ++ [t] := List.mem_append_right _ (List.mem_singleton.mpr rfl)
    have ht0 : t ≠ 0 := h.chain.ne_zero ht
    have hfirst : q.first_ ≠ 0 := fun h0 => by simpa using h.chain.eq_zero_iff.mp h0
    have htnext : get mem t .next = 0 := h.chain.last_next
    have hlinks : LinksOnly (l₀ ++ [t]) mem (AsanChunk.set mem t .next x.first_) := LinksOnly.set ht _
    have hut : t ≠ u := fun heq => (List.nodup_append.mp hnodup).2.2 t ht u hu heq
    have hunext' : get (AsanChunk.set mem t .next x.first_) u .next = 0 := by
      rw [get_set_apart (hap t (List.mem_append_left _ ht) u (List.mem_append_right _ hu) hut), hunext]
    refine ⟨⟨q.first_,u,q.size_ + x.size_⟩,_,?_,⟨link h.chain h'.chain hxmem hnodup hap,?_,hsum _ hlinks⟩,hlinks⟩
    · simp [AsanChunkFifoList.PushList, CHECK_of, hxsize, hlast, ht0, hfirst, htnext, hxlast, hu0, hunext']
    · rw [← List.append_assoc, List.getLastD_concat]

theorem pop (h : Fifo mem q (m :: l)) (hsize : Size mem m = some k) :
    ∃ q', q.Pop mem = .ok (m,q') ∧ Fifo mem q' l := by
  obtain ⟨hfirst,hm0,htail⟩ := h.chain
  have hsum : q.size_ = k + (l.map fun m => (Size mem m).getD 0).sum := by
    rw [h.size, List.map_cons, List.sum_cons, hsize, Option.getD_some]
  have hsub : q.size_ - k = (l.map fun m => (Size mem m).getD 0).sum := by omega
  have hle : k ≤ q.size_ := by omega
  rcases List.eq_nil_or_concat' l with rfl | ⟨l₀,t,rfl⟩
  · have hnext : get mem m .next = 0 := htail
    refine ⟨⟨0,0,q.size_ - k⟩,?_,⟨rfl,rfl,hsub⟩⟩
    simp [AsanChunkFifoList.Pop, CHECK_of, hfirst, hm0, hnext, hsize, hle]
  · have hlast : q.last_ = t := by rw [h.last, ← List.cons_append, List.getLastD_concat]
    have hnext : get mem m .next ≠ 0 := fun h0 => by simpa using htail.eq_zero_iff.mp h0
    have htnext : get mem t .next = 0 := htail.last_next
    refine ⟨⟨get mem m .next,t,q.size_ - k⟩,?_,⟨htail,?_,hsub⟩⟩
    · simp [AsanChunkFifoList.Pop, CHECK_of, hfirst, hm0, hnext, hsize, hle, hlast, htnext]
    · rw [List.getLastD_concat]

end Fifo

/-- Only the chunks of the list count. -/
theorem ListAt.congr {s' : MallocInfo} (h : ListAt s l p) (hhead : SameHead s s' p)
    (hnext : ∀ m ∈ l, nextOf s'.memory m = nextOf s.memory m)
    (hsize : ∀ m ∈ l, Size s'.memory m = Size s.memory m) : ListAt s' l p := by
  cases p with
  | free c =>
    have hhead : s'.free_lists_ c = s.free_lists_ c := hhead
    rw [ListAt, hhead]
    exact Chain.congr h hnext
  | cached t c =>
    intro x' hx'
    obtain ⟨x,hx,heq⟩ := hhead x' hx'
    rw [heq]
    exact Chain.congr (h x hx) hnext
  | waiting t =>
    intro x' hx'
    obtain ⟨x,hx,heq⟩ := hhead x' hx'
    rw [heq]
    exact (h x hx).congr hnext hsize
  | quarantine =>
    have hhead : s'.quarantine_ = s.quarantine_ := hhead
    rw [ListAt, hhead]
    exact Fifo.congr h hnext hsize
  | taken => trivial
  | user => trivial

namespace Core

/-- Chunks of one place do not get links of another. -/
theorem next_stable (h : Core flags s L) (hl : ∀ x ∈ l, x ∈ L.held p') (hlinks : LinksOnly l s.memory mem')
    (hp : p ≠ p') (hm : m ∈ L.held p) : nextOf mem' m = nextOf s.memory m := by
  refine hlinks.next_eq fun x hx => h.headers_apart (hl x hx) hm ?_
  rintro rfl
  exact hp (h.spread.disjoint p p' x hm (hl x hx))

theorem size_stable (h : Core flags s L) (hl : ∀ x ∈ l, ∃ q, x ∈ L.held q) (hlinks : LinksOnly l s.memory mem')
    (hm : m ∈ L.held p) : Size mem' m = Size s.memory m := by
  refine hlinks.size_eq fun x hx hne => ?_
  obtain ⟨q,hq⟩ := hl x hx
  exact h.headers_apart hq hm hne

theorem lt_word (h : Core flags s L) (hm : m ∈ L.held p) : m < 2^63 := by
  obtain ⟨g,hg,hmg⟩ := h.group_of hm
  have hr := h.chunk_range hg hmg
  have hend := lt_of_inOneRange (h.mapped g hg).2.2 le_rfl
  omega

theorem headersApart (h : Core flags s L) (p : Place) : HeadersApart (L.held p) :=
  fun _ hx _ hy hne => h.headers_apart hx hy hne

end Core

end CompilerRt.AsanAllocator
