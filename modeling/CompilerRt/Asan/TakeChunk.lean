import CompilerRt.Asan.NewChunks
import Mathlib

/-! # Chunks that are taken

`AllocateChunks` takes chunks from the free list of a class, and maps new ones where the list is empty.
-/
namespace CompilerRt.AsanAllocator
open Sanitizer AsanMapping
open AsanChunk

variable {flags : Flags} {mmap : ℕ → ℕ} {s s' s₁ : MallocInfo} {L L' L₁ : Layout} {size_class size m n res t : ℕ}
  {g : Group} {p p' i j : Place} {new new' : List Group} {u v : List ℕ} {bad : Prop}

/-! ## Moves -/

theorem Place.eq_user (h : p.state = CHUNK_ALLOCATED) : p = .user := by
  cases p <;> simp [Place.state, CHUNK_AVAILABLE, CHUNK_ALLOCATED, CHUNK_QUARANTINE] at h ⊢

/-- All chunks with this address are of the class. -/
def Layout.IsOf (L : Layout) (size_class m : ℕ) : Prop := ∀ g ∈ L.groups, m ∈ g.chunks → size_class = g.size_class

theorem ChunkOk.move {mem : FlatMemory} {shadow : Shadow} (h : ChunkOk flags mem shadow g p m)
    (hstate : p'.state = p.state) (hlist : ∀ c, p'.listClass = some c → c = g.size_class) :
    ChunkOk flags mem shadow g p' m where
  state := h.state.trans hstate.symm
  size_class := h.size_class
  listed := hlist
  headed := h.headed
  owned hu := h.owned (Place.eq_user (by rw [← hstate, hu]; rfl))
  poisoned hu := h.poisoned fun hp => hu (Place.eq_user (by rw [hstate, hp]; rfl))

theorem Core.isOf (h : Core flags s L) (hm : m ∈ L.held p) (hp : p.listClass = some size_class) :
    L.IsOf size_class m := fun g hg hmg => (h.chunk g hg m hmg p hm).listed size_class hp

/-- The group of a chunk stays. -/
theorem Layout.IsOf.mono (h : L.IsOf size_class m) (hm : ∃ g ∈ L.groups, m ∈ g.chunks)
    (hgroups : L'.groups = L.groups ++ new) (hc : Core flags s' L') : L'.IsOf size_class m := by
  intro g hg hmg
  obtain ⟨g',hg',hmg'⟩ := hm
  have heq : g = g' := hc.group_unique hg (hgroups ▸ List.mem_append_left _ hg') hmg hmg'
  rw [heq]
  exact h g' hg' hmg'

/-- Two places with the same state exchange chunks. -/
theorem Core.exchange (h : Core flags s L) (hij : i ≠ j) (hstate : i.state = j.state)
    (hp : (u ++ v).Perm (L.held i ++ L.held j)) (hu : ∀ x ∈ u, ∀ c, i.listClass = some c → L.IsOf c x)
    (hv : ∀ x ∈ v, ∀ c, j.listClass = some c → L.IsOf c x) :
    Core flags s { L with held := Function.update (Function.update L.held i u) j v } where
  pages := h.pages
  used := h.used
  mapped := h.mapped
  page := h.page
  tail := h.tail
  apart := h.apart
  spread := h.spread.exchange hij hp
  chunk := fun g hg m hm p hmp => by
    have hfrom : m ∈ u ∨ m ∈ v → ∃ q, q.state = i.state ∧ m ∈ L.held q := by
      intro huv
      rcases List.mem_append.mp (hp.mem_iff.mp (List.mem_append.mpr huv)) with hq | hq
      · exact ⟨i,rfl,hq⟩
      · exact ⟨j,hstate.symm,hq⟩
    dsimp only at hmp
    by_cases hpj : p = j
    · subst hpj
      rw [Function.update_self] at hmp
      obtain ⟨q,hq,hmq⟩ := hfrom (.inr hmp)
      exact (h.chunk g hg m hm q hmq).move (hstate.symm.trans hq.symm) fun c hc => hv m hmp c hc g hg hm
    · rw [Function.update_of_ne hpj] at hmp
      by_cases hpi : p = i
      · subst hpi
        rw [Function.update_self] at hmp
        obtain ⟨q,hq,hmq⟩ := hfrom (.inl hmp)
        exact (h.chunk g hg m hm q hmq).move hq.symm fun c hc => hu m hmp c hc g hg hm
      · rw [Function.update_of_ne hpi] at hmp
        exact h.chunk g hg m hm p hmp

/-! ## Growth -/

/-- Groups are added, free chunks move between their lists, and all else stays. -/
structure Grows (new : List Group) (s s' : MallocInfo) (L L' : Layout) : Prop where
  groups : L'.groups = L.groups ++ new
  pages : s'.page_groups_ = s.page_groups_ ++ new.map Group.pg
  sorted : s'.n_sorted_page_groups_ = s.n_sorted_page_groups_
  memory : ∀ a, (∀ g ∈ new, a < g.beg ∨ g.end_ ≤ a) →
    (∀ p x, p.state = CHUNK_AVAILABLE → x ∈ L.held p → a < x + 16 ∨ x + 24 ≤ a) → s'.memory a = s.memory a
  shadow : ∀ k, (∀ g ∈ new, 8 * k < g.beg ∨ g.end_ ≤ 8 * k) →
    s'.shadow (WordSize.w64.SHADOW_OFFSET + k) = s.shadow (WordSize.w64.SHADOW_OFFSET + k)
  poisoned : ∀ g ∈ new, Negative s'.shadow g.beg g.end_
  held : ∀ p, p.state ≠ CHUNK_AVAILABLE → L'.held p = L.held p

theorem Grows.refl (s : MallocInfo) (L : Layout) : Grows [] s s L L :=
  ⟨(List.append_nil _).symm,(List.append_nil _).symm,rfl,fun _ _ _ => rfl,fun _ _ => rfl,
    fun _ hg => absurd hg List.not_mem_nil,fun _ _ => rfl⟩

theorem Grows.trans (h : Grows new s s₁ L L₁) (h' : Grows new' s₁ s' L₁ L') (hc : Core flags s L)
    (hc' : Core flags s' L') (hc₁ : Core flags s₁ L₁) : Grows (new ++ new') s s' L L' := by
  have hnew : ∀ g ∈ new, g ∈ L₁.groups := fun g hg => h.groups ▸ List.mem_append_right _ hg
  refine ⟨?_,?_,h'.sorted.trans h.sorted,fun a hnot hfree => ?_,fun k hnot => ?_,fun g hg => ?_,
    fun p hp => (h'.held p hp).trans (h.held p hp)⟩
  · rw [h'.groups, h.groups, List.append_assoc]
  · rw [h'.pages, h.pages, List.append_assoc, List.map_append]
  · rw [h'.memory a (fun g hg => hnot g (List.mem_append_right _ hg)) fun p x hp hx => ?_]
    · exact h.memory a (fun g hg => hnot g (List.mem_append_left _ hg)) hfree
    · obtain ⟨g,hg,hxg⟩ := hc₁.group_of hx
      have hr := hc₁.chunk_range hg hxg
      have hsize := hc₁.le_size hg
      rw [h.groups, List.mem_append] at hg
      rcases hg with hg | hg
      · have hxmem : x ∈ L.groups.flatMap Group.chunks := List.mem_flatMap.mpr ⟨g,hg,hxg⟩
        obtain ⟨q,hq⟩ := (hc.spread.mem_iff x).mp hxmem
        by_cases hqs : q.state = CHUNK_AVAILABLE
        · exact hfree q x hqs hq
        · have hq₁ : x ∈ L₁.held q := (h.held q hqs).symm ▸ hq
          exact absurd (hc₁.spread.disjoint p q x hx hq₁ ▸ hp) hqs
      · have hout := hnot g (List.mem_append_left _ hg)
        omega
  · rw [h'.shadow k fun g hg => hnot g (List.mem_append_right _ hg)]
    exact h.shadow k fun g hg => hnot g (List.mem_append_left _ hg)
  · rcases List.mem_append.mp hg with hg | hg
    · refine (h.poisoned g hg).congr fun k ha hb => h'.shadow k fun g' hg' => ?_
      have hne : g' ≠ g := by
        rintro rfl
        have hap := hc'.apart
        rw [h'.groups, List.pairwise_append] at hap
        have hself := hap.2.2 g' (hnew g' hg) g' hg'
        have hpage := hc₁.page_le (hnew g' hg)
        omega
      have hgroups : g ∈ L'.groups ∧ g' ∈ L'.groups := by
        rw [h'.groups]
        exact ⟨List.mem_append_left _ (hnew g hg),List.mem_append_right _ hg'⟩
      rcases hc'.groups_apart hgroups.2 hgroups.1 hne with hlt | hlt
      · omega
      · omega
    · exact h'.poisoned g hg

/-- The layout with a new group, whose chunks come before the free ones. -/
def Layout.grow (L : Layout) (g : Group) : Layout where
  groups := L.groups ++ [g]
  held := Function.update L.held (.free g.size_class) (g.chunks.reverse ++ L.held (.free g.size_class))

/-- A new group lies apart from the others. -/
theorem Core.fresh_apart (h : Core flags s L) (hfresh : s.Fresh g.beg g.mmap_size) {g' : Group} (hg' : g' ∈ L.groups) :
    g.end_ ≤ g'.beg ∨ g'.end_ ≤ g.beg := by
  have hpg : g'.pg ∈ s.page_groups_ := h.pages.mem_iff.mpr (List.mem_map_of_mem hg')
  have hap := hfresh.apart g'.pg hpg
  rw [h.page g' hg'] at hap
  exact hap

theorem Core.grow (h : Core flags s L) (hg : MallocInfo.Grown flags s s' g res) (hused : Used flags g.size_class g.size) :
    Core flags s' (L.grow g) := by
  have hap : ∀ g' ∈ L.groups, g.end_ ≤ g'.beg ∨ g'.end_ ≤ g.beg := fun g' hg' => h.fresh_apart hg.fresh hg'
  have hsizes := hused.groupSizes.1
  have hfits : g.n_chunks * g.size + 32 ≤ g.mmap_size := hsizes.fits
  have hsize : 0 < g.size := by
    have hred := flags.le_redzone.1
    have htwo := hused.redzones
    omega
  have hpg : g.pg = g.beg + g.n_chunks * g.size := rfl
  have hend : g.end_ = g.beg + g.mmap_size := rfl
  have hnew : ∀ m ∈ g.chunks, m ∉ L.groups.flatMap Group.chunks := by
    intro m hm hold
    obtain ⟨g',hg',hmg'⟩ := List.mem_flatMap.mp hold
    have hr := h.chunk_range hg' hmg'
    have hle := Group.le_of_mem hm
    have hsize' := h.le_size hg'
    rcases hap g' hg' with hlt | hlt
    · omega
    · omega
  refine ⟨?_,fun g' hg' => ?_,fun g' hg' => ?_,fun g' hg' => ?_,fun g' hg' => ?_,?_,?_,fun g' hg' m hm p hp => ?_⟩
  · rw [hg.pages, Layout.grow, List.map_append, List.map_singleton]
    exact h.pages.append_right _
  · rcases List.mem_append.mp hg' with hg' | hg'
    · exact h.used g' hg'
    · rw [List.mem_singleton.mp hg']
      exact hused
  · rcases List.mem_append.mp hg' with hg' | hg'
    · exact h.mapped g' hg'
    · rw [List.mem_singleton.mp hg']
      exact ⟨hg.fresh.ne_zero,hg.fresh.pages,hg.fresh.range⟩
  · rcases List.mem_append.mp hg' with hg' | hg'
    · have hpage := h.page_le hg'
      refine (page_congr fun a ha hlt => hg.memory a ?_).trans (h.page g' hg')
      rcases hap g' hg' with hlt' | hlt'
      · omega
      · omega
    · rw [List.mem_singleton.mp hg']
      exact hg.page
  · rcases List.mem_append.mp hg' with hg' | hg'
    · have hpage := h.page_le hg'
      refine (h.tail g' hg').congr fun k ha hlt => hg.shadow k ?_
      rcases hap g' hg' with hlt' | hlt'
      · omega
      · omega
    · rw [List.mem_singleton.mp hg']
      exact hg.poisoned.mono (by omega) le_rfl
  · refine List.pairwise_append.mpr ⟨h.apart,List.pairwise_singleton _ _,fun g' hg' g'' hg'' => ?_⟩
    rw [List.mem_singleton.mp hg'']
    exact (hap g' hg').symm
  · refine (h.spread.grow (List.nodup_reverse.mpr (Group.chunks_nodup hsize)) fun x hx => ?_).congr fun x => ?_
    · exact hnew x (List.mem_reverse.mp hx)
    · simp [Layout.grow]
  · have hcases : m ∈ L.held p ∨ p = .free g.size_class ∧ m ∈ g.chunks := by
      simp only [Layout.grow] at hp
      by_cases hpf : p = .free g.size_class
      · rw [hpf, Function.update_self, List.mem_append, List.mem_reverse] at hp
        rcases hp with hp | hp
        · exact .inr ⟨hpf,hp⟩
        · exact .inl (hpf ▸ hp)
      · rw [Function.update_of_ne hpf] at hp
        exact .inl hp
    rcases List.mem_append.mp hg' with hg' | hg'
    · have hr := h.chunk_range hg' hm
      have hold : m ∈ L.held p := by
        rcases hcases with hold | ⟨-,hmg⟩
        · exact hold
        · exact absurd (List.mem_flatMap.mpr ⟨g',hg',hm⟩) (hnew m hmg)
      have hout := hap g' hg'
      refine (h.chunk g' hg' m hm p hold).congr (fun a ha hlt => hg.memory a ?_) (fun hu addr hbeg a ha hlt => ?_)
        fun k ha hlt => hg.shadow k ?_
      · have hsize' := h.le_size hg'
        omega
      · obtain ⟨addr',howned⟩ := (h.chunk g' hg' m hm p hold).owned hu
        have haddr : addr = addr' := Option.some.inj (hbeg.symm.trans howned.beg)
        have hfit := howned.fits
        exact hg.memory a (by omega)
      · omega
    · rw [List.mem_singleton] at hg'
      subst hg'
      obtain ⟨hpf,-⟩ := hcases.resolve_left fun hold => hnew m hm (h.spread.mem hold)
      exact hg.chunk p (by rw [hpf]; rfl) (fun c hc => by rw [hpf] at hc; exact (Option.some.inj hc).symm) m hm

/-! ## The loop -/

/-- The list of the free chunks of one class is another one. -/
theorem sameHead_free {mem : FlatMemory} {a : ℕ} (hp : p ≠ .free size_class) : SameHead s
    { s with memory := mem, free_lists_ := Function.update s.free_lists_ size_class a } p := by
  cases p with
  | free c => exact Function.update_of_ne (fun hc => hp (by rw [hc])) _ _
  | cached t c => exact fun x hx => ⟨x,hx,rfl⟩
  | waiting t => exact fun x hx => ⟨x,hx,rfl⟩
  | quarantine => rfl
  | taken => trivial
  | user => trivial

/-- There is a free chunk, or there are new ones in the free list. -/
structure Refilled (flags : Flags) (size_class n : ℕ) (bad : Prop) (s s' : MallocInfo) (L L' : Layout) : Prop where
  core : Core flags s' L'
  lists : Lists s' L'
  grows : ∃ new, Grows new s s' L L'
  threads : s'.threads = s.threads
  ne_nil : L'.held (.free size_class) ≠ []
  held : ∀ p, p ≠ .free size_class → L'.held p = L.held p
  next : ∀ p, ∀ m ∈ L.held p, nextOf s'.memory m = nextOf s.memory m
  room : ¬bad → s'.page_groups_.length < kMaxAvailableRam / kMinMmapSize ∨ n ≤ (L'.held (.free size_class)).length

theorem refill_runs (hc : Core flags s L) (hl : Lists s L) (hused : Used flags size_class size)
    (hn : n ≤ (MallocInfo.groupSizes size).1) (hn0 : 0 < n)
    (hroom : ¬bad → s.page_groups_.length < kMaxAvailableRam / kMinMmapSize ∨ n ≤ (L.held (.free size_class)).length) :
    Runs bad (s.refill mmap size_class) fun s' => ∃ L', Refilled flags size_class n bad s s' L L' := by
  rw [MallocInfo.refill]
  have hfree : Chain (nextOf s.memory) (s.free_lists_ size_class) (L.held (.free size_class)) := hl (.free size_class)
  split_ifs with hempty
  · have hnil : L.held (.free size_class) = [] := hfree.eq_zero_iff.mp hempty
    have hroom' : ¬bad → s.page_groups_.length < kMaxAvailableRam / kMinMmapSize := by
      intro hbad
      rw [hnil] at hroom
      exact (hroom hbad).resolve_right fun hle => by simp at hle; omega
    refine (MallocInfo.getNewChunks_runs hused hroom').bind fun r hg => ?_
    obtain ⟨res,s₁⟩ := r
    generalize hgdef : (⟨mmap s.page_groups_.length,size_class⟩ : Group) = g at hg
    have hclass : g.size_class = size_class := by rw [← hgdef]
    have hsize : g.size = size := by rw [Group.size, hclass, hused.size_eq, Option.getD_some]
    have hcore : Core flags s₁ (L.grow g) := hc.grow hg (by rwa [hsize, hclass])
    have hgc : (L.grow g).held (.free size_class) = g.chunks.reverse := by
      rw [Layout.grow, hclass]
      dsimp only
      rw [Function.update_self, hnil, List.append_nil]
    have hlen : g.chunks.length = (MallocInfo.groupSizes size).1 := by
      rw [Group.chunks, List.length_map, List.length_range, Group.n_chunks, hsize]
    have hother : ∀ p, p ≠ .free size_class → (L.grow g).held p = L.held p := by
      intro p hp
      rw [Layout.grow, hclass]
      exact Function.update_of_ne hp _ _
    have hbytes : ∀ p, ∀ m ∈ L.held p, ∀ a, m ≤ a → a < m + 24 → s₁.memory a = s.memory a := by
      intro p m hm a ha hlt
      obtain ⟨g',hg',hmg'⟩ := hc.group_of hm
      have hr := hc.chunk_range hg' hmg'
      have hsize' := hc.le_size hg'
      have hap := hc.fresh_apart hg.fresh hg'
      exact hg.memory a (by omega)
    have hnext : ∀ p, ∀ m ∈ L.held p, nextOf s₁.memory m = nextOf s.memory m := by
      intro p m hm
      have hle := Field.le_bytes .next
      exact get_congr fun a ha hlt => hbytes p m hm a (Nat.le_of_add_right_le ha) (by omega)
    refine Runs.ok ⟨L.grow g,hcore.of_eq rfl rfl rfl,
      fun p => ?_,⟨[g],rfl,hg.pages,hg.sorted,fun a hnot _ => ?_,fun k hnot => ?_,fun g' hg' => ?_,fun p hp => hother p ?_⟩,hg.threads,?_,
      hother,hnext,fun _ => .inr ?_⟩
    · by_cases hp : p = .free size_class
      · subst hp
        rw [hgc, ListAt]
        dsimp only
        rw [Function.update_self]
        exact hg.chain
      · rw [hother p hp]
        refine (hl p).congr ?_ (hnext p) fun m hm => ?_
        · cases p with
          | free c =>
            exact (Function.update_of_ne (fun hcc => hp (by rw [hcc])) _ _).trans (congrFun hg.free_lists c)
          | cached t c => exact fun x hx => ⟨x,hg.threads ▸ hx,rfl⟩
          | waiting t => exact fun x hx => ⟨x,hg.threads ▸ hx,rfl⟩
          | quarantine => exact hg.quarantine
          | taken => trivial
          | user => trivial
        · exact size_congr fun a ha hlt => hbytes p m hm a ha (by omega)
    · exact hg.memory a (hnot g (List.mem_singleton.mpr rfl))
    · exact hg.shadow k (hnot g (List.mem_singleton.mpr rfl))
    · rw [List.mem_singleton.mp hg']
      exact hg.poisoned
    · rintro rfl
      exact hp rfl
    · rw [hgc]
      intro hnil'
      have hzero := congrArg List.length hnil'
      rw [List.length_reverse, hlen, List.length_nil] at hzero
      omega
    · rw [hgc, List.length_reverse, hlen]
      exact hn
  · have hne : L.held (.free size_class) ≠ [] := fun hnil => hempty (hfree.eq_zero_iff.mpr hnil)
    exact Runs.ok ⟨L,hc,hl,⟨[],Grows.refl s L⟩,rfl,hne,fun _ _ => rfl,fun _ _ _ => rfl,hroom⟩

/-- Chunks of the class are taken, and are before those that were taken already. -/
structure Took (flags : Flags) (size_class n : ℕ) (s s' : MallocInfo) (L L' : Layout) (m : ℕ) : Prop where
  core : Core flags s' L'
  lists : Lists s' L'
  chain : Chain (nextOf s'.memory) m (L'.held .taken)
  grows : ∃ new, Grows new s s' L L'
  threads : s'.threads = s.threads
  taken : ∃ l, l.length = n ∧ L'.held .taken = l ++ L.held .taken ∧ ∀ x ∈ l, L'.IsOf size_class x
  held : ∀ p, p ≠ .free size_class → p ≠ .taken → L'.held p = L.held p

/-- The first free chunk of a class is taken. -/
theorem take_free {rest : List ℕ} (hc : Core flags s L) (hl : Lists s L)
    (hchain : Chain (nextOf s.memory) m (L.held .taken)) (hfree : L.held (.free size_class) = t :: rest) :
    Took flags size_class 1 s { s with
        memory := set s.memory t .next m
        free_lists_ := Function.update s.free_lists_ size_class (nextOf s.memory t) } L
      { L with held := Function.update (Function.update L.held (.free size_class) rest) .taken (t :: L.held .taken) } t := by
  have ht : t ∈ L.held (.free size_class) := hfree ▸ List.mem_cons_self
  have hm : m < 256^8 := by
    by_cases hzero : m = 0
    · rw [hzero]
      decide
    · obtain ⟨l',hl',-⟩ := hchain.tail hzero
      have hlt := hc.lt_word (p := .taken) (m := m) (hl' ▸ List.mem_cons_self)
      omega
  have hlinks : LinksOnly [t] s.memory (set s.memory t .next m) := LinksOnly.set (List.mem_singleton.mpr rfl) m
  have hin : ∀ x ∈ [t], x ∈ L.held (.free size_class) := fun x hx => List.mem_singleton.mp hx ▸ ht
  have hstable := fun p (hp : p ≠ Place.free size_class) x (hx : x ∈ L.held p) => hc.next_stable hin hlinks hp hx
  have hsizes := fun p x (hx : x ∈ L.held p) => hc.size_stable (fun y hy => ⟨_,hin y hy⟩) hlinks hx
  have hset := hc.setLinks (fun x hx => ⟨.free size_class,by simp,hin x hx⟩) hlinks
  have hperm : (rest ++ t :: L.held .taken).Perm (L.held (.free size_class) ++ L.held .taken) := by
    rw [hfree, List.cons_append]
    exact List.perm_middle
  have hclass : ∀ x ∈ L.held (.free size_class), L.IsOf size_class x := fun x hx => hc.isOf hx rfl
  have hnodup := hc.spread.nodup (.free size_class)
  rw [hfree] at hnodup
  have hother : ∀ p, p ≠ .free size_class → p ≠ .taken →
      Function.update (Function.update L.held (.free size_class) rest) .taken (t :: L.held .taken) p = L.held p := by
    intro p hpf hpt
    rw [Function.update_of_ne hpt, Function.update_of_ne hpf]
  have hcore := hset.exchange (i := .free size_class) (j := .taken) (by simp) rfl hperm
    (fun x hx c hcl => by
      cases hcl
      exact hclass x (hfree ▸ List.mem_cons_of_mem t hx))
    fun x _ c hcl => by cases hcl
  refine ⟨hcore.of_eq rfl rfl rfl,fun p => ?_,?_,?_,rfl,
    ⟨[t],rfl,?_,fun x hx => ?_⟩,hother⟩
  · by_cases hpt : p = .taken
    · subst hpt
      trivial
    · by_cases hpf : p = .free size_class
      · subst hpf
        have hchain' : Chain (nextOf s.memory) (s.free_lists_ size_class) (t :: rest) := hfree ▸ hl (.free size_class)
        obtain ⟨heq,-,htail⟩ := hchain'
        rw [ListAt]
        dsimp only
        rw [Function.update_of_ne hpt, Function.update_self, Function.update_self]
        refine htail.congr fun x hx => get_set_apart (hc.headers_apart ht (hfree ▸ List.mem_cons_of_mem t hx) ?_)
        rintro rfl
        exact (List.nodup_cons.mp hnodup).1 hx
      · dsimp only
        rw [hother p hpf hpt]
        exact (hl p).congr (sameHead_free hpf) (hstable p hpf) (hsizes p)
  · dsimp only
    rw [Function.update_self]
    exact (hchain.congr (hstable .taken (by simp))).cons (hc.ne_zero ht) (get_set hm)
  · refine ⟨[],(List.append_nil _).symm,(List.append_nil _).symm,rfl,fun a _ hfree' => hlinks a fun x hx => ?_,fun _ _ => rfl,
      fun _ hg => absurd hg List.not_mem_nil,fun p hp => hother p ?_ ?_⟩
    · exact hfree' (.free size_class) x rfl (hin x hx)
    · rintro rfl
      exact hp rfl
    · rintro rfl
      exact hp rfl
  · dsimp only
    rw [Function.update_self]
    rfl
  · rw [List.mem_singleton.mp hx]
    exact hclass t ht

theorem allocateChunks_runs (hc : Core flags s L) (hl : Lists s L) (hused : Used flags size_class size)
    (hchain : Chain (nextOf s.memory) m (L.held .taken)) (hn : n ≤ (MallocInfo.groupSizes size).1)
    (hroom : ¬bad → s.page_groups_.length < kMaxAvailableRam / kMinMmapSize ∨ n ≤ (L.held (.free size_class)).length) :
    Runs bad (MallocInfo.AllocateChunks mmap size_class n m s) fun r =>
      ∃ L', Took flags size_class n s r.2 L L' r.1 := by
  induction n generalizing s L m with
  | zero => exact Runs.ok ⟨L,hc,hl,hchain,⟨[],Grows.refl s L⟩,rfl,⟨[],rfl,rfl,fun x hx => nomatch hx⟩,fun _ _ _ => rfl⟩
  | succ n ih =>
    rw [MallocInfo.AllocateChunks]
    refine (refill_runs hc hl hused hn (Nat.succ_pos n) hroom).bind fun s₁ ⟨L₁,h₁⟩ => ?_
    dsimp only
    obtain ⟨t,rest,hfree⟩ := List.exists_cons_of_ne_nil h₁.ne_nil
    have hhead : Chain (nextOf s₁.memory) (s₁.free_lists_ size_class) (L₁.held (.free size_class)) :=
      h₁.lists (.free size_class)
    rw [hfree] at hhead
    rw [hhead.1]
    have htaken : Chain (nextOf s₁.memory) m (L₁.held .taken) := by
      rw [h₁.held .taken nofun]
      exact hchain.congr (h₁.next .taken)
    have h₂ := take_free h₁.core h₁.lists htaken hfree
    have hstate := h₂.core.state_eq (p := .taken) (m := t) (by
      dsimp only
      rw [Function.update_self]
      exact List.mem_cons_self)
    refine (Runs.check fun _ => hstate).bind fun _ _ => ?_
    obtain ⟨new₁,hnew₁⟩ := h₁.grows
    obtain ⟨new₂,hnew₂⟩ := h₂.grows
    refine (ih h₂.core h₂.lists h₂.chain (Nat.le_of_succ_le hn) fun hbad => ?_).mono fun r ⟨L',h'⟩ => ⟨L',?_⟩
    · refine (h₁.room hbad).imp id fun hle => ?_
      rw [hfree, List.length_cons] at hle
      dsimp only
      rw [Function.update_of_ne (by simp), Function.update_self]
      omega
    · obtain ⟨new₃,hnew₃⟩ := h'.grows
      obtain ⟨l,hlen,hl',hclass⟩ := h'.taken
      dsimp only at hl'
      rw [Function.update_self, h₁.held .taken nofun] at hl'
      have hbefore := hnew₁.trans hnew₂ hc h₂.core h₁.core
      refine ⟨h'.core,h'.lists,h'.chain,⟨_,hbefore.trans hnew₃ hc h'.core h₂.core⟩,
        h'.threads.trans (h₂.threads.trans h₁.threads),⟨l ++ [t],?_,?_,fun x hx => ?_⟩,fun p hpf hpt => ?_⟩
      · rw [List.length_append, hlen, List.length_singleton]
      · rw [hl', List.append_assoc, List.singleton_append]
      · rcases List.mem_append.mp hx with hx | hx
        · exact hclass x hx
        · rw [List.mem_singleton.mp hx]
          have ht : t ∈ L₁.held (.free size_class) := hfree ▸ List.mem_cons_self
          exact (h₁.core.isOf ht rfl).mono (h₁.core.group_of ht) hnew₃.groups h'.core
      · rw [h'.held p hpf hpt]
        exact (h₂.held p hpf hpt).trans (h₁.held p hpf)

/-! ## One chunk -/

/-- One chunk of the class is taken. -/
structure TookOne (flags : Flags) (size_class : ℕ) (s s' : MallocInfo) (L L' : Layout) (m : ℕ) : Prop where
  core : Core flags s' L'
  lists : Lists s' L'
  grows : ∃ new, Grows new s s' L L'
  taken : L'.held .taken = [m]
  isOf : L'.IsOf size_class m
  threads : ∀ t, (s'.threads t).isSome = (s.threads t).isSome
  cached : ∀ t c, s.threads t = none → L'.held (.cached t c) = L.held (.cached t c)

theorem Took.one (h : Took flags size_class 1 s s' L L' m) (htaken : L.held .taken = []) :
    TookOne flags size_class s s' L L' m := by
  obtain ⟨l,hlen,hl,hclass⟩ := h.taken
  obtain ⟨x,rfl⟩ := List.length_eq_one_iff.mp hlen
  rw [htaken, List.append_nil] at hl
  have hchain := h.chain
  rw [hl] at hchain
  obtain rfl : m = x := hchain.1
  exact ⟨h.core,h.lists,h.grows,hl,hclass m (List.mem_singleton.mpr rfl),fun t => by rw [h.threads],
    fun t c _ => h.held _ (by simp) (by simp)⟩

/-- The first chunk of a thread's list is taken. -/
theorem take_cached {x : AsanThreadLocalMallocStorage} {rest l : List ℕ} (hc : Core flags s L) (hl : Lists s L)
    (ht : s.threads t = some x) (htaken : L.held .taken = l)
    (hfrom : l ++ L.held (.cached t size_class) = m :: rest) (hclass : ∀ y ∈ m :: rest, L.IsOf size_class y)
    (hchain : Chain (nextOf s.memory) m (m :: rest)) :
    TookOne flags size_class s { s with threads := Function.update s.threads t (some { x with
        free_lists_ := Function.update x.free_lists_ size_class (nextOf s.memory m) }) } L
      { L with held := Function.update (Function.update L.held (.cached t size_class) rest) .taken [m] } m := by
  have hperm : (rest ++ [m]).Perm (L.held (.cached t size_class) ++ L.held .taken) := by
    rw [htaken]
    exact (List.perm_append_singleton m rest).trans (hfrom ▸ List.perm_append_comm)
  have hcore := hc.exchange (i := .cached t size_class) (j := .taken) (by simp) rfl hperm
    (fun y hy c hcl => by
      cases hcl
      exact hclass y (List.mem_cons_of_mem m hy))
    fun y _ c hcl => nomatch hcl
  have hother : ∀ p, p ≠ .cached t size_class → p ≠ .taken →
      Function.update (Function.update L.held (.cached t size_class) rest) .taken [m] p = L.held p := by
    intro p hpf hpt
    rw [Function.update_of_ne hpt, Function.update_of_ne hpf]
  refine ⟨hcore.of_eq rfl rfl rfl,fun p => ?_,
    ⟨[],(List.append_nil _).symm,(List.append_nil _).symm,rfl,fun _ _ _ => rfl,fun _ _ => rfl,
      fun _ hg => absurd hg List.not_mem_nil,
      fun p hp => hother p ?_ ?_⟩,?_,hclass m List.mem_cons_self,fun t' => ?_,fun t' c hnone => hother (.cached t' c) ?_ (by simp)⟩
  · by_cases hpt : p = .taken
    · subst hpt
      trivial
    · by_cases hpf : p = .cached t size_class
      · subst hpf
        intro x' hx'
        dsimp only at hx' ⊢
        rw [Function.update_self] at hx'
        cases hx'
        rw [Function.update_of_ne hpt, Function.update_self]
        dsimp only
        rw [Function.update_self]
        exact hchain.2.2
      · dsimp only
        rw [hother p hpf hpt]
        refine (hl p).congr ?_ (fun _ _ => rfl) fun _ _ => rfl
        cases p with
        | free c => rfl
        | cached t' c =>
          intro x' hx'
          dsimp only at hx'
          by_cases htt : t' = t
          · subst htt
            rw [Function.update_self] at hx'
            cases hx'
            exact ⟨x,ht,Function.update_of_ne (fun hcc => hpf (by rw [hcc])) _ _⟩
          · rw [Function.update_of_ne htt] at hx'
            exact ⟨x',hx',rfl⟩
        | waiting t' =>
          intro x' hx'
          dsimp only at hx'
          by_cases htt : t' = t
          · subst htt
            rw [Function.update_self] at hx'
            cases hx'
            exact ⟨x,ht,rfl⟩
          · rw [Function.update_of_ne htt] at hx'
            exact ⟨x',hx',rfl⟩
        | quarantine => rfl
        | taken => trivial
        | user => trivial
  · rintro rfl
    exact hp rfl
  · rintro rfl
    exact hp rfl
  · dsimp only
    rw [Function.update_self]
  · dsimp only
    by_cases htt : t' = t
    · subst htt
      rw [Function.update_self, ht]
      rfl
    · rw [Function.update_of_ne htt]
  · rintro heq
    cases heq
    rw [ht] at hnone
    cases hnone

theorem Took.toOne {s₂ : MallocInfo} {L₂ : Layout} (h : Took flags size_class n s s₁ L L₁ res)
    (h' : TookOne flags size_class s₁ s₂ L₁ L₂ m) (hc : Core flags s L) : TookOne flags size_class s s₂ L L₂ m := by
  obtain ⟨new,hnew⟩ := h.grows
  obtain ⟨new',hnew'⟩ := h'.grows
  refine ⟨h'.core,h'.lists,⟨_,hnew.trans hnew' hc h'.core h.core⟩,h'.taken,h'.isOf,fun t => ?_,fun t c hnone => ?_⟩
  · rw [h'.threads, h.threads]
  · rw [h'.cached t c (h.threads ▸ hnone), h.held _ (by simp) (by simp)]

/-- Small chunks come in batches that one group has room for. -/
theorem Used.batch (h : Used flags size_class size) (hlt : size < kMaxSizeForThreadLocalFreeList) :
    0 < kMaxSizeForThreadLocalFreeList / size ∧
      kMaxSizeForThreadLocalFreeList / size ≤ (MallocInfo.groupSizes size).1 := by
  have hmax : kMaxSizeForThreadLocalFreeList = 2^17 := rfl
  rw [hmax] at hlt ⊢
  obtain ⟨k,-,-,rfl⟩ := h.shape.resolve_right fun hlarge => by omega
  have hk : k < 17 := (Nat.pow_lt_pow_iff_right (by decide)).mp hlt
  have hdiv : 2^17 / 2^k = 2^(17 - k) := Nat.pow_div hk.le (by decide)
  have hdiv' : 2^22 / 2^k = 2^(22 - k) := Nat.pow_div (by omega) (by decide)
  have hpos := Nat.two_pow_pos (17 - k)
  have hdouble : 2^(22 - k) = 2^(17 - k) * 2^5 := by
    rw [← Nat.pow_add]
    exact congrArg (2 ^ ·) (by omega)
  rw [MallocInfo.groupSizes, kMinMmapSize_eq, max_eq_right (hlt.le.trans (by decide)), hdiv, hdiv']
  refine ⟨hpos,?_⟩
  split_ifs
  · exact (show 2^(17 - k) ≤ 2^(22 - k) - 1 by omega)
  · exact (show 2^(17 - k) ≤ 2^(22 - k) by omega)

/-- A chunk is taken from the global storage or from the list of the thread. -/
theorem takeChunk_runs (hc : Core flags s L) (hl : Lists s L) (htaken : L.held .taken = [])
    (hused : Used flags size_class size) (hroom : ¬bad → s.page_groups_.length < kMaxAvailableRam / kMinMmapSize) :
    Runs bad (MallocInfo.takeChunk mmap s t size_class size) fun r =>
      ∃ L', TookOne flags size_class s r.2 L L' r.1 := by
  have hnil : Chain (nextOf s.memory) 0 (L.held .taken) := by
    rw [htaken]
    rfl
  have hglobal : Runs bad (MallocInfo.AllocateChunks mmap size_class 1 0 s) fun r =>
      ∃ L', TookOne flags size_class s r.2 L L' r.1 :=
    (allocateChunks_runs hc hl hused hnil hused.groupSizes.1.pos fun hbad => .inl (hroom hbad)).mono
      fun r ⟨L',h⟩ => ⟨L',h.one htaken⟩
  rw [MallocInfo.takeChunk]
  split
  · exact hglobal
  · rename_i x hx
    split_ifs with hlarge hempty
    · exact hglobal
    · obtain ⟨hpos,hbatch⟩ := hused.batch (not_le.mp hlarge)
      refine (allocateChunks_runs hc hl hused hnil hbatch fun hbad => .inl (hroom hbad)).bind fun r ⟨L₁,h⟩ => ?_
      obtain ⟨m,s₁⟩ := r
      obtain ⟨l,hlen,hl₁,hclass⟩ := h.taken
      rw [htaken, List.append_nil] at hl₁
      have hchain := h.chain
      rw [hl₁] at hchain
      have hl0 : l ≠ [] := by
        rintro rfl
        rw [List.length_nil] at hlen
        omega
      obtain ⟨rest,rfl,-⟩ := hchain.tail fun hm => hl0 (hchain.eq_zero_iff.mp hm)
      have hcached : L₁.held (.cached t size_class) = [] := by
        rw [h.held _ (by simp) (by simp)]
        exact (hl (.cached t size_class) x hx).eq_zero_iff.mp hempty
      have hone := take_cached h.core h.lists (h.threads ▸ hx) hl₁
        (by rw [hcached, List.append_nil]) hclass hchain
      exact Runs.ok ⟨_,h.toOne hone hc⟩
    · have hchain : Chain (nextOf s.memory) (x.free_lists_ size_class) (L.held (.cached t size_class)) :=
        hl (.cached t size_class) x hx
      obtain ⟨rest,hrest,-⟩ := hchain.tail hempty
      have hclass : ∀ y ∈ L.held (.cached t size_class), L.IsOf size_class y := fun y hy => hc.isOf hy rfl
      rw [hrest] at hchain hclass
      exact Runs.ok ⟨_,take_cached hc hl hx htaken hrest hclass hchain⟩

end CompilerRt.AsanAllocator
