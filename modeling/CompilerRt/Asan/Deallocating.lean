import CompilerRt.Asan.PageGroups
import CompilerRt.Asan.Swallow
import Mathlib

/-! # Deallocation

`Deallocate` poisons the bytes of a block and puts its chunk behind those that were freed before.
-/
namespace CompilerRt.AsanAllocator
open Sanitizer AsanMapping
open AsanChunk

variable {flags : Flags} {s s' s₁ : MallocInfo} {L L' L₁ : Layout} {g : Group} {p : Place} {m n t ptr : ℕ} {l : List ℕ}
  {bad : Prop} {stack : StackTrace 64} {q : AsanChunkFifoList} {x : AsanThreadLocalMallocStorage}

/-! ## The header -/

/-- A chunk that was freed, before it is put into a queue. -/
structure Retired (flags : Flags) (s s' : MallocInfo) (g : Group) (m : ℕ) : Prop where
  within : Within s s' m g.size
  ok : ∀ p, p.state = CHUNK_QUARANTINE → p.listClass = none → ChunkOk flags s'.memory s'.shadow g p m
  next : get s'.memory m .next = get s.memory m .next
  rest : s' = { s with memory := s'.memory, shadow := s'.shadow }

/-- The granules of a freed block are poisoned, and those around it were. -/
theorem Owned.poison {shadow shadow' : Shadow} {mem : FlatMemory} {size addr rounded : ℕ}
    (h : Owned flags mem shadow size m addr) (hrounded : rounded = roundedUp flags.redzone (get mem m .used_size))
    (hin : Negative shadow' addr (addr + rounded))
    (hout : ∀ k, 8 * k < addr ∨ addr + rounded ≤ 8 * k →
      shadow' (WordSize.w64.SHADOW_OFFSET + k) = shadow (WordSize.w64.SHADOW_OFFSET + k)) :
    Negative shadow' m (m + size) := by
  subst hrounded
  intro k ha hb
  by_cases hlow : 8 * k < addr
  · rw [hout k (.inl hlow)]
    exact h.left k ha hlow
  · by_cases hhigh : addr + roundedUp flags.redzone (get mem m .used_size) ≤ 8 * k
    · rw [hout k (.inr hhigh)]
      exact h.right k hhigh hb
    · exact hin k (by omega) (by omega)

theorem retire_ok (t : ℕ) (stack : StackTrace 64) (hc : Core flags s L) (hg : g ∈ L.groups) (hmg : m ∈ g.chunks)
    (hok : ChunkOk flags s.memory s.shadow g .user m) (howned : Owned flags s.memory s.shadow g.size m ptr) :
    ∃ s', s.retire flags t m ptr stack = .ok s' ∧ Retired flags s s' g m := by
  have h16 := flags.le_redzone
  have hused := howned.pos
  have hfits := howned.fits
  have hbehind := howned.behind
  have htwo := (hc.used g hg).redzones
  have hround := le_roundedUp flags.pos (get s.memory m .used_size)
  have hrange := hc.inOneRange hg hmg
  have hword := lt_of_inOneRange hrange le_rfl
  have hred := flags.redzone_le
  have hstate : get s.memory m .chunk_state = CHUNK_ALLOCATED := hok.state
  generalize hmem₁ : set s.memory m .chunk_state CHUNK_QUARANTINE = mem₁
  have hget₁ : ∀ f, f ≠ .chunk_state → get mem₁ m f = get s.memory m f := by
    intro f hf
    rw [← hmem₁, get_set_of_ne hf]
  generalize hmem₂ : set mem₁ m .free_tid (if (s.threads t).isSome then t else 0) = mem₂
  have hget₂ : ∀ f, f ≠ .chunk_state → f ≠ .free_tid → get mem₂ m f = get s.memory m f := by
    intro f h1 h2
    rw [← hmem₂, get_set_of_ne h2, hget₁ f h1]
  have hstate₂ : get mem₂ m .chunk_state = CHUNK_QUARANTINE := by
    rw [← hmem₂, get_set_of_ne (by decide), ← hmem₁, get_set (by decide)]
  obtain ⟨mem₃,hmem₃⟩ := compressStack_isSome stack mem₂ (compressed_free_stack flags.redzone m)
    (compressed_free_stack_size flags.redzone)
  have hstack : ∀ a, a < m + 24 ∨ m + 2 * flags.redzone ≤ a → mem₃ a = mem₂ a := by
    intro a ha
    refine compressStack_outside hmem₃ ?_
    rw [compressed_free_stack, compressed_free_stack_size, sizeofChunkBase]
    split_ifs
    · omega
    · omega
  have hget₃ : ∀ f, get mem₃ m f = get mem₂ m f := by
    intro f
    have hle := f.le_bytes
    exact get_congr fun a ha hlt => hstack a (by omega)
  have hsize₃ : get mem₃ m .used_size = get s.memory m .used_size := by
    rw [hget₃, hget₂ _ (by decide) (by decide)]
  have hrounded : RoundUpTo (get mem₃ m .used_size) flags.redzone =
      some (roundedUp flags.redzone (get s.memory m .used_size)) := by
    rw [hsize₃]
    exact roundUpTo_eq flags (by omega)
  have h8 : 8 ∣ ptr := (Dvd.dvd.trans (by decide) h16.2).trans howned.aligned
  have h8round : 8 ∣ roundedUp flags.redzone (get s.memory m .used_size) :=
    (Dvd.dvd.trans (by decide) h16.2).trans (dvd_roundedUp _ _)
  have hpoison := poisonShadow_range s.shadow kAsanHeapFreeMagic h8 h8round
    (inOneRange_sub hrange (by omega) (Nat.le_add_right _ _) hfits)
  have hin : Negative (s.shadow.memset (WordSize.w64.SHADOW_OFFSET + ptr / 8) kAsanHeapFreeMagic
      (roundedUp flags.redzone (get s.memory m .used_size) / 8)) ptr
      (ptr + roundedUp flags.redzone (get s.memory m .used_size)) := negative_memset h8 h8round (by decide)
  have hneg := howned.poison rfl hin fun k hk => (memset_granule h8 h8round).trans (if_neg (by omega))
  have hnext : flags.redzone ≤ 16 ∨ get mem₁ m .next = 0 := by
    rcases Nat.lt_or_ge 16 flags.redzone with hlt | hge
    · rw [hget₁ _ (by decide)]
      exact .inr (howned.next hlt)
    · exact .inl hge
  have hfree : get mem₁ m .free_tid = kInvalidTid := by
    rw [hget₁ _ (by decide), howned.free_tid]
  refine ⟨{ s with
    memory := mem₃
    shadow := s.shadow.memset (WordSize.w64.SHADOW_OFFSET + ptr / 8) kAsanHeapFreeMagic
      (roundedUp flags.redzone (get s.memory m .used_size) / 8) },?_,
    ⟨⟨fun a ha => ?_,fun k hk => ?_⟩,fun p hp hlist => ⟨?_,?_,?_,?_,?_,?_⟩,?_,rfl⟩⟩
  · rw [MallocInfo.retire, hstate]
    simp only [hmem₁, CHECK_of hnext, CHECK_of hfree, hmem₂, hmem₃, hrounded, hpoison, checked_some, ok_bind,
      hget₃ .chunk_state, hstate₂, CHECK_of, pure_eq_ok]
    rfl
  · have hc1 := Field.le_bytes .chunk_state
    have hc2 := Field.le_bytes .free_tid
    have hle := hc.le_size hg
    dsimp only
    rw [hstack a (by omega), ← hmem₂, set_outside (by omega), ← hmem₁, set_outside (by omega)]
  · exact (memset_granule h8 h8round).trans (if_neg (by omega))
  · dsimp only
    rw [hget₃, hstate₂, hp]
  · dsimp only
    rw [hget₃, hget₂ _ (by decide) (by decide), hok.size_class]
  · intro c hcl
    rw [hlist] at hcl
    cases hcl
  · dsimp only
    rw [Beg, hget₃, hget₂ _ (by decide) (by decide), hsize₃]
    exact hok.headed
  · rintro rfl
    exact absurd hp (by decide)
  · exact fun _ => hneg
  · dsimp only
    rw [hget₃, hget₂ _ (by decide) (by decide)]

/-! ## The queue -/

theorem push_runs (h : Fifo s.memory q l) (hn0 : m ≠ 0) (hlt : m < 2^64) (hsize : Size s.memory m = some n)
    (hnodup : (l ++ [m]).Nodup) (hap : HeadersApart (l ++ [m])) (hnext : ¬bad → get s.memory m .next = 0) :
    Runs bad (q.Push m s.memory) fun r => Fifo r.2 r.1 (l ++ [m]) ∧ LinksOnly l s.memory r.2 := by
  rw [AsanChunkFifoList.Push]
  refine (Runs.check hnext).bind fun _ hzero => Runs.of_exists ?_
  obtain ⟨q',mem',hpush,hfifo,hlinks,-⟩ := h.push hn0 hlt hzero hsize hnodup hap
  rw [AsanChunkFifoList.Push, CHECK_of hzero, ok_bind] at hpush
  exact ⟨(q',mem'),hpush,hfifo,hlinks⟩

/-- The layout with a chunk that was freed at the end of a queue. -/
def Layout.enqueue (L : Layout) (p : Place) (m : ℕ) : Layout where
  groups := L.groups
  held := Function.update (Function.update L.held .user ((L.held .user).erase m)) p (L.held p ++ [m])

theorem enqueue_other {p' : Place} (hp : p' ≠ p) (hu : p' ≠ .user) : (L.enqueue p m).held p' = L.held p' := by
  rw [Layout.enqueue]
  dsimp only
  rw [Function.update_of_ne hp, Function.update_of_ne hu]

theorem enqueue_user (hp : p ≠ .user) : (L.enqueue p m).held .user = (L.held .user).erase m := by
  rw [Layout.enqueue]
  dsimp only
  rw [Function.update_of_ne hp.symm, Function.update_self]

theorem enqueue_self : (L.enqueue p m).held p = L.held p ++ [m] := by
  rw [Layout.enqueue]
  dsimp only
  rw [Function.update_self]

theorem enqueue_passes : L.Passes flags (L.enqueue p m) := by
  intro size _
  by_cases hp : p = .quarantine
  · subst hp
    rw [enqueue_self]
    exact Passed.push _ _
  · rw [enqueue_other (Ne.symm hp) (by simp)]
    exact Passed.refl _

/-- A chunk has gone from the user to a queue. -/
structure Enqueued (flags : Flags) (s s' : MallocInfo) (L : Layout) (p : Place) (m : ℕ) : Prop where
  core : Core flags s' (L.enqueue p m)
  lists : Lists s' (L.enqueue p m)
  kept : Kept s s' L ((L.held .user).erase m)

theorem Retired.core (h : Retired flags s s₁ g m) (hc : Core flags s L) (hg : g ∈ L.groups) (hmg : m ∈ g.chunks)
    (hm : m ∈ L.held .user) (hp : p.state = CHUNK_QUARANTINE) (hlist : p.listClass = none) :
    Core flags s₁ (L.enqueue p m) := by
  have hne : Place.user ≠ p := by
    rintro rfl
    exact absurd hp (by decide)
  have hperm : ((L.held .user).erase m ++ (L.held p ++ [m])).Perm (L.held .user ++ L.held p) := by
    have hlast : (L.held p ++ [m]).Perm (m :: L.held p) := List.perm_append_singleton m (L.held p)
    have hback : (m :: (L.held .user).erase m).Perm (L.held .user) := (List.perm_cons_erase hm).symm
    exact (hlast.append_left _).trans (List.perm_middle.trans (hback.append_right _))
  have hpages : s₁.page_groups_ = s.page_groups_ := by rw [h.rest]
  refine hc.change hpages hg hmg hm hne h.within (h.ok p hp hlist) hperm (by simp) (fun y hy => List.mem_of_mem_erase hy)
    fun y hy => ?_
  rcases List.mem_append.mp hy with hy | hy
  · exact .inr hy
  · exact .inl (List.mem_singleton.mp hy)

theorem Retired.enqueued (h : Retired flags s s₁ g m) (hc : Core flags s L) (hl : Lists s L) (hg : g ∈ L.groups)
    (hmg : m ∈ g.chunks) (hm : m ∈ L.held .user) (hp : p.state = CHUNK_QUARANTINE) (hlist : p.listClass = none)
    (hlinks : LinksOnly (L.held p) s₁.memory s'.memory) (hsh : s'.shadow = s₁.shadow)
    (hpages : s'.page_groups_ = s₁.page_groups_) (hheads : ∀ p', p' ≠ p → SameHead s s' p')
    (hself : ListAt s' (L.held p ++ [m]) p) : Enqueued flags s s' L p m := by
  have hne : p ≠ .user := by
    rintro rfl
    exact absurd hp (by decide)
  have hcore := h.core hc hg hmg hm hp hlist
  have hin : ∀ y ∈ L.held p, y ∈ (L.enqueue p m).held p := fun y hy => by
    rw [enqueue_self]
    exact List.mem_append_left _ hy
  have hnot : ∀ p', p' ≠ .user → m ∉ L.held p' := fun p' hp' hmp => hp' (hc.spread.disjoint p' .user m hmp hm)
  refine ⟨(hcore.setLinks (fun y hy => ⟨p,hne,hin y hy⟩) hlinks).of_eq hpages rfl hsh,fun p' => ?_,fun y hy g' hg' hyg => ?_⟩
  · by_cases hpp : p' = p
    · subst hpp
      rw [enqueue_self]
      exact hself
    · by_cases hpu : p' = .user
      · subst hpu
        trivial
      · have hother := enqueue_other (L := L) (m := m) hpp hpu
        have hold : ∀ y ∈ L.held p', ∀ f, get s₁.memory y f = get s.memory y f := fun y hy =>
          hc.other_get hg hmg h.within (ne_of_mem_of_not_mem hy (hnot p' hpu)) hy
        rw [hother]
        refine (hl p').congr (hheads p' hpp) (fun y hy => ?_) fun y hy => ?_
        · exact (hcore.next_stable hin hlinks hpp (by rwa [hother])).trans (hold y hy .next)
        · rw [hcore.size_stable (fun z hz => ⟨p,hin z hz⟩) hlinks (p := p') (by rwa [hother]), Size, Size, hold y hy]
  · have hyu : y ∈ L.held .user := List.mem_of_mem_erase hy
    have hym : y ≠ m := fun heq => (hc.spread.nodup .user).not_mem_erase (heq ▸ hy)
    have hap := hc.chunks_apart hg' hg hyg hmg hym
    have hsame := Same.of_within h.within hap
    have hsame' := hcore.kept_links (fun z hz => ⟨p,hne,hin z hz⟩) hlinks hsh y (by rwa [enqueue_user hne]) g' hg' hyg
    exact hsame.trans hsame'

/-! ## The call -/

/-- A block has been freed. -/
structure Deallocated (flags : Flags) (s s' : MallocInfo) (L L' : Layout) (m : ℕ) : Prop where
  core : Core flags s' L'
  lists : Lists s' L'
  groups : L'.groups = L.groups
  pages : s'.page_groups_.Perm s.page_groups_
  indexed : Indexed s'
  kept : Kept s s' L ((L.held .user).erase m)
  user : L'.held .user = (L.held .user).erase m
  taken : L'.held .taken = L.held .taken
  passes : L.Passes flags L'
  threads : ∀ t, (s'.threads t).isSome = (s.threads t).isSome
  waiting : ∀ t, s.threads t = none → L'.held (.waiting t) = L.held (.waiting t)
  cached : ∀ t c, L'.held (.cached t c) = L.held (.cached t c)

theorem Enqueued.deallocated (h : Enqueued flags s s' L p m) (hi : Indexed s) (hne : p ≠ .user) (htaken : p ≠ .taken)
    (hcached : ∀ t c, p ≠ .cached t c) (hdead : ∀ t, s.threads t = none → p ≠ .waiting t)
    (hpages : s'.page_groups_ = s.page_groups_) (hsorted : s'.n_sorted_page_groups_ = s.n_sorted_page_groups_)
    (hthreads : ∀ t, (s'.threads t).isSome = (s.threads t).isSome) : Deallocated flags s s' L (L.enqueue p m) m where
  core := h.core
  lists := h.lists
  groups := rfl
  pages := hpages ▸ List.Perm.refl _
  indexed := by
    rw [Indexed, hpages, hsorted]
    exact hi
  kept := h.kept
  user := enqueue_user hne
  taken := enqueue_other htaken.symm (by simp)
  passes := enqueue_passes
  threads := hthreads
  waiting := fun t hnone => enqueue_other (hdead t hnone).symm (by simp)
  cached := fun t c => enqueue_other (hcached t c).symm (by simp)

/-- The list of a thread that is full goes to the quarantine. -/
theorem Deallocated.swallowed (h : Deallocated flags s s₁ L L₁ m) (h' : Swallowed flags t s₁ s' L₁ L')
    (ht : (s.threads t).isSome) : Deallocated flags s s' L L' m where
  core := h'.shifted.core
  lists := h'.shifted.lists
  groups := h'.shifted.groups.trans h.groups
  pages := h'.shifted.pages.1 ▸ h.pages
  indexed := by
    rw [Indexed, h'.shifted.pages.1, h'.shifted.pages.2]
    exact h.indexed
  kept := h.kept.trans (h.user ▸ h'.shifted.kept) (h.groups.trans (List.append_nil _).symm)
  user := h'.shifted.user.trans h.user
  taken := h'.shifted.taken.trans h.taken
  passes := h.passes.trans h'.passes fun _ hg => h'.shifted.groups.symm ▸ hg
  threads := fun t => (h'.shifted.threads t).trans (h.threads t)
  waiting := fun t' hnone => by
    have hne : t' ≠ t := by
      rintro rfl
      rw [hnone] at ht
      cases ht
    rw [h'.held (.waiting t') (by simp [hne]) (by simp) (by simp), h.waiting t' hnone]
  cached := fun t' c => by rw [h'.held (.cached t' c) (by simp) (by simp) (by simp), h.cached]

theorem enqueue_runs (h : Retired flags s s₁ g m) (hc : Core flags s L) (hl : Lists s L) (hi : Indexed s)
    (hg : g ∈ L.groups) (hmg : m ∈ g.chunks) (hm : m ∈ L.held .user) (hred : flags.redzone ≤ 4096)
    (hnext : ¬bad → get s.memory m .next = 0) (hquarantine : ¬bad → 0 < flags.quarantine_size) :
    Runs bad (s₁.enqueue flags t m) fun s' => ∃ L', Deallocated flags s s' L L' m := by
  have hrest := h.rest
  have hthreads : s₁.threads = s.threads := by rw [hrest]
  have hpages : s₁.page_groups_ = s.page_groups_ ∧ s₁.n_sorted_page_groups_ = s.n_sorted_page_groups_ := by rw [hrest]; simp
  have hm0 := hc.ne_zero hm
  have hlt : m < 2^64 := (hc.lt_word hm).trans (by norm_num)
  have hother : ∀ p, p ≠ .user → ∀ y ∈ L.held p, ∀ f, get s₁.memory y f = get s.memory y f := by
    intro p hp y hy
    refine hc.other_get hg hmg h.within ?_ hy
    rintro rfl
    exact hp (hc.spread.disjoint p .user y hy hm)
  have hsize : Size s₁.memory m = some g.size := by
    rw [Size, (h.ok .quarantine rfl rfl).size_class]
    exact (hc.used g hg).size_eq
  -- the queue at a place for freed chunks, with the chunk behind it
  have hpush : ∀ p, p.state = CHUNK_QUARANTINE → p.listClass = none → ∀ q : AsanChunkFifoList,
      Fifo s.memory q (L.held p) → Runs bad (q.Push m s₁.memory) fun r =>
        Fifo r.2 r.1 (L.held p ++ [m]) ∧ LinksOnly (L.held p) s₁.memory r.2 := by
    intro p hp hlist q hq
    have hpu : p ≠ .user := by
      rintro rfl
      exact absurd hp (by decide)
    have hcore := h.core hc hg hmg hm hp hlist
    have hnodup := hcore.spread.nodup p
    have hap := hcore.headersApart p
    rw [enqueue_self] at hnodup hap
    exact push_runs (hq.congr (fun y hy => hother p hpu y hy .next) fun y hy => by rw [Size, Size, hother p hpu y hy])
      hm0 hlt hsize hnodup hap fun hbad => h.next.trans (hnext hbad)
  rw [MallocInfo.enqueue]
  cases ht : s₁.threads t with
  | none =>
    have hqueue : s₁.quarantine_ = s.quarantine_ := by rw [hrest]
    rw [MallocInfo.BypassThreadLocalQuarantine, hqueue]
    refine (hpush .quarantine rfl rfl s.quarantine_ (hl .quarantine)).bind fun r hr => Runs.ok ?_
    obtain ⟨hfifo,hlinks⟩ := hr
    have hheads : ∀ p', p' ≠ .quarantine → SameHead s { s₁ with quarantine_ := r.1, memory := r.2 } p' := by
      intro p' hp'
      rw [hrest]
      cases p' with
      | free c => rfl
      | cached t' c => exact fun x' hx' => ⟨x',hx',rfl⟩
      | waiting t' => exact fun x' hx' => ⟨x',hx',rfl⟩
      | quarantine => exact absurd rfl hp'
      | taken => trivial
      | user => trivial
    have hqueued : Enqueued flags s { s₁ with quarantine_ := r.1, memory := r.2 } L .quarantine m :=
      h.enqueued hc hl hg hmg hm rfl rfl hlinks rfl rfl hheads hfifo
    exact ⟨_,hqueued.deallocated hi (by simp) (by simp) (by simp) (by simp) hpages.1 hpages.2 fun t' => by rw [← hthreads]⟩
  | some x =>
    have hx : s.threads t = some x := hthreads ▸ ht
    have hsome : (s.threads t).isSome := by rw [hx]; rfl
    refine (hpush (.waiting t) rfl rfl x.quarantine_ (hl (.waiting t) x hx)).bind fun r hr => ?_
    obtain ⟨hfifo,hlinks⟩ := hr
    obtain ⟨q,mem⟩ := r
    dsimp only at hfifo hlinks ⊢
    have hheads : ∀ p', p' ≠ .waiting t → SameHead s { s₁ with
        memory := mem, threads := Function.update s₁.threads t (some { x with quarantine_ := q }) } p' := by
      intro p' hp'
      rw [hrest]
      cases p' with
      | free c => rfl
      | cached t' c =>
        intro x' hx'
        dsimp only at hx'
        by_cases htt : t' = t
        · subst htt
          rw [Function.update_self] at hx'
          cases hx'
          exact ⟨x,hx,rfl⟩
        · rw [Function.update_of_ne htt] at hx'
          exact ⟨x',hx',rfl⟩
      | waiting t' =>
        intro x' hx'
        dsimp only at hx'
        have htt : t' ≠ t := fun htt => hp' (by rw [htt])
        rw [Function.update_of_ne htt] at hx'
        exact ⟨x',hx',rfl⟩
      | quarantine => rfl
      | taken => trivial
      | user => trivial
    have hself : ListAt { s₁ with
        memory := mem, threads := Function.update s₁.threads t (some { x with quarantine_ := q }) }
        (L.held (.waiting t) ++ [m]) (.waiting t) := by
      intro x' hx'
      dsimp only at hx'
      rw [Function.update_self] at hx'
      cases hx'
      exact hfifo
    have hsomes : ∀ t', (Function.update s₁.threads t (some { x with quarantine_ := q }) t').isSome =
        (s.threads t').isSome := by
      intro t'
      by_cases htt : t' = t
      · rw [htt, Function.update_self, hsome]
        rfl
      · rw [Function.update_of_ne htt, hthreads]
    have hdead : ∀ t', s.threads t' = none → Place.waiting t ≠ .waiting t' := by
      rintro t' hnone heq
      cases heq
      rw [hx] at hnone
      cases hnone
    have hqueued : Enqueued flags s { s₁ with
        memory := mem, threads := Function.update s₁.threads t (some { x with quarantine_ := q }) } L (.waiting t) m :=
      h.enqueued hc hl hg hmg hm rfl rfl hlinks rfl rfl hheads hself
    have hdone := hqueued.deallocated hi (by simp) (by simp) (by simp) hdead hpages.1 hpages.2 hsomes
    split_ifs with hfull
    · refine (swallow_runs hdone.core hdone.lists hred hquarantine).mono fun s' hs' => ?_
      obtain ⟨L',h'⟩ := hs'
      exact ⟨L',hdone.swallowed h' hsome⟩
    · exact Runs.ok ⟨_,hdone⟩

theorem debugCheck_ok (hc : Core flags s L) (hi : Indexed s) (hg : g ∈ L.groups) (hf : g.Finds ptr) :
    ∃ s', s.debugCheck flags ptr = .ok s' ∧ Resorted s s' := by
  rw [MallocInfo.debugCheck]
  split_ifs
  · obtain ⟨r,s',hfind,h⟩ := findPageGroup_ok hc hi ptr
    have hpage := hc.page_le hg
    have hbeg := (hc.mapped g hg).1
    have hr : r ≠ 0 := by
      rw [h.found g hg hf]
      omega
    exact ⟨s',by simp [hfind, CHECK_of, hr],h.resorted⟩
  · exact ⟨s,rfl,rfl,List.Perm.refl _,hi⟩

theorem Deallocated.resorted (h : Deallocated flags s₁ s' L L' m) (hr : Resorted s s₁) : Deallocated flags s s' L L' m where
  core := h.core
  lists := h.lists
  groups := h.groups
  pages := h.pages.trans hr.perm
  indexed := h.indexed
  kept := fun y hy g' hg' hyg =>
    ⟨hr.memory ▸ (h.kept y hy g' hg' hyg).memory,hr.shadow ▸ (h.kept y hy g' hg' hyg).shadow⟩
  user := h.user
  taken := h.taken
  passes := h.passes
  threads := hr.threads ▸ h.threads
  waiting := hr.threads ▸ h.waiting
  cached := h.cached

/-- The address of a block is in the group of its chunk. -/
theorem Core.finds (hc : Core flags s L) (hg : g ∈ L.groups) (hmg : m ∈ g.chunks) (hlow : m ≤ ptr)
    (hhigh : ptr ≤ m + g.size) : g.Finds ptr := by
  have hr := hc.chunk_range hg hmg
  exact ⟨by omega,by omega⟩

/-- A block is put into a queue once its header and its shadow are those of a freed one. -/
structure Retires (flags : Flags) (s s₁ s₂ : MallocInfo) (g : Group) (m t ptr : ℕ) (stack : StackTrace 64) : Prop where
  chunk : m ∈ g.chunks
  owned : Owned flags s.memory s.shadow g.size m ptr
  resorted : Resorted s s₁
  retired : Retired flags s₁ s₂ g m
  eq : s.Deallocate flags t ptr stack = s₂.enqueue flags t m

theorem deallocate_retires (t : ℕ) (stack : StackTrace 64) (hc : Core flags s L) (hi : Indexed s) (hm : m ∈ L.held .user)
    (hbeg : Beg s.memory m = some ptr) :
    ∃ g ∈ L.groups, ∃ s₁ s₂, Retires flags s s₁ s₂ g m t ptr stack := by
  obtain ⟨g,hg,hmg,hok⟩ := hc.ok hm
  obtain ⟨addr,howned⟩ := hok.owned rfl
  obtain rfl : ptr = addr := Option.some.inj (hbeg.symm.trans howned.beg)
  have hpos := flags.pos
  have hbehind := howned.behind
  have hfits := howned.fits
  have hfinds : g.Finds ptr := hc.finds hg hmg (by omega) (by omega)
  obtain ⟨s₁,hdebug,hr⟩ := debugCheck_ok hc hi hg hfinds
  have hptr : MallocInfo.PtrToChunk flags s₁.memory ptr = m := by rw [hr.memory, howned.ptr]
  have hc₁ := hr.core hc
  obtain ⟨s₂,hretire,h⟩ := retire_ok t stack hc₁ hg hmg (hc₁.chunk g hg m hmg .user hm) (by
    rw [hr.memory, hr.shadow]
    exact howned)
  refine ⟨g,hg,s₁,s₂,hmg,howned,hr,h,?_⟩
  rw [MallocInfo.Deallocate, if_neg (by omega), hdebug, ok_bind, hptr]
  dsimp only
  rw [hretire, ok_bind]

theorem deallocate_runs (hc : Core flags s L) (hl : Lists s L) (hi : Indexed s) (hm : m ∈ L.held .user)
    (hbeg : Beg s.memory m = some ptr) (hred : flags.redzone ≤ 4096)
    (hnext : ¬bad → 16 < flags.redzone ∨ get s.memory m .next = 0) (hquarantine : ¬bad → 0 < flags.quarantine_size) :
    Runs bad (s.Deallocate flags t ptr stack) fun s' => ∃ L', Deallocated flags s s' L L' m := by
  obtain ⟨g,hg,s₁,s₂,h⟩ := deallocate_retires t stack hc hi hm hbeg
  have hr := h.resorted
  have hzero : ¬bad → get s₁.memory m .next = 0 := fun hbad => hr.memory ▸ (hnext hbad).elim h.owned.next id
  rw [h.eq]
  refine (enqueue_runs h.retired (hr.core hc) (hr.lists hl) hr.indexed hg h.chunk hm hred hzero hquarantine).mono
    fun s' hs' => ?_
  obtain ⟨L',h'⟩ := hs'
  exact ⟨L',h'.resorted hr⟩

/-- With the smallest redzone the link of a chunk is in the user's bytes, and has to be zero there. -/
theorem deallocate_linked (hc : Core flags s L) (hi : Indexed s) (hm : m ∈ L.held .user)
    (hbeg : Beg s.memory m = some ptr) (hnext : get s.memory m .next ≠ 0) :
    s.Deallocate flags t ptr stack = .error .check := by
  obtain ⟨g,hg,s₁,s₂,h⟩ := deallocate_retires t stack hc hi hm hbeg
  have hlink : get s₂.memory m .next ≠ 0 := by
    rw [h.retired.next, h.resorted.memory]
    exact hnext
  have hpush : ∀ q : AsanChunkFifoList, q.Push m s₂.memory = .error .check := by
    intro q
    rw [AsanChunkFifoList.Push, CHECK, if_neg hlink]
    rfl
  rw [h.eq, MallocInfo.enqueue]
  cases s₂.threads t with
  | none =>
    dsimp only
    rw [MallocInfo.BypassThreadLocalQuarantine, hpush]
    rfl
  | some x =>
    dsimp only
    rw [hpush]
    rfl

/-- Freeing a chunk that the user does not have is reported. -/
theorem deallocate_reported (hc : Core flags s L) (hi : Indexed s) (hm : m ∈ L.held p) (hp : p ≠ .user) :
    s.Deallocate flags t (m + flags.redzone) stack =
      .error (if p.state = CHUNK_QUARANTINE then .doubleFree else .freeNotMalloced) := by
  obtain ⟨g,hg,hmg,hok⟩ := hc.ok hm
  have hpos := flags.pos
  have htwo := (hc.used g hg).redzones
  obtain ⟨s₁,hdebug,hr⟩ := debugCheck_ok hc hi hg (hc.finds hg hmg (Nat.le_add_right m flags.redzone) (by omega))
  have hstate : get s₁.memory m .chunk_state = p.state := by rw [hr.memory, hok.state]
  have hmark : p.state ≠ CHUNK_MEMALIGN := by
    cases p <;> simp [Place.state, CHUNK_AVAILABLE, CHUNK_ALLOCATED, CHUNK_QUARANTINE, CHUNK_MEMALIGN]
  have hptr : MallocInfo.PtrToChunk flags s₁.memory (m + flags.redzone) = m := by
    rw [MallocInfo.PtrToChunk, Nat.add_sub_cancel, hstate, if_neg hmark]
  have hfree : p.state ≠ CHUNK_ALLOCATED := fun h => hp (Place.eq_user h)
  have hretire : s₁.retire flags t m (m + flags.redzone) stack =
      .error (if p.state = CHUNK_QUARANTINE then .doubleFree else .freeNotMalloced) := by
    rw [MallocInfo.retire, hstate]
    split_ifs
    · rfl
    · rfl
  rw [MallocInfo.Deallocate, if_neg (by omega), hdebug, ok_bind, hptr]
  dsimp only
  rw [hretire]
  rfl

end CompilerRt.AsanAllocator
