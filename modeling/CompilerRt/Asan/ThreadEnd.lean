import CompilerRt.Asan.Swallow
import Mathlib

/-! # The end of a thread

A thread that returns gives back all that it has.
-/
namespace CompilerRt.AsanAllocator
open Sanitizer AsanMapping
open AsanChunk

variable {flags : Flags} {s s' s₁ : MallocInfo} {L L' L₁ : Layout} {g : Group} {p : Place} {m n t fuel size_class : ℕ}
  {rest l classes : List ℕ} {x : AsanThreadLocalMallocStorage} {bad : Prop}

/-- The free chunks of one class have left the thread; its own pointer to them is still there. -/
structure Eaten (flags : Flags) (t size_class : ℕ) (s s' : MallocInfo) (L L' : Layout) : Prop where
  core : Core flags s' L'
  lists : ∀ p, p ≠ .cached t size_class → ListAt s' (L'.held p) p
  groups : L'.groups = L.groups
  pages : s'.page_groups_ = s.page_groups_ ∧ s'.n_sorted_page_groups_ = s.n_sorted_page_groups_
  kept : Kept s s' L (L.held .user)
  cached : L'.held (.cached t size_class) = []
  held : ∀ p, p ≠ .cached t size_class → p ≠ .free size_class → L'.held p = L.held p
  threads : s'.threads = s.threads

/-- The state and the layout once one chunk has gone from the list of the thread to the free list. -/
def eaten (s : MallocInfo) (size_class m : ℕ) : MallocInfo :=
  { s with
    memory := set s.memory m .next (s.free_lists_ size_class)
    free_lists_ := Function.update s.free_lists_ size_class m }

def Layout.eaten (L : Layout) (t size_class m : ℕ) (rest : List ℕ) : Layout where
  groups := L.groups
  held := Function.update (Function.update L.held (.cached t size_class) rest) (.free size_class)
    (m :: L.held (.free size_class))

theorem eat_one (hc : Core flags s L) (hl : ∀ p, p ≠ .cached t size_class → ListAt s (L.held p) p)
    (hcached : L.held (.cached t size_class) = m :: rest) :
    Core flags (eaten s size_class m) (L.eaten t size_class m rest) ∧
      (∀ p, p ≠ .cached t size_class → ListAt (eaten s size_class m) ((L.eaten t size_class m rest).held p) p) ∧
      Kept s (eaten s size_class m) L (L.held .user) ∧
      ∀ y ∈ rest, nextOf (eaten s size_class m).memory y = nextOf s.memory y := by
  have hm : m ∈ L.held (.cached t size_class) := hcached ▸ List.mem_cons_self
  have hfree : Chain (nextOf s.memory) (s.free_lists_ size_class) (L.held (.free size_class)) := hl (.free size_class) (by simp)
  have hword : s.free_lists_ size_class < 256^8 := by
    by_cases hzero : s.free_lists_ size_class = 0
    · rw [hzero]
      decide
    · obtain ⟨l',hl',-⟩ := hfree.tail hzero
      have hlt := hc.lt_word (p := .free size_class) (m := s.free_lists_ size_class) (hl' ▸ List.mem_cons_self)
      omega
  have hlinks : LinksOnly [m] s.memory (set s.memory m .next (s.free_lists_ size_class)) :=
    LinksOnly.set (List.mem_singleton.mpr rfl) _
  have hin : ∀ y ∈ [m], y ∈ L.held (.cached t size_class) := fun y hy => List.mem_singleton.mp hy ▸ hm
  have hset := hc.setLinks (fun y hy => ⟨.cached t size_class,nofun,hin y hy⟩) hlinks
  have hperm : (rest ++ m :: L.held (.free size_class)).Perm
      (L.held (.cached t size_class) ++ L.held (.free size_class)) := by
    rw [hcached, List.cons_append]
    exact List.perm_middle
  have hclass : ∀ y ∈ L.held (.cached t size_class), L.IsOf size_class y := fun y hy => hc.isOf hy rfl
  have hcore := hset.exchange (i := .cached t size_class) (j := .free size_class) (by simp) rfl hperm
    (fun y hy c hcl => by
      cases hcl
      exact hclass y (hcached ▸ List.mem_cons_of_mem m hy))
    fun y hy c hcl => by
      cases hcl
      rcases List.mem_cons.mp hy with rfl | hy
      · exact hclass y hm
      · exact hc.isOf hy rfl
  have hstable := fun p (hp : p ≠ Place.cached t size_class) y (hy : y ∈ L.held p) => hc.next_stable hin hlinks hp hy
  have hsizes := fun p y (hy : y ∈ L.held p) => hc.size_stable (fun z hz => ⟨_,hin z hz⟩) hlinks hy
  have hrest : m ∉ rest := (List.nodup_cons.mp (hcached ▸ hc.spread.nodup _)).1
  refine ⟨hcore.of_eq rfl rfl rfl,fun p hp => ?_,hc.kept_links (fun y hy => ⟨_,by simp,hin y hy⟩) hlinks rfl,
    fun y hy => hlinks.next_eq fun z hz => ?_⟩
  · rw [Layout.eaten]
    dsimp only
    by_cases hpf : p = .free size_class
    · subst hpf
      rw [ListAt, Function.update_self, eaten]
      dsimp only
      rw [Function.update_self]
      exact (hfree.congr (hstable _ (by simp))).cons (hc.ne_zero hm) (get_set hword)
    · rw [Function.update_of_ne hpf, Function.update_of_ne hp]
      exact (hl p hp).congr (sameHead_free hpf) (hstable p hp) (hsizes p)
  · rw [List.mem_singleton.mp hz]
    exact hc.headers_apart hm (hcached ▸ List.mem_cons_of_mem m hy) (fun heq => hrest (heq ▸ hy))

theorem eatList_ok (hc : Core flags s L) (hl : ∀ p, p ≠ .cached t size_class → ListAt s (L.held p) p)
    (hcached : L.held (.cached t size_class) = l) (hchain : Chain (nextOf s.memory) m l) (hfuel : l.length < fuel) :
    ∃ s' L', MallocInfo.eatList size_class fuel m s = .ok s' ∧ Eaten flags t size_class s s' L L' := by
  induction l generalizing s L m fuel with
  | nil =>
    obtain ⟨fuel,rfl⟩ := Nat.exists_eq_succ_of_ne_zero (Nat.ne_zero_of_lt hfuel)
    have hm : m = 0 := hchain
    rw [MallocInfo.eatList, if_pos hm]
    exact ⟨s,L,rfl,hc,hl,rfl,⟨rfl,rfl⟩,Kept.refl s L _,hcached,fun _ _ _ => rfl,rfl⟩
  | cons y rest ih =>
    obtain ⟨fuel,rfl⟩ := Nat.exists_eq_succ_of_ne_zero (Nat.ne_zero_of_lt hfuel)
    obtain ⟨rfl,hm0,htail⟩ := hchain
    obtain ⟨hcore,hlists,hkept,hnext⟩ := eat_one hc hl hcached
    rw [MallocInfo.eatList, if_neg hm0]
    have hfewer : rest.length < fuel := by
      rw [List.length_cons] at hfuel
      omega
    have hrest : (L.eaten t size_class m rest).held (.cached t size_class) = rest := by
      rw [Layout.eaten]
      dsimp only
      rw [Function.update_of_ne (by simp), Function.update_self]
    have hother : ∀ p, p ≠ .cached t size_class → p ≠ .free size_class →
        (L.eaten t size_class m rest).held p = L.held p := by
      intro p h1 h2
      rw [Layout.eaten]
      dsimp only
      rw [Function.update_of_ne h2, Function.update_of_ne h1]
    obtain ⟨s',L',hrun,h⟩ := ih hcore hlists hrest (htail.congr hnext) hfewer
    have hkept' := h.kept
    rw [hother .user nofun nofun] at hkept'
    exact ⟨s',L',hrun,h.core,h.lists,h.groups,h.pages,hkept.trans hkept' (List.append_nil L.groups).symm,h.cached,
      fun p h1 h2 => (h.held p h1 h2).trans (hother p h1 h2),h.threads⟩

/-- The free chunks of some classes have left the thread. -/
structure EatenAll (flags : Flags) (t : ℕ) (classes : List ℕ) (s s' : MallocInfo) (L L' : Layout) : Prop where
  shifted : Shifted flags s s' L L'
  cached : ∀ c ∈ classes, L'.held (.cached t c) = []
  fewer : ∀ c, L.held (.cached t c) = [] → L'.held (.cached t c) = []
  held : ∀ p, (∀ c, p ≠ .cached t c) → (∀ c, p ≠ .free c) → L'.held p = L.held p

theorem eatClass_ok (size_class : ℕ) (hc : Core flags s L) (hl : Lists s L) (ht : (s.threads t).isSome) :
    ∃ s' L', s.eatClass t size_class = .ok s' ∧ EatenAll flags t [size_class] s s' L L' := by
  obtain ⟨x,hx⟩ := Option.isSome_iff_exists.mp ht
  obtain ⟨s₁,L₁,hrun,h⟩ := eatList_ok hc (fun p _ => hl p) rfl (hl (.cached t size_class) x hx)
    (hc.length_lt (.cached t size_class))
  have hpages := h.pages
  refine ⟨{ s₁ with threads := Function.update s₁.threads t (some { x with
      free_lists_ := Function.update x.free_lists_ size_class 0 }) },L₁,?_,⟨h.core.of_eq rfl rfl rfl,fun p => ?_,h.groups,hpages,h.kept.of_eq rfl rfl,h.held .user nofun nofun,
    h.held .taken nofun nofun,fun t' => ?_⟩,fun c hcl => ?_,fun c hcl => ?_,fun p h1 h2 => h.held p (h1 _) (h2 _)⟩
  · rw [MallocInfo.eatClass, hx]
    dsimp only
    rw [hrun, ok_bind, h.threads]
    rfl
  · by_cases hp : p = .cached t size_class
    · subst hp
      rw [h.cached]
      intro x' hx'
      dsimp only at hx'
      rw [Function.update_self] at hx'
      cases hx'
      exact Function.update_self ..
    · refine (h.lists p hp).congr ?_ (fun _ _ => rfl) fun _ _ => rfl
      cases p with
      | free c => rfl
      | cached t' c =>
        intro x' hx'
        dsimp only at hx'
        by_cases htt : t' = t
        · subst htt
          rw [Function.update_self] at hx'
          cases hx'
          exact ⟨x,h.threads ▸ hx,Function.update_of_ne (fun hcc => hp (by rw [hcc])) _ _⟩
        · rw [Function.update_of_ne htt] at hx'
          exact ⟨x',hx',rfl⟩
      | waiting t' =>
        intro x' hx'
        dsimp only at hx'
        by_cases htt : t' = t
        · subst htt
          rw [Function.update_self] at hx'
          cases hx'
          exact ⟨x,h.threads ▸ hx,rfl⟩
        · rw [Function.update_of_ne htt] at hx'
          exact ⟨x',hx',rfl⟩
      | quarantine => rfl
      | taken => trivial
      | user => trivial
  · dsimp only
    by_cases htt : t' = t
    · subst htt
      rw [Function.update_self, hx]
      rfl
    · rw [Function.update_of_ne htt, h.threads]
  · rw [List.mem_singleton.mp hcl]
    exact h.cached
  · by_cases hcc : c = size_class
    · rw [hcc]
      exact h.cached
    · rw [h.held _ (by simp [hcc]) (by simp), hcl]

theorem eatClasses_ok (classes : List ℕ) (hc : Core flags s L) (hl : Lists s L) (ht : (s.threads t).isSome) :
    ∃ s' L', classes.foldlM (fun s size_class => s.eatClass t size_class) s = .ok s' ∧
      EatenAll flags t classes s s' L L' := by
  induction classes generalizing s L with
  | nil => exact ⟨s,L,rfl,Shifted.refl hc hl,fun _ h => absurd h List.not_mem_nil,fun _ h => h,fun _ _ _ => rfl⟩
  | cons c classes ih =>
    obtain ⟨s₁,L₁,hrun,h⟩ := eatClass_ok c hc hl ht
    obtain ⟨s',L',hruns,h'⟩ := ih h.shifted.core h.shifted.lists ((h.shifted.threads t).symm ▸ ht)
    refine ⟨s',L',?_,h.shifted.trans h'.shifted,fun c' hc' => ?_,fun c' hnil => h'.fewer c' (h.fewer c' hnil),
      fun p h1 h2 => (h'.held p h1 h2).trans (h.held p h1 h2)⟩
    · rw [List.foldlM_cons, hrun]
      exact hruns
    · rcases List.mem_cons.mp hc' with rfl | hc'
      · exact h'.fewer c' (h.cached c' (List.mem_singleton.mpr rfl))
      · exact h'.cached c' hc'

/-- Giving all back is giving the freed chunks back first. -/
theorem swallow_all (hx : s.threads t = some x) : s.SwallowThreadLocalMallocStorage flags t true =
    s.SwallowThreadLocalMallocStorage flags t false >>= fun s =>
      (List.range kNumberOfSizeClasses).foldlM (fun s size_class => s.eatClass t size_class) s := by
  rw [MallocInfo.SwallowThreadLocalMallocStorage, MallocInfo.SwallowThreadLocalMallocStorage, hx]
  by_cases hsize : x.quarantine_.size_ > 0
  · simp [hsize]
  · simp [hsize]

/-- The chunks of a class that is used by no group. -/
theorem Core.cached_nil (h : Core flags s L) (hclass : 255 ≤ size_class) : L.held (.cached t size_class) = [] := by
  refine List.eq_nil_iff_forall_not_mem.mpr fun m hm => ?_
  obtain ⟨g,hg,hmg⟩ := h.group_of hm
  have heq := h.isOf hm rfl g hg hmg
  have hlt := (h.used g hg).lt
  omega

/-- The thread is gone, and has no chunk any more where it was there. -/
structure Returned (flags : Flags) (t : ℕ) (s s' : MallocInfo) (L L' : Layout) : Prop where
  core : Core flags s' L'
  lists : Lists s' L'
  groups : L'.groups = L.groups
  pages : s'.page_groups_ = s.page_groups_ ∧ s'.n_sorted_page_groups_ = s.n_sorted_page_groups_
  kept : Kept s s' L (L.held .user)
  user : L'.held .user = L.held .user
  taken : L'.held .taken = L.held .taken
  passes : L.Passes flags L'
  threads : ∀ t', (s'.threads t').isSome = (decide (t' ≠ t) && (s.threads t').isSome)
  none_left : (s.threads t).isSome → L'.held (.waiting t) = [] ∧ ∀ c, L'.held (.cached t c) = []
  others : ∀ t', t' ≠ t → L'.held (.waiting t') = L.held (.waiting t') ∧
    ∀ c, L'.held (.cached t' c) = L.held (.cached t' c)
  dead : s.threads t = none → L' = L

/-- Without its pointers the chunks of a thread stay where they are. -/
theorem destroy_lists (hl : Lists s L) (t : ℕ) : Lists (s.Destroy t) L := by
  have hthreads : ∀ t' x', (s.Destroy t).threads t' = some x' → s.threads t' = some x' := by
    intro t' x' hx'
    rw [MallocInfo.Destroy] at hx'
    dsimp only at hx'
    by_cases htt : t' = t
    · rw [htt, Function.update_self] at hx'
      cases hx'
    · rwa [Function.update_of_ne htt] at hx'
  intro p
  refine (hl p).congr ?_ (fun _ _ => rfl) fun _ _ => rfl
  cases p with
  | free c => rfl
  | cached t' c => exact fun x' hx' => ⟨x',hthreads t' x' hx',rfl⟩
  | waiting t' => exact fun x' hx' => ⟨x',hthreads t' x' hx',rfl⟩
  | quarantine => rfl
  | taken => trivial
  | user => trivial

theorem destroy_threads (s : MallocInfo) (t t' : ℕ) :
    ((s.Destroy t).threads t').isSome = (decide (t' ≠ t) && (s.threads t').isSome) := by
  rw [MallocInfo.Destroy]
  dsimp only
  by_cases htt : t' = t
  · rw [htt, Function.update_self]
    simp
  · rw [Function.update_of_ne htt]
    simp [htt]

theorem threadReturn_runs (hc : Core flags s L) (hl : Lists s L) (hred : flags.redzone ≤ 4096)
    (hquarantine : ¬bad → 0 < flags.quarantine_size) :
    Runs bad (s.ThreadReturn flags t) fun s' => ∃ L', Returned flags t s s' L L' := by
  rw [MallocInfo.ThreadReturn]
  cases ht : s.threads t with
  | none =>
    rw [MallocInfo.SwallowThreadLocalMallocStorage, ht]
    refine Runs.ok ⟨L,hc.of_eq rfl rfl rfl,destroy_lists hl t,rfl,⟨rfl,rfl⟩,(Kept.refl s L _).of_eq rfl rfl,rfl,rfl,
      .of_eq rfl,destroy_threads s t,fun h => ?_,fun _ _ => ⟨rfl,fun _ => rfl⟩,fun _ => rfl⟩
    rw [ht] at h
    cases h
  | some x =>
    have hsome : (s.threads t).isSome := by rw [ht]; rfl
    have hrun : Runs bad (s.SwallowThreadLocalMallocStorage flags t true) fun s₂ => ∃ s₁ L₁ L₂,
        Swallowed flags t s s₁ L L₁ ∧ EatenAll flags t (List.range kNumberOfSizeClasses) s₁ s₂ L₁ L₂ := by
      rw [swallow_all ht]
      refine (swallow_runs hc hl hred hquarantine).bind fun s₁ hs₁ => ?_
      obtain ⟨L₁,h⟩ := hs₁
      obtain ⟨s₂,L₂,hrun,h'⟩ := eatClasses_ok (List.range kNumberOfSizeClasses) h.shifted.core h.shifted.lists
        ((h.shifted.threads t).symm ▸ hsome)
      rw [hrun]
      exact Runs.ok ⟨s₁,L₁,L₂,h,h'⟩
    refine hrun.bind fun s₂ hs₂ => ?_
    obtain ⟨s₁,L₁,L₂,h,h'⟩ := hs₂
    have hshift := h.shifted.trans h'.shifted
    have hpasses : L₁.Passes flags L₂ := .of_eq (h'.held .quarantine (by simp) (by simp))
    refine Runs.ok ⟨L₂,hshift.core.of_eq rfl rfl rfl,destroy_lists hshift.lists t,hshift.groups,hshift.pages,hshift.kept.of_eq rfl rfl,
      hshift.user,hshift.taken,h.passes.trans hpasses fun _ hg => h'.shifted.groups.symm ▸ hg,fun t' => ?_,fun _ => ⟨?_,fun c => ?_⟩,fun t' htt => ⟨?_,fun c => ?_⟩,fun hnone => ?_⟩
    · rw [destroy_threads, hshift.threads]
    · rw [h'.held (.waiting t) (by simp) (by simp), h.waiting hsome]
    · rcases Nat.lt_or_ge c 255 with hlt | hge
      · exact h'.cached c (List.mem_range.mpr hlt)
      · exact h'.shifted.core.cached_nil hge
    · rw [h'.held (.waiting t') (by simp) (by simp), h.held (.waiting t') (by simp [htt]) (by simp) (by simp)]
    · rw [h'.held (.cached t' c) (by simp [htt]) (by simp), h.held (.cached t' c) (by simp) (by simp) (by simp)]
    · rw [ht] at hnone
      cases hnone

end CompilerRt.AsanAllocator
