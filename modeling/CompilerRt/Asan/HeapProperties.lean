import CompilerRt.Asan.FindChunk
import CompilerRt.Asan.HeapBlocks
import Mathlib

/-! # What the heap is for

Calls that are well used do not fail, blocks are fresh and keep their bytes, what is not a block is not freed, the size of
blocks is told, and no chunk is lost.
-/
namespace CompilerRt.AsanAllocator
open Sanitizer AsanMapping
open AsanChunk

variable {flags : Flags} {mmap : ℕ → ℕ} {h h' h₁ : Heap} {s s' : MallocInfo} {L L' : Layout} {g : Group} {p q : ℕ × ℕ}
  {m t t' a pg alignment size addr : ℕ} {acts acts' : List Act} {x : Act} {stack stack' : StackTrace 64} {info : MallocInfo}

/-! ## Calls -/

theorem Heap.Inv.act_returns (mmap : ℕ → ℕ) (hi : h.Inv flags L) (hred : flags.redzone ≤ 4096) (hlegal : h.Legal x) (hsafe : h.Safe flags x) :
    (∃ h', h.act flags mmap x = .ok h') ∨ h.act flags mmap x = .error .mmap :=
  (Heap.act_runs False hi hlegal hred fun _ => hsafe).ok_or_mmap

theorem Heap.Inv.allocate (hi : h.Inv flags L) (hred : flags.redzone ≤ 4096) (halignment : alignment < 2^64)
    (hrun : h.info.Allocate flags mmap t alignment size stack = .ok (addr,info)) (haddr : addr ≠ 0) :
    ∃ L', Allocated flags h.info info L L' alignment (max size 1) addr := by
  have hno : ∀ p : Prop, ¬True → p := fun _ hno => absurd trivial hno
  have hruns := allocate_runs t size stack mmap hi.core hi.lists hi.taken hred halignment (hno _) (hno _) (hno _)
  rcases hruns.of_ok hrun with heq | hallocated
  · exact absurd (congrArg Prod.fst heq) haddr
  · exact hallocated

/-- A new block is aligned as was asked, has a redzone to each of the others, and is filled. -/
theorem Heap.allocate_fresh (hr : Heap.Reached flags mmap acts h) (hred : flags.redzone ≤ 4096) (halignment : alignment < 2^64)
    (hrun : h.info.Allocate flags mmap t alignment size stack = .ok (addr,info)) (haddr : addr ≠ 0) :
    (alignment ≠ 0 → alignment ∣ addr) ∧ flags.redzone ∣ addr ∧
      (∀ p ∈ h.user, addr + max size 1 + flags.redzone ≤ p.1 ∨ p.1 + max p.2 1 + flags.redzone ≤ addr) ∧
      (max size 1 ≤ flags.max_malloc_fill_size → ∀ a, addr ≤ a → a < addr + max size 1 → info.memory a = 0) := by
  obtain ⟨L,hi,-⟩ := hr.inv hred
  obtain ⟨L',ha⟩ := hi.allocate hred halignment hrun haddr
  obtain ⟨hi',-⟩ := hi.allocated ha
  have hnew : (addr,size) ∈ (addr,size) :: h.user := List.mem_cons_self
  obtain ⟨m,hm,hb⟩ := hi'.block _ hnew
  obtain ⟨g,-,-,hin⟩ := hi'.core.inside hm hb
  have hhead := (List.nodup_cons.mp hi'.nodup).1
  refine ⟨ha.asked,hin.owned.aligned,fun p hp => ?_,ha.filled⟩
  refine hi'.apart hnew (List.mem_cons_of_mem _ hp) fun heq => hhead ?_
  exact List.mem_map.mpr ⟨p,hp,heq.symm⟩

theorem Heap.allocate_fresh_four : ∃ addr info,
    (sampleHeap sampleFlags 4).info.Allocate sampleFlags sampleMmap 0 512 (2^22 - 1000) sampleStack = .ok (addr,info) ∧
      512 ∣ addr ∧ ∀ p ∈ (sampleHeap sampleFlags 4).user,
        addr + (2^22 - 1000) + 128 ≤ p.1 ∨ p.1 + max p.2 1 + 128 ≤ addr := by
  have hsome : ((sampleHeap sampleFlags 4).info.Allocate sampleFlags sampleMmap 0 512 (2^22 - 1000) sampleStack).toOption.map
      Prod.fst = some (2^45 + 2^37 + 512) := by decide +kernel
  obtain ⟨⟨addr,info⟩,hr,rfl⟩ := Option.map_eq_some_iff.mp hsome
  have hrun := toOption_eq_some.mp hr
  have hfresh := Heap.allocate_fresh sampleHeap_four (by decide) (by decide) hrun (by decide)
  exact ⟨_,info,hrun,hfresh.1 (by decide),hfresh.2.2.1⟩

/-! ## Bytes -/

/-- Which blocks there are after a call: those that it does not free, and one that is new. -/
structure Heap.UserStep (h : Heap) (x : Act) (h' : Heap) : Prop where
  stay : ∀ p ∈ h.user, (∀ t stack, x ≠ .Deallocate t p.1 stack) → p ∈ h'.user
  origin : ∀ p ∈ h'.user, p ∈ h.user ∧ (∀ t stack, x ≠ .Deallocate t p.1 stack) ∨
    ∃ t alignment stack, x = .Allocate t alignment p.2 stack

theorem Heap.UserStep.of_eq (hx : ∀ t ptr stack, x ≠ .Deallocate t ptr stack) (huser : h'.user = h.user) : h.UserStep x h' :=
  ⟨fun _ hp _ => huser ▸ hp,fun _ hp => .inl ⟨huser ▸ hp,fun t stack => hx t _ stack⟩⟩

theorem Heap.userStep (hstep : h.step flags mmap x = some h') : h.UserStep x h' := by
  rw [Heap.step] at hstep
  cases x with
  | Allocate t alignment size stack =>
    cases hrun : h.info.Allocate flags mmap t alignment size stack with
    | error e =>
      rw [Heap.act, hrun] at hstep
      cases hstep
    | ok r =>
      rw [Heap.act, hrun] at hstep
      cases hstep
      by_cases haddr : r.1 = 0
      · exact .of_eq (by simp) (if_pos haddr)
      · refine ⟨fun p hp _ => ?_,fun p hp => ?_⟩
        · dsimp only
          rw [if_neg haddr]
          exact List.mem_cons_of_mem _ hp
        · dsimp only at hp
          rw [if_neg haddr] at hp
          rcases List.mem_cons.mp hp with rfl | hp
          · exact .inr ⟨t,alignment,stack,rfl⟩
          · exact .inl ⟨hp,by simp⟩
  | Deallocate t ptr stack =>
    cases hrun : h.info.Deallocate flags t ptr stack with
    | error e =>
      rw [Heap.act, hrun] at hstep
      cases hstep
    | ok info =>
      rw [Heap.act, hrun] at hstep
      cases hstep
      refine ⟨fun p hp hne => List.mem_filter.mpr ⟨hp,decide_eq_true ?_⟩,fun p hp => ?_⟩
      · rintro rfl
        exact hne t stack rfl
      · obtain ⟨hp,hne⟩ := List.mem_filter.mp hp
        refine .inl ⟨hp,fun t' stack' heq => of_decide_eq_true hne ?_⟩
        cases heq
        rfl
  | Write addr value =>
    cases hstep
    exact .of_eq (by simp) rfl
  | Create =>
    cases hstep
    exact .of_eq (by simp) rfl
  | ThreadReturn t =>
    cases hrun : h.info.ThreadReturn flags t with
    | error e =>
      rw [Heap.act, hrun] at hstep
      cases hstep
    | ok info =>
      rw [Heap.act, hrun] at hstep
      cases hstep
      exact .of_eq (by simp) rfl
  | TSDDtor t =>
    cases hstep
    exact .of_eq (by simp) rfl

theorem Heap.Inv.contents (hi : h.Inv flags L) (hred : flags.redzone ≤ 4096)
    (hlegal : Transition.AllSteps (Heap.step flags mmap) Heap.Legal h acts)
    (hrun : Transition.run (Heap.step flags mmap) h acts = some h') (hp : p ∈ h.user)
    (hfree : ∀ t stack, .Deallocate t p.1 stack ∉ acts) (hlow : p.1 ≤ a) (hhigh : a < p.1 + max p.2 1)
    (hwrite : ∀ v, .Write a v ∉ acts) : p ∈ h'.user ∧ h'.info.memory a = h.info.memory a := by
  induction acts generalizing h L with
  | nil =>
    cases hrun
    exact ⟨hp,rfl⟩
  | cons x acts ih =>
    rw [Transition.run_cons, Option.bind_eq_some_iff] at hrun
    obtain ⟨h₁,hstep,hrun⟩ := hrun
    obtain ⟨hx,hrest⟩ := hlegal h₁ hstep
    obtain ⟨L₁,hran,hkeeps⟩ := hi.step hx hred hstep
    have hp₁ : p ∈ h₁.user :=
      (Heap.userStep hstep).stay p hp fun t stack heq => hfree t stack (heq ▸ List.mem_cons_self)
    have hbyte : h₁.info.memory a = h.info.memory a :=
      hkeeps p hp hp₁ a hlow hhigh fun v heq => hwrite v (heq ▸ List.mem_cons_self)
    obtain ⟨hp',hrest'⟩ := ih hran.inv hrest hrun hp₁ (fun t stack hmem => hfree t stack (List.mem_cons_of_mem x hmem))
      fun v hmem => hwrite v (List.mem_cons_of_mem x hmem)
    exact ⟨hp',hrest'.trans hbyte⟩

/-- A block that is not freed stays, and each of its bytes stays until the user writes it. -/
theorem Heap.contents_stay (hr : Heap.Reached flags mmap acts h) (hred : flags.redzone ≤ 4096)
    (hlegal : Transition.AllSteps (Heap.step flags mmap) Heap.Legal h acts')
    (hrun : Transition.run (Heap.step flags mmap) h acts' = some h') (hp : p ∈ h.user)
    (hfree : ∀ t stack, .Deallocate t p.1 stack ∉ acts') (hlow : p.1 ≤ a) (hhigh : a < p.1 + max p.2 1)
    (hwrite : ∀ v, .Write a v ∉ acts') : p ∈ h'.user ∧ h'.info.memory a = h.info.memory a := by
  obtain ⟨L,hi,-⟩ := hr.inv hred
  exact hi.contents hred hlegal hrun hp hfree hlow hhigh hwrite

theorem Heap.contents_stay_four :
    (sampleHeap sampleFlags 5).info.memory (2^45 + 2^36 + 128) = (sampleHeap sampleFlags 4).info.memory (2^45 + 2^36 + 128) :=
  (Heap.contents_stay (p := (2^45 + 2^36 + 128,2^22 - 200)) sampleHeap_four (by decide) (by decide +kernel)
    (sampleHeap_run sampleFlags 4 1 (by decide +kernel) (by decide +kernel)) (by decide +kernel) (by simp [sampleActs, sampleFlags]) (by decide)
    (by decide) (by simp [sampleActs])).2

/-! ## The smallest redzone -/

/-- The chunks up to the last one. -/
theorem Core.mem_chunks (hc : Core flags s L) (hg : g ∈ L.groups) {i : ℕ} (hm : m = g.page.beg + i * g.page.size_of_chunk)
    (hlast : m ≤ g.page.last_chunk) : m ∈ g.chunks := by
  refine Group.mem_chunks.mpr ⟨i,?_,hm⟩
  have hsize := hc.le_size hg
  have hn : 0 < g.n_chunks := (hc.used g hg).groupSizes.1.pos
  have hlast' : g.beg + i * g.size ≤ g.beg + (g.n_chunks - 1) * g.size := by
    rw [Nat.mul_comm (g.n_chunks - 1)]
    exact hm ▸ hlast
  have hle : i ≤ g.n_chunks - 1 := Nat.le_of_mul_le_mul_right (Nat.add_le_add_iff_left.mp hlast') (by omega)
  omega

/-- A chunk in which no block begins is not the user's. -/
theorem Heap.Inv.not_user (hi : h.Inv flags L) (hg : g ∈ L.groups) (hmg : m ∈ g.chunks)
    (hno : ∀ p ∈ h.user, p.1 < m ∨ m + g.size ≤ p.1) : ∃ place, m ∈ L.held place ∧ place ≠ .user := by
  obtain ⟨place,hplace⟩ := (hi.core.spread.mem_iff m).mp (List.mem_flatMap.mpr ⟨g,hg,hmg⟩)
  refine ⟨place,hplace,?_⟩
  rintro rfl
  obtain ⟨p,hp,hb⟩ := hi.chunk m hplace
  obtain ⟨g',hg',hmg',hin⟩ := hi.core.inside hplace hb
  obtain rfl := hi.core.group_unique hg hg' hmg hmg'
  have h1 := hin.low
  have h2 := hin.high
  have h3 := hin.room
  rcases hno p hp with hlt | hge
  · omega
  · omega

/-- To free a chunk in which no block begins is an error, which tells whether the chunk waits in quarantine. -/
theorem Heap.free_reported (hr : Heap.Reached flags mmap acts h) (hred : flags.redzone ≤ 4096)
    (hpg : pg ∈ h.info.page_groups_) {i : ℕ}
    (hm : m = (PageGroup.read h.info.memory pg).beg + i * (PageGroup.read h.info.memory pg).size_of_chunk)
    (hlast : m ≤ (PageGroup.read h.info.memory pg).last_chunk)
    (hno : ∀ p ∈ h.user, p.1 < m ∨ m + (PageGroup.read h.info.memory pg).size_of_chunk ≤ p.1) :
    h.act flags mmap (.Deallocate t (m + flags.redzone) stack) =
        .error (if get h.info.memory m .chunk_state = CHUNK_QUARANTINE then .doubleFree else .freeNotMalloced) ∧
      (get h.info.memory m .chunk_state = CHUNK_QUARANTINE ∨ get h.info.memory m .chunk_state = CHUNK_AVAILABLE) := by
  obtain ⟨L,hi,-⟩ := hr.inv hred
  obtain ⟨g,hg,-,hread⟩ := hi.core.exists_group hpg
  rw [hread] at hm hlast hno
  have hmg := hi.core.mem_chunks hg hm hlast
  obtain ⟨place,hplace,huser⟩ := hi.not_user hg hmg hno
  have hstate := hi.core.state_eq hplace
  rw [Heap.act, deallocate_reported hi.core hi.indexed hplace huser, hstate]
  refine ⟨rfl,?_⟩
  rcases place.state_cases with hst | hst | hst
  · exact absurd (Place.eq_user hst) huser
  · exact .inr hst
  · exact .inl hst

theorem Heap.free_reported_five : (sampleHeap sampleFlags 5).act sampleFlags sampleMmap
    (.Deallocate 3 (2^45 + 128) sampleStack) =
      .error (if get (sampleHeap sampleFlags 5).info.memory (2^45) .chunk_state = CHUNK_QUARANTINE then .doubleFree
        else .freeNotMalloced) :=
  (Heap.free_reported (i := 0) sampleHeap_five (by decide)
    (show 2^45 + 2^22 ∈ (sampleHeap sampleFlags 5).info.page_groups_ by decide +kernel) (by decide +kernel)
    (by decide +kernel) (by decide +kernel)).1

theorem Heap.user_of_run (hrun : Transition.run (Heap.step flags mmap) h acts = some h')
    (hnew : ∀ t alignment size stack, .Allocate t alignment size stack ∉ acts) (hp : p ∈ h'.user) : p ∈ h.user := by
  induction acts generalizing h with
  | nil =>
    cases hrun
    exact hp
  | cons x acts ih =>
    rw [Transition.run_cons, Option.bind_eq_some_iff] at hrun
    obtain ⟨h₁,hstep,hrun⟩ := hrun
    have hp₁ := ih hrun fun t alignment size stack hmem => hnew t alignment size stack (List.mem_cons_of_mem x hmem)
    rcases (Heap.userStep hstep).origin p hp₁ with ⟨hp,-⟩ | ⟨t,alignment,stack,rfl⟩
    · exact hp
    · exact absurd List.mem_cons_self (hnew t alignment p.2 stack)

/-- No block but its own begins in a chunk of the user. -/
theorem Heap.Inv.only_block (hi : h.Inv flags L) (hb : Block h.info.memory p m) (hg : g ∈ L.groups)
    (hmg : m ∈ g.chunks) (hq : q ∈ h.user) (hne : q.1 ≠ p.1) : q.1 < m ∨ m + g.size ≤ q.1 := by
  obtain ⟨m',hm',hb'⟩ := hi.block q hq
  obtain ⟨g',hg',hmg',hin⟩ := hi.core.inside hm' hb'
  have hmm : m ≠ m' := by
    rintro rfl
    exact hne (Option.some.inj (hb'.beg.symm.trans hb.beg))
  have h1 := hin.low
  have h2 := hin.high
  have h3 := hin.room
  rcases hi.core.chunks_apart hg hg' hmg hmg' hmm with hap | hap
  · exact .inr (by omega)
  · exact .inl (by omega)

/-- A block that its alignment has not moved in its chunk is not freed twice, whatever is called between the two, as long
as nothing is allocated. -/
theorem Heap.double_free (hr : Heap.Reached flags mmap acts h) (hred : flags.redzone ≤ 4096) (hp : p ∈ h.user)
    (hplain : MallocInfo.PtrToChunk flags h.info.memory p.1 = p.1 - flags.redzone)
    (hfree : h.step flags mmap (.Deallocate t p.1 stack) = some h₁)
    (hlegal : Transition.AllSteps (Heap.step flags mmap) Heap.Legal h₁ acts')
    (hrun : Transition.run (Heap.step flags mmap) h₁ acts' = some h')
    (hnew : ∀ t alignment size stack, .Allocate t alignment size stack ∉ acts') :
    h'.act flags mmap (.Deallocate t' p.1 stack') = .error .doubleFree ∨
      h'.act flags mmap (.Deallocate t' p.1 stack') = .error .freeNotMalloced := by
  obtain ⟨L,hi,-⟩ := hr.inv hred
  obtain ⟨m,hm,hb⟩ := hi.block p hp
  obtain ⟨g,hg,hmg,hin⟩ := hi.core.inside hm hb
  obtain ⟨L₁,hran,-⟩ := hi.step (x := .Deallocate t p.1 stack) (.inr ⟨p,hp,rfl⟩) hred hfree
  obtain ⟨L',hran'⟩ := hran.inv.run hred hlegal hrun
  have hptr : m + flags.redzone = p.1 := by
    have hown := hin.owned.ptr
    have hlow := hin.low
    rw [hplain] at hown
    omega
  have hno : ∀ q ∈ h'.user, q.1 < m ∨ m + g.size ≤ q.1 := by
    intro q hq
    rcases (Heap.userStep hfree).origin q (Heap.user_of_run hrun hnew hq) with ⟨hq,hne⟩ | ⟨_,_,_,heq⟩
    · refine hi.only_block hb hg hmg hq fun heq => ?_
      exact hne t stack (by rw [heq])
    · cases heq
  obtain ⟨place,hplace,huser⟩ := hran'.inv.not_user (hran'.groups g (hran.groups g hg)) hmg hno
  rw [← hptr, Heap.act, deallocate_reported hran'.inv.core hran'.inv.indexed hplace huser]
  split_ifs
  · exact .inl rfl
  · exact .inr rfl

theorem Heap.double_free_four : (sampleHeap sampleFlags 5).act sampleFlags sampleMmap
      (.Deallocate 7 (2^45 + 128) sampleStack) = .error .doubleFree ∨
    (sampleHeap sampleFlags 5).act sampleFlags sampleMmap (.Deallocate 7 (2^45 + 128) sampleStack) = .error .freeNotMalloced := by
  have hstep := sampleHeap_run sampleFlags 4 1 (by decide +kernel) (by decide +kernel)
  exact Heap.double_free (p := (2^45 + 128,2^22 - 128)) sampleHeap_four (by decide) (by decide +kernel) (by decide +kernel)
    ((Option.bind_fun_some _).symm.trans hstep) (show Transition.AllSteps _ _ _ [] from trivial) Transition.run_nil (by simp)

/-! ## Sizes and chunks of addresses -/

/-- The size of a block is told for its first address, and zero for all other addresses but those of the structures behind
the chunks. -/
theorem Heap.size_of_block (hr : Heap.Reached flags mmap acts h) (hred : flags.redzone ≤ 4096)
    (ha : a ∉ h.info.page_groups_) : ∃ n s', h.info.AllocationSize a = .ok (n,s') ∧
      h.info.asan_get_ownership a = .ok (decide (∃ p ∈ h.user, p.1 = a),s') ∧
      (∀ p ∈ h.user, p.1 = a → n = max p.2 1) ∧ ((∀ p ∈ h.user, p.1 ≠ a) → n = 0) := by
  obtain ⟨L,hi,-⟩ := hr.inv hred
  have hpg : ∀ g ∈ L.groups, a ≠ g.pg := by
    rintro g hg rfl
    exact ha (hi.core.pages.mem_iff.mpr (List.mem_map_of_mem hg))
  obtain ⟨n,s',hrun,hsized⟩ := allocationSize_ok hi.core hi.indexed hpg
  have hsome : ∀ p ∈ h.user, p.1 = a → n = max p.2 1 := by
    rintro p hp rfl
    obtain ⟨m,hm,hb⟩ := hi.block p hp
    exact (hsized.block m hm hb.beg).trans hb.used
  have hnone : (∀ p ∈ h.user, p.1 ≠ a) → n = 0 := by
    intro hno
    refine hsized.none fun m hm hbeg => ?_
    obtain ⟨p,hp,hb⟩ := hi.chunk m hm
    exact hno p hp (Option.some.inj (hb.beg.symm.trans hbeg))
  refine ⟨n,s',hrun,?_,hsome,hnone⟩
  rw [MallocInfo.asan_get_ownership, hrun, ok_bind]
  dsimp only
  rw [pure_eq_ok]
  refine congrArg (fun b => Except.ok (b,s')) (decide_eq_decide.mpr ⟨fun hpos => ?_,?_⟩)
  · by_contra hno
    have hzero := hnone fun p hp heq => hno ⟨p,hp,heq⟩
    omega
  · rintro ⟨p,hp,heq⟩
    have hn := hsome p hp heq
    omega

theorem Heap.size_of_block_five : ∃ n s', (sampleHeap sampleFlags 5).info.AllocationSize (2^45 + 2^36 + 128) = .ok (n,s') ∧
    n = max (2^22 - 200) 1 := by
  obtain ⟨n,s',hrun,-,hsize,-⟩ := Heap.size_of_block (a := 2^45 + 2^36 + 128) sampleHeap_five (by decide) (by decide +kernel)
  exact ⟨n,s',hrun,hsize (2^45 + 2^36 + 128,2^22 - 200) (by decide +kernel) rfl⟩

/-- The chunk of an address is looked for in vain just where the address is that of the structure behind the chunks of a
group: there the process ends. Inside a block it is the chunk of the block that is found. -/
theorem Heap.find_chunk (hr : Heap.Reached flags mmap acts h) (hred : flags.redzone ≤ 4096) :
    (h.info.FindChunkByAddrUnlocked a = .error .check ↔ a ∈ h.info.page_groups_) ∧
      ∀ p ∈ h.user, p.1 ≤ a → a < p.1 + max p.2 1 → ∃ m s', h.info.FindChunkByAddrUnlocked a = .ok (m,s') ∧
        Block h.info.memory p m := by
  obtain ⟨L,hi,-⟩ := hr.inv hred
  have hmem : a ∈ h.info.page_groups_ ↔ ∃ g ∈ L.groups, a = g.pg := by
    rw [hi.core.pages.mem_iff, List.mem_map]
    exact exists_congr fun g => and_congr_right fun _ => eq_comm
  refine ⟨⟨fun herror => ?_,fun ha => ?_⟩,fun p hp hlow hhigh => ?_⟩
  · by_contra ha
    obtain ⟨r,s',hrun,-⟩ := findChunk_ok hi.core hi.indexed fun g hg heq => ha (hmem.mpr ⟨g,hg,heq⟩)
    rw [hrun] at herror
    cases herror
  · obtain ⟨g,hg,rfl⟩ := hmem.mp ha
    exact findChunk_page hi.core hi.indexed hg
  · obtain ⟨m,hm,hb⟩ := hi.block p hp
    obtain ⟨g,hg,hmg,hin⟩ := hi.core.inside hm hb
    have hrange := hi.core.chunk_range hg hmg
    have h1 := hin.low
    have h2 := hin.high
    have h3 := hin.room
    have hpg : ∀ g' ∈ L.groups, a ≠ g'.pg := by
      rintro g' hg' rfl
      have hap := hi.core.page_apart hg hg' hmg
      omega
    obtain ⟨r,s',hrun,hfound⟩ := findChunk_ok hi.core hi.indexed hpg
    have hchunk := hfound.found g hg ⟨by omega,by omega⟩
    obtain rfl : r = m := hchunk.inside m hmg p.1 hb.beg hlow (hb.used ▸ hhigh)
    exact ⟨r,s',hrun,hb⟩

theorem Heap.find_chunk_five : (sampleHeap sampleFlags 5).info.FindChunkByAddrUnlocked (2^45 + 2^22) = .error .check :=
  (Heap.find_chunk sampleHeap_five (by decide)).1.mpr (by decide +kernel)

/-! ## No chunk is lost -/

/-- Where a chunk can be met: on a list that begins in the allocator or in a thread, or as a block. -/
def Heap.At (h : Heap) (m : ℕ) : Place → Prop
  | .free c => ∃ l, Chain (nextOf h.info.memory) (h.info.free_lists_ c) l ∧ m ∈ l
  | .cached t c => ∃ x l, h.info.threads t = some x ∧ Chain (nextOf h.info.memory) (x.free_lists_ c) l ∧ m ∈ l
  | .taken => False
  | .user => ∃ p ∈ h.user, Block h.info.memory p m
  | .waiting t => ∃ x l, h.info.threads t = some x ∧ Chain (nextOf h.info.memory) x.quarantine_.first_ l ∧ m ∈ l
  | .quarantine => ∃ l, Chain (nextOf h.info.memory) h.info.quarantine_.first_ l ∧ m ∈ l

theorem Heap.Inv.at_iff (hi : h.Inv flags L) (hl : h.Lossless L) (hg : g ∈ L.groups) (hmg : m ∈ g.chunks) (place : Place) :
    h.At m place ↔ m ∈ L.held place := by
  cases place with
  | free c =>
    have hchain : Chain (nextOf h.info.memory) (h.info.free_lists_ c) (L.held (.free c)) := hi.lists (.free c)
    exact ⟨fun ⟨l,hl,hml⟩ => hchain.unique hl ▸ hml,fun hml => ⟨_,hchain,hml⟩⟩
  | cached t c =>
    refine ⟨fun ⟨x,l,hx,hl,hml⟩ => (hi.lists (.cached t c) x hx).unique hl ▸ hml,fun hml => ?_⟩
    cases ht : h.info.threads t with
    | none =>
      rw [(hl t ht).2 c] at hml
      cases hml
    | some x => exact ⟨x,_,ht,hi.lists (.cached t c) x ht,hml⟩
  | taken => rw [hi.taken]; exact iff_of_false id List.not_mem_nil
  | user =>
    refine ⟨fun ⟨p,hp,hb⟩ => ?_,fun hm => hi.chunk m hm⟩
    obtain ⟨m',hm',hb'⟩ := hi.block p hp
    obtain ⟨g',hg',hmg',hin⟩ := hi.core.inside hm' hb'
    obtain ⟨⟨b,hhead⟩,-⟩ := hi.core.headed hg hmg
    obtain rfl : p.1 = b := Option.some.inj (hb.beg.symm.trans hhead.beg)
    have h1 := hhead.lt
    have h2 := hhead.le
    have h3 := hin.low
    have h4 := hin.high
    have h5 := hin.room
    have hpos := flags.pos
    rw [hb.used] at h2
    by_cases hmm : m = m'
    · exact hmm ▸ hm'
    · have hap := hi.core.chunks_apart hg hg' hmg hmg' hmm
      omega
  | waiting t =>
    refine ⟨fun ⟨x,l,hx,hl,hml⟩ => (hi.lists (.waiting t) x hx).chain.unique hl ▸ hml,fun hml => ?_⟩
    cases ht : h.info.threads t with
    | none =>
      rw [(hl t ht).1] at hml
      cases hml
    | some x => exact ⟨x,_,ht,(hi.lists (.waiting t) x ht).chain,hml⟩
  | quarantine =>
    have hchain : Fifo h.info.memory h.info.quarantine_ (L.held .quarantine) := hi.lists .quarantine
    exact ⟨fun ⟨l,hl,hml⟩ => hchain.chain.unique hl ▸ hml,fun hml => ⟨_,hchain.chain,hml⟩⟩

/-- As long as threads end by returning, every chunk of every group can be met at one place, and at one place only. -/
theorem Heap.no_chunk_lost (hr : Heap.Reached flags mmap acts h) (hred : flags.redzone ≤ 4096)
    (hreturn : ∀ t, .TSDDtor t ∉ acts) (hpg : pg ∈ h.info.page_groups_) {i : ℕ}
    (hm : m = (PageGroup.read h.info.memory pg).beg + i * (PageGroup.read h.info.memory pg).size_of_chunk)
    (hlast : m ≤ (PageGroup.read h.info.memory pg).last_chunk) : ∃! place, h.At m place := by
  obtain ⟨L,hi,hl⟩ := hr.inv hred
  obtain ⟨g,hg,-,hread⟩ := hi.core.exists_group hpg
  rw [hread] at hm hlast
  have hmg := hi.core.mem_chunks hg hm hlast
  have hiff := hi.at_iff (hl hreturn) hg hmg
  obtain ⟨place,hplace,honly⟩ := hi.core.spread.existsUnique (List.mem_flatMap.mpr ⟨g,hg,hmg⟩)
  exact ⟨place,(hiff place).mpr hplace,fun place' h' => honly place' ((hiff place').mp h')⟩

theorem Heap.no_chunk_lost_five : ∃! place, (sampleHeap sampleFlags 5).At (2^45) place :=
  Heap.no_chunk_lost (i := 0) sampleHeap_five (by decide) (by simp [sampleActs])
    (show 2^45 + 2^22 ∈ (sampleHeap sampleFlags 5).info.page_groups_ by decide +kernel) (by decide +kernel) (by decide +kernel)

end CompilerRt.AsanAllocator
