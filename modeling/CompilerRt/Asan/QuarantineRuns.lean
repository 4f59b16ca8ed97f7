import CompilerRt.Asan.HeapRuns
import Mathlib

/-! # The quarantine over runs

Freed chunks leave the quarantine in the order in which they came, and only where it would be too large with them. Where
threads free, the quarantine and what the threads hold back stay bounded.
-/
namespace CompilerRt.AsanAllocator
open Sanitizer AsanMapping
open AsanChunk

variable {flags : Flags} {mmap : ℕ → ℕ} {h h' : Heap} {s s' s₁ : MallocInfo} {L : Layout} {m t size_class size fuel : ℕ}
  {acts acts' : List Act} {x : Act} {stack : StackTrace 64}

/-- The queues of freed chunks are the same. -/
def SameQueues (s s' : MallocInfo) : Prop := SameHead s s' .quarantine ∧ ∀ t, SameHead s s' (.waiting t)

theorem SameQueues.of_eq (hq : s'.quarantine_ = s.quarantine_) (hthreads : s'.threads = s.threads) : SameQueues s s' :=
  ⟨hq,fun _ x' hx' => ⟨x',hthreads ▸ hx',rfl⟩⟩

theorem SameQueues.refl (s : MallocInfo) : SameQueues s s := .of_eq rfl rfl

theorem SameQueues.trans (h : SameQueues s s₁) (h' : SameQueues s₁ s') : SameQueues s s' := by
  refine ⟨Eq.trans h'.1 h.1,fun t x' hx' => ?_⟩
  obtain ⟨x₁,hx₁,hq₁⟩ := h'.2 t x' hx'
  obtain ⟨x,hx,hq⟩ := h.2 t x₁ hx₁
  exact ⟨x,hx,hq₁.trans hq⟩

/-- A thread that has only other free lists. -/
theorem SameQueues.update {x : AsanThreadLocalMallocStorage} (ht : s.threads t = some x)
    (hquarantine : s'.quarantine_ = s.quarantine_)
    (hthreads : ∃ free_lists_, s'.threads = Function.update s.threads t (some { x with free_lists_ := free_lists_ })) :
    SameQueues s s' := by
  obtain ⟨free_lists_,hthreads⟩ := hthreads
  refine ⟨hquarantine,fun t' y hy => ?_⟩
  rw [hthreads] at hy
  by_cases htt : t' = t
  · subst htt
    rw [Function.update_self] at hy
    cases hy
    exact ⟨x,ht,rfl⟩
  · rw [Function.update_of_ne htt] at hy
    exact ⟨y,hy,rfl⟩

/-- Neither the quarantine nor the list of a thread is larger than its limit. -/
def Limited (flags : Flags) (s : MallocInfo) : Prop :=
  s.quarantine_.size_ ≤ flags.quarantine_size.toNat ∧
    ∀ t x, s.threads t = some x → x.quarantine_.size_ ≤ kMaxThreadLocalQuarantine

theorem Limited.same (h : Limited flags s) (hs : SameQueues s s') : Limited flags s' := by
  refine ⟨le_of_eq_of_le (congrArg AsanChunkFifoList.size_ hs.1) h.1,fun t x' hx' => ?_⟩
  obtain ⟨x,hx,hq⟩ := hs.2 t x' hx'
  exact hq ▸ h.2 t x hx

/-! ## Allocation -/

theorem refill_same (h : s.refill mmap size_class = .ok s') : s'.quarantine_ = s.quarantine_ ∧ s'.threads = s.threads := by
  rw [MallocInfo.refill] at h
  split_ifs at h
  · obtain ⟨⟨res,s₁⟩,hnew,hs'⟩ := bind_eq_ok.mp h
    cases hs'
    simp only [MallocInfo.GetNewChunks, MallocInfo.MmapNewPagesAndPoisonShadow, MallocInfo.MmapOrDie, bind_eq_ok,
      pure_eq_ok] at hnew
    obtain ⟨size,-,-,-,-,-,-,-,-,-,⟨beg,s₂⟩,⟨-,-,⟨res',s₃⟩,hmmap,shadow,-,hs₂⟩,-,-,hs₁⟩ := hnew
    split_ifs at hmmap
    cases hmmap
    cases hs₂
    cases hs₁
    exact ⟨rfl,rfl⟩
  · cases h
    exact ⟨rfl,rfl⟩

theorem allocateChunks_same {n m : ℕ} {r : ℕ × MallocInfo} (h : MallocInfo.AllocateChunks mmap size_class n m s = .ok r) :
    r.2.quarantine_ = s.quarantine_ ∧ r.2.threads = s.threads := by
  induction n generalizing m s with
  | zero =>
    cases h
    exact ⟨rfl,rfl⟩
  | succ n ih =>
    rw [MallocInfo.AllocateChunks] at h
    obtain ⟨s₁,hrefill,h⟩ := bind_eq_ok.mp h
    obtain ⟨-,-,h⟩ := bind_eq_ok.mp h
    obtain ⟨hq,ht⟩ := ih h
    obtain ⟨hq₁,ht₁⟩ := refill_same hrefill
    exact ⟨hq.trans hq₁,ht.trans ht₁⟩

theorem takeChunk_same {r : ℕ × MallocInfo} (h : s.takeChunk mmap t size_class size = .ok r) : SameQueues s r.2 := by
  rw [MallocInfo.takeChunk] at h
  cases ht : s.threads t with
  | none =>
    rw [ht] at h
    obtain ⟨hq,hthreads⟩ := allocateChunks_same h
    exact .of_eq hq hthreads
  | some x =>
    rw [ht] at h
    dsimp only at h
    split_ifs at h
    · obtain ⟨hq,hthreads⟩ := allocateChunks_same h
      exact .of_eq hq hthreads
    · obtain ⟨⟨m₁,s₁⟩,hsome,hr⟩ := bind_eq_ok.mp h
      obtain ⟨hq,hthreads⟩ := allocateChunks_same hsome
      cases hr
      exact .update ht hq ⟨_,congrArg (fun threads => Function.update threads t _) hthreads⟩
    · cases h
      exact .update ht rfl ⟨_,rfl⟩

theorem finish_same {alignment rounded total : ℕ} {r : ℕ × MallocInfo}
    (h : s.finish flags t m alignment size rounded total stack = .ok r) : SameQueues s r.2 := by
  rw [MallocInfo.finish] at h
  obtain ⟨⟨mem,addr⟩,-,h⟩ := bind_eq_ok.mp h
  obtain ⟨mem',-,h⟩ := bind_eq_ok.mp h
  obtain ⟨shadow,-,h⟩ := bind_eq_ok.mp h
  by_cases hlt : size < rounded
  · rw [if_pos hlt] at h
    obtain ⟨shadow',-,hr⟩ := bind_eq_ok.mp h
    cases hr
    exact .of_eq rfl rfl
  · rw [if_neg hlt] at h
    cases h
    exact .of_eq rfl rfl

theorem allocate_same {alignment : ℕ} {r : ℕ × MallocInfo} (h : s.Allocate flags mmap t alignment size stack = .ok r) :
    SameQueues s r.2 := by
  rw [MallocInfo.Allocate] at h
  obtain ⟨⟨rounded,needed⟩,-,h⟩ := bind_eq_ok.mp h
  dsimp only at h
  split_ifs at h
  all_goals first
    | (cases h; exact .refl _)
    | (simp only [bind_eq_ok] at h
       obtain ⟨size_class,-,total,-,-,-,-,-,-,-,⟨m,s₁⟩,htake,hfinish⟩ := h
       exact (takeChunk_same htake).trans (finish_same hfinish))

/-! ## The quarantine -/

theorem shrink_limit (h : MallocInfo.shrink flags fuel s = .ok s') :
    s'.quarantine_.size_ ≤ flags.quarantine_size.toNat ∧ s'.threads = s.threads := by
  induction fuel generalizing s with
  | zero => cases h
  | succ fuel ih =>
    rw [MallocInfo.shrink] at h
    split_ifs at h with hlarge
    · obtain ⟨s₁,hpop,h⟩ := bind_eq_ok.mp h
      obtain ⟨hsize,hthreads⟩ := ih h
      simp only [MallocInfo.QuarantinePop, bind_eq_ok, pure_eq_ok] at hpop
      obtain ⟨-,-,⟨m,q⟩,-,-,-,-,-,size,-,shadow,-,hs₁⟩ := hpop
      cases hs₁
      exact ⟨hsize,hthreads⟩
    · cases h
      exact ⟨not_lt.mp hlarge,rfl⟩

theorem eatList_same {m : ℕ} (h : MallocInfo.eatList size_class fuel m s = .ok s') :
    s'.quarantine_ = s.quarantine_ ∧ s'.threads = s.threads := by
  induction fuel generalizing m s with
  | zero => cases h
  | succ fuel ih =>
    rw [MallocInfo.eatList] at h
    split_ifs at h
    · cases h
      exact ⟨rfl,rfl⟩
    · obtain ⟨hq,hthreads⟩ := ih h
      exact ⟨hq,hthreads⟩

theorem eatClass_same (h : s.eatClass t size_class = .ok s') : SameQueues s s' := by
  rw [MallocInfo.eatClass] at h
  cases ht : s.threads t with
  | none =>
    rw [ht] at h
    cases h
    exact .refl s
  | some x =>
    rw [ht] at h
    obtain ⟨s₁,heat,hs'⟩ := bind_eq_ok.mp h
    obtain ⟨hq,hthreads⟩ := eatList_same heat
    cases hs'
    exact .update ht hq ⟨_,congrArg (fun threads => Function.update threads t _) hthreads⟩

theorem eatClasses_same {classes : List ℕ}
    (h : classes.foldlM (fun s size_class => MallocInfo.eatClass s t size_class) s = .ok s') : SameQueues s s' := by
  induction classes generalizing s with
  | nil =>
    cases h
    exact .refl _
  | cons size_class classes ih =>
    rw [List.foldlM_cons] at h
    obtain ⟨s₁,heat,h⟩ := bind_eq_ok.mp h
    exact (eatClass_same heat).trans (ih h)

theorem eat_same {eat : Bool} (h : (if eat then (List.range kNumberOfSizeClasses).foldlM
    (fun s size_class => MallocInfo.eatClass s t size_class) s else pure s) = .ok s') : SameQueues s s' := by
  cases eat with
  | true => exact eatClasses_same h
  | false =>
    cases h
    exact .refl _

/-- A thread that gives back what it has freed leaves a quarantine that is small enough. -/
theorem Limited.swallow {eat : Bool} (h : ∀ t' x, t' ≠ t → s.threads t' = some x → x.quarantine_.size_ ≤ kMaxThreadLocalQuarantine)
    (hquarantine : s.quarantine_.size_ ≤ flags.quarantine_size.toNat)
    (hswallow : s.SwallowThreadLocalMallocStorage flags t eat = .ok s') : Limited flags s' := by
  rw [MallocInfo.SwallowThreadLocalMallocStorage] at hswallow
  cases ht : s.threads t with
  | none =>
    rw [ht] at hswallow
    cases hswallow
    refine ⟨hquarantine,fun t' x hx => h t' x ?_ hx⟩
    rintro rfl
    rw [ht] at hx
    cases hx
  | some x =>
    rw [ht] at hswallow
    obtain ⟨-,-,hswallow⟩ := bind_eq_ok.mp hswallow
    by_cases hsize : x.quarantine_.size_ > 0
    · rw [if_pos hsize] at hswallow
      obtain ⟨⟨q,mem⟩,-,hswallow⟩ := bind_eq_ok.mp hswallow
      obtain ⟨s₁,hshrink,heat⟩ := bind_eq_ok.mp hswallow
      obtain ⟨hsmall,hthreads⟩ := shrink_limit hshrink
      refine Limited.same ⟨hsmall,fun t' x' hx' => ?_⟩ (eat_same heat)
      rw [hthreads] at hx'
      dsimp only at hx'
      by_cases htt : t' = t
      · subst htt
        rw [Function.update_self] at hx'
        cases hx'
        exact Nat.zero_le _
      · rw [Function.update_of_ne htt] at hx'
        exact h t' x' htt hx'
    · rw [if_neg hsize] at hswallow
      refine Limited.same ⟨hquarantine,fun t' x' hx' => ?_⟩ (eat_same hswallow)
      by_cases htt : t' = t
      · subst htt
        rw [ht] at hx'
        cases hx'
        omega
      · exact h t' x' htt hx'

theorem Limited.update {x : AsanThreadLocalMallocStorage} (h : Limited flags s) (hq : s'.quarantine_ = s.quarantine_)
    (hthreads : s'.threads = Function.update s.threads t (some x)) (hx : x.quarantine_.size_ ≤ kMaxThreadLocalQuarantine) :
    Limited flags s' := by
  refine ⟨hq ▸ h.1,fun t' x' hx' => ?_⟩
  rw [hthreads] at hx'
  by_cases htt : t' = t
  · subst htt
    rw [Function.update_self] at hx'
    cases hx'
    exact hx
  · rw [Function.update_of_ne htt] at hx'
    exact h.2 t' x' hx'

/-- A thread that frees a chunk holds it back, or gives back all that it has freed. -/
theorem Limited.enqueue (h : Limited flags s) (ht : (s.threads t).isSome) (hrun : s.enqueue flags t m = .ok s') :
    Limited flags s' := by
  rw [MallocInfo.enqueue] at hrun
  obtain ⟨x,hx⟩ := Option.isSome_iff_exists.mp ht
  rw [hx] at hrun
  obtain ⟨⟨q,mem⟩,-,hrun⟩ := bind_eq_ok.mp hrun
  dsimp only at hrun
  split_ifs at hrun with hfull
  · refine Limited.swallow (s := _) (fun t' x' htt hx' => ?_) ?_ hrun
    · dsimp only at hx'
      rw [Function.update_of_ne htt] at hx'
      exact h.2 t' x' hx'
    · exact h.1
  · cases hrun
    exact h.update rfl rfl (not_lt.mp hfull)

theorem sortPageGroups_same (h : s.sortPageGroups = .ok s') : s'.quarantine_ = s.quarantine_ ∧ s'.threads = s.threads := by
  rw [MallocInfo.sortPageGroups] at h
  split_ifs at h
  · obtain ⟨sorted,-,hs'⟩ := bind_eq_ok.mp h
    cases hs'
    exact ⟨rfl,rfl⟩
  · cases h
    exact ⟨rfl,rfl⟩

theorem findPageGroup_same {a : ℕ} {r : ℕ × MallocInfo} (h : s.FindPageGroupUnlocked a = .ok r) :
    r.2.quarantine_ = s.quarantine_ ∧ r.2.threads = s.threads := by
  rw [MallocInfo.FindPageGroupUnlocked] at h
  obtain ⟨s₁,hsort,h⟩ := bind_eq_ok.mp h
  have hr : r.2 = s₁ := by
    dsimp only at h
    by_cases hnone :
        MallocInfo.search s₁.page_groups_ a s₁.page_groups_.length 0 s₁.page_groups_.length ≥ s₁.page_groups_.length
    · rw [if_pos hnone] at h
      exact (congrArg Prod.snd (Except.ok.inj h)).symm
    · rw [if_neg hnone] at h
      obtain ⟨-,-,h⟩ := bind_eq_ok.mp h
      exact (congrArg Prod.snd (Except.ok.inj h)).symm
  exact hr ▸ sortPageGroups_same hsort

theorem debugCheck_same {ptr : ℕ} (h : s.debugCheck flags ptr = .ok s') :
    s'.quarantine_ = s.quarantine_ ∧ s'.threads = s.threads := by
  rw [MallocInfo.debugCheck] at h
  split_ifs at h
  · obtain ⟨⟨g,s₁⟩,hfind,h⟩ := bind_eq_ok.mp h
    obtain ⟨-,-,h⟩ := bind_eq_ok.mp h
    cases h
    exact findPageGroup_same hfind
  · cases h
    exact ⟨rfl,rfl⟩

theorem retire_same {ptr : ℕ} (h : s.retire flags t m ptr stack = .ok s') :
    s'.quarantine_ = s.quarantine_ ∧ s'.threads = s.threads := by
  rw [MallocInfo.retire] at h
  dsimp only at h
  by_cases hquarantine : get s.memory m .chunk_state = CHUNK_QUARANTINE
  · rw [if_pos hquarantine] at h
    cases h
  · rw [if_neg hquarantine] at h
    by_cases hallocated : get s.memory m .chunk_state ≠ CHUNK_ALLOCATED
    · rw [if_pos hallocated] at h
      cases h
    · rw [if_neg hallocated] at h
      simp only [bind_eq_ok, pure_eq_ok] at h
      obtain ⟨-,-,-,-,mem,-,rounded,-,shadow,-,-,-,hs'⟩ := h
      cases hs'
      exact ⟨rfl,rfl⟩

theorem Limited.deallocate {ptr : ℕ} (h : Limited flags s) (ht : ptr ≠ 0 → (s.threads t).isSome)
    (hrun : s.Deallocate flags t ptr stack = .ok s') : Limited flags s' := by
  rw [MallocInfo.Deallocate] at hrun
  by_cases hzero : ptr = 0
  · rw [if_pos hzero] at hrun
    cases hrun
    exact h
  · rw [if_neg hzero] at hrun
    obtain ⟨s₁,hdebug,hrun⟩ := bind_eq_ok.mp hrun
    obtain ⟨s₂,hretire,hrun⟩ := bind_eq_ok.mp hrun
    obtain ⟨hq₁,ht₁⟩ := debugCheck_same hdebug
    obtain ⟨hq₂,ht₂⟩ := retire_same hretire
    refine Limited.enqueue (h.same (.of_eq (hq₂.trans hq₁) (ht₂.trans ht₁))) ?_ hrun
    rw [ht₂, ht₁]
    exact ht hzero

theorem Limited.destroy (h : Limited flags s) (t : ℕ) : Limited flags (s.Destroy t) := by
  refine ⟨h.1,fun t' x hx => h.2 t' x ?_⟩
  rw [MallocInfo.Destroy] at hx
  dsimp only at hx
  by_cases htt : t' = t
  · rw [htt, Function.update_self] at hx
    cases hx
  · rwa [Function.update_of_ne htt] at hx

/-! ## Runs -/

/-- A block is freed by a thread that is there. -/
def Heap.FreedByThread (h : Heap) : Act → Prop
  | .Deallocate t ptr _ => ptr ≠ 0 → (h.info.threads t).isSome
  | _ => True

instance (h : Heap) : (x : Act) → Decidable (h.FreedByThread x)
  | .Deallocate .. => inferInstanceAs (Decidable (_ → _))
  | .Allocate .. | .Write .. | .Create | .ThreadReturn _ | .TSDDtor _ => inferInstanceAs (Decidable True)

theorem Limited.act (hl : Limited flags h.info) (hx : h.FreedByThread x) (hrun : h.act flags mmap x = .ok h') :
    Limited flags h'.info := by
  cases x with
  | Allocate t alignment size stack =>
    obtain ⟨⟨addr,info⟩,hallocate,hh'⟩ := bind_eq_ok.mp hrun
    cases hh'
    exact hl.same (allocate_same hallocate)
  | Deallocate t ptr stack =>
    obtain ⟨info,hdeallocate,hh'⟩ := bind_eq_ok.mp hrun
    cases hh'
    exact hl.deallocate hx hdeallocate
  | Write addr value =>
    cases hrun
    exact hl.same (.of_eq rfl rfl)
  | Create =>
    cases hrun
    exact hl.update rfl rfl (Nat.zero_le _)
  | ThreadReturn t =>
    obtain ⟨info,hreturn,hh'⟩ := bind_eq_ok.mp hrun
    cases hh'
    obtain ⟨s₁,hswallow,hs'⟩ := bind_eq_ok.mp hreturn
    cases hs'
    exact (Limited.swallow (fun t' x _ hx => hl.2 t' x hx) hl.1 hswallow).destroy t
  | TSDDtor t =>
    cases hrun
    exact hl.destroy t

/-- Where blocks are freed by threads only, the quarantine is never larger than `quarantine_size` after a call, and no thread
holds back more than `kMaxThreadLocalQuarantine`, whatever else is called. -/
theorem Heap.quarantine_limited {memory : FlatMemory} {shadow : Shadow}
    (hthreads : Transition.AllSteps (Heap.step flags mmap) Heap.FreedByThread (Heap.Init memory shadow) acts) :
    Transition.AllStates (Heap.step flags mmap) (fun h => Limited flags h.info) (Heap.Init memory shadow) acts := by
  refine Transition.allStates_of_inv (fun h x h' hl hx hstep => ?_) (fun _ hl => hl) ?_ hthreads
  · exact Limited.act hl hx (toOption_eq_some.mp hstep)
  · exact ⟨Nat.zero_le _,nofun⟩

theorem Heap.quarantine_limited_sample : Transition.AllStates (Heap.step sampleFlags sampleMmap)
    (fun h => Limited sampleFlags h.info) (Heap.Init (fun _ => 0) fun _ => 0) (sampleActs sampleFlags) :=
  Heap.quarantine_limited (by decide +kernel)

end CompilerRt.AsanAllocator
