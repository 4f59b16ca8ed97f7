import CompilerRt.Asan.Quarantine
import Mathlib

/-! # What a thread gives back

The chunks that a thread has freed go to the quarantine, and at the end of the thread its free chunks go to the free lists.
-/
namespace CompilerRt.AsanAllocator
open Sanitizer AsanMapping
open AsanChunk

variable {flags : Flags} {s s' s₁ : MallocInfo} {L L' L₁ : Layout} {g : Group} {p : Place} {m n t fuel size_class : ℕ}
  {rest l : List ℕ} {x : AsanThreadLocalMallocStorage} {bad : Prop} {mem' : FlatMemory}

/-- The layout with the freed chunks of the thread in the quarantine. -/
def Layout.giveBack (L : Layout) (t : ℕ) : Layout where
  groups := L.groups
  held := Function.update (Function.update L.held (.waiting t) []) .quarantine
    (L.held .quarantine ++ L.held (.waiting t))

theorem giveBack_other (hw : p ≠ .waiting t) (hq : p ≠ .quarantine) : (L.giveBack t).held p = L.held p := by
  rw [Layout.giveBack]
  dsimp only
  rw [Function.update_of_ne hq, Function.update_of_ne hw]

theorem giveBack_waiting : (L.giveBack t).held (.waiting t) = [] := by
  rw [Layout.giveBack]
  dsimp only
  rw [Function.update_of_ne (by simp), Function.update_self]

theorem giveBack_quarantine : (L.giveBack t).held .quarantine = L.held .quarantine ++ L.held (.waiting t) := by
  rw [Layout.giveBack]
  dsimp only
  rw [Function.update_self]

/-- A queue without a size has no chunks. -/
theorem Core.nil_of_size (h : Core flags s L) {q : AsanChunkFifoList} (hf : Fifo s.memory q (L.held p))
    (hsize : q.size_ = 0) : L.held p = [] := by
  cases hp : L.held p with
  | nil => rfl
  | cons m rest =>
    have hm : m ∈ L.held p := hp ▸ List.mem_cons_self
    obtain ⟨g,hg,hmg⟩ := h.group_of hm
    have hle := h.le_size hg
    have hsum := hf.size
    rw [hp, List.map_cons, List.sum_cons, h.size_eq hm hg hmg, Option.getD_some] at hsum
    omega

/-- Memory where only links of chunks in the quarantine change keeps the blocks of the user. -/
theorem Core.kept_links (h : Core flags s L) (hl : ∀ x ∈ l, ∃ p ≠ .user, x ∈ L.held p)
    (hmem : LinksOnly l s.memory s'.memory) (hsh : s'.shadow = s.shadow) : Kept s s' L (L.held .user) := by
  intro y hy g hg hyg
  refine ⟨fun c hc hlt => hmem c fun x hx => ?_,fun _ _ _ => by rw [hsh]⟩
  obtain ⟨p,hp,hxp⟩ := hl x hx
  obtain ⟨g',hg',hxg⟩ := h.group_of hxp
  have hne : y ≠ x := by
    rintro rfl
    exact hp (h.spread.disjoint p .user y hxp hy)
  have hap := h.chunks_apart hg hg' hyg hxg hne
  have hsize := h.le_size hg'
  omega

theorem giveBack_ok (hc : Core flags s L) (hl : Lists s L) (ht : s.threads t = some x) (hx : x.quarantine_.size_ > 0) :
    ∃ q mem, s.quarantine_.PushList x.quarantine_ s.memory = .ok (q,mem) ∧
      Shifted flags s { s with
        quarantine_ := q
        memory := mem
        threads := Function.update s.threads t (some { x with quarantine_ := .clear }) } L (L.giveBack t) := by
  have hq : Fifo s.memory s.quarantine_ (L.held .quarantine) := hl .quarantine
  have hw : Fifo s.memory x.quarantine_ (L.held (.waiting t)) := hl (.waiting t) x ht
  have hmem : ∀ y ∈ L.held .quarantine ++ L.held (.waiting t), ∃ p, y ∈ L.held p := by
    intro y hy
    rcases List.mem_append.mp hy with hy | hy
    · exact ⟨_,hy⟩
    · exact ⟨_,hy⟩
  have hnodup : (L.held .quarantine ++ L.held (.waiting t)).Nodup := by
    refine List.nodup_append.mpr ⟨hc.spread.nodup _,hc.spread.nodup _,fun y hy z hz hyz => ?_⟩
    have hne := hc.spread.disjoint .quarantine (.waiting t) y hy (hyz ▸ hz)
    cases hne
  have hapart : HeadersApart (L.held .quarantine ++ L.held (.waiting t)) := by
    intro y hy z hz hne
    obtain ⟨p,hp⟩ := hmem y hy
    obtain ⟨p',hp'⟩ := hmem z hz
    exact hc.headers_apart hp hp' hne
  obtain ⟨q,mem,hpush,hfifo,hlinks⟩ := hq.pushList hw hx
    (fun y hy => (hc.lt_word hy).trans (by norm_num)) hnodup hapart
  have hset := hc.setLinks (fun y hy => ⟨.quarantine,by decide,hy⟩) hlinks
  have hcore := hset.exchange (i := .waiting t) (j := .quarantine) (u := []) (by simp) rfl
    (List.perm_append_comm : (L.held .quarantine ++ L.held (.waiting t)).Perm _)
    (fun y hy => absurd hy List.not_mem_nil) fun y _ c hcl => by cases hcl
  have hstable := fun p (hp : p ≠ Place.quarantine) y (hy : y ∈ L.held p) => hc.next_stable (fun _ h => h) hlinks hp hy
  have hsizes := fun p y (hy : y ∈ L.held p) => hc.size_stable (fun z hz => ⟨_,hz⟩) hlinks hy
  refine ⟨q,mem,hpush,⟨hcore.of_eq rfl rfl rfl,fun p => ?_,rfl,⟨rfl,rfl⟩,?_,giveBack_other nofun nofun,
    giveBack_other nofun nofun,fun t' => ?_⟩⟩
  · by_cases hpq : p = .quarantine
    · subst hpq
      rw [giveBack_quarantine]
      exact hfifo
    · by_cases hpw : p = .waiting t
      · subst hpw
        rw [giveBack_waiting]
        intro x' hx'
        dsimp only at hx'
        rw [Function.update_self] at hx'
        cases hx'
        exact Fifo.clear mem
      · rw [giveBack_other hpw hpq]
        refine (hl p).congr ?_ (hstable p hpq) (hsizes p)
        cases p with
        | free c => rfl
        | cached t' c =>
          intro x' hx'
          dsimp only at hx'
          by_cases htt : t' = t
          · subst htt
            rw [Function.update_self] at hx'
            cases hx'
            exact ⟨x,ht,rfl⟩
          · rw [Function.update_of_ne htt] at hx'
            exact ⟨x',hx',rfl⟩
        | waiting t' =>
          intro x' hx'
          dsimp only at hx'
          have htt : t' ≠ t := fun htt => hpw (by rw [htt])
          rw [Function.update_of_ne htt] at hx'
          exact ⟨x',hx',rfl⟩
        | quarantine => exact absurd rfl hpq
        | taken => trivial
        | user => trivial
  · exact hc.kept_links (fun y hy => ⟨.quarantine,by decide,hy⟩) hlinks rfl
  · dsimp only
    by_cases htt : t' = t
    · subst htt
      rw [Function.update_self, ht]
      rfl
    · rw [Function.update_of_ne htt]

/-- The freed chunks of a thread have gone to the quarantine. -/
structure Swallowed (flags : Flags) (t : ℕ) (s s' : MallocInfo) (L L' : Layout) : Prop where
  shifted : Shifted flags s s' L L'
  waiting : (s.threads t).isSome → L'.held (.waiting t) = []
  passes : L.Passes flags L'
  held : ∀ p, p ≠ .waiting t → p ≠ .quarantine → (∀ c, p ≠ .free c) → L'.held p = L.held p
  lists : ∀ t' x', s'.threads t' = some x' → ∃ x, s.threads t' = some x ∧ x'.free_lists_ = x.free_lists_
  dead : s.threads t = none → L' = L

theorem swallow_runs (hc : Core flags s L) (hl : Lists s L) (hred : flags.redzone ≤ 4096)
    (hquarantine : ¬bad → 0 < flags.quarantine_size) :
    Runs bad (s.SwallowThreadLocalMallocStorage flags t false) fun s' => ∃ L', Swallowed flags t s s' L L' := by
  rw [MallocInfo.SwallowThreadLocalMallocStorage]
  cases ht : s.threads t with
  | none =>
    refine Runs.ok ⟨L,Shifted.refl hc hl,fun h => ?_,.of_eq rfl,fun _ _ _ _ => rfl,fun t' x' hx' => ⟨x',hx',rfl⟩,fun _ => rfl⟩
    rw [ht] at h
    cases h
  | some x =>
    refine (Runs.check hquarantine).bind fun _ _ => ?_
    by_cases hsize : x.quarantine_.size_ > 0
    · obtain ⟨q,mem,hpush,hshift⟩ := giveBack_ok hc hl ht hsize
      obtain ⟨s',L',hrun,h⟩ := shrink_ok hred hshift.core hshift.lists (hshift.core.length_lt .quarantine)
      rw [if_pos hsize, hpush]
      simp only [ok_bind, hrun, Bool.false_eq_true, if_false]
      have hpasses : L.Passes flags (L.giveBack t) := fun size _ => by
        rw [giveBack_quarantine]
        exact Passed.push _ _
      refine Runs.ok ⟨L',hshift.trans h.shifted,fun _ => ?_,hpasses.trans h.passes fun _ hg => h.shifted.groups.symm ▸ hg,fun p hw hq hf => ?_,
        fun t' x' hx' => ?_,fun hdead => ?_⟩
      · rw [h.held (.waiting t) (by simp) (by simp), giveBack_waiting]
      · rw [h.held p hq hf, giveBack_other hw hq]
      · rw [h.threads] at hx'
        dsimp only at hx'
        by_cases htt : t' = t
        · subst htt
          rw [Function.update_self] at hx'
          cases hx'
          exact ⟨x,ht,rfl⟩
        · rw [Function.update_of_ne htt] at hx'
          exact ⟨x',hx',rfl⟩
      · rw [ht] at hdead
        cases hdead
    · have hnil : L.held (.waiting t) = [] := hc.nil_of_size (hl (.waiting t) x ht) (by omega)
      rw [if_neg hsize]
      exact Runs.ok ⟨L,Shifted.refl hc hl,fun _ => hnil,.of_eq rfl,fun _ _ _ _ => rfl,fun t' x' hx' => ⟨x',hx',rfl⟩,
        fun _ => rfl⟩

end CompilerRt.AsanAllocator
