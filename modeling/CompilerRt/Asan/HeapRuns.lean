import CompilerRt.Asan.Deallocating
import CompilerRt.Asan.ThreadEnd
import Mathlib

/-! # Runs of the heap

What holds of the allocator and of the user's blocks in every state of a run.
-/
namespace CompilerRt.AsanAllocator
open Sanitizer AsanMapping
open AsanChunk

variable {flags : Flags} {mmap : ℕ → ℕ} {h h' : Heap} {s s' : MallocInfo} {L L' : Layout} {g : Group} {p : ℕ × ℕ}
  {m m' t a : ℕ} {x : Act} {bad : Prop} {mem mem' : FlatMemory}

/-- The block of a chunk: where it begins, and what its header says of the size. -/
structure Block (mem : FlatMemory) (p : ℕ × ℕ) (m : ℕ) : Prop where
  beg : Beg mem m = some p.1
  used : get mem m .used_size = max p.2 1

/-- What holds between calls. -/
structure Heap.Inv (flags : Flags) (h : Heap) (L : Layout) : Prop where
  core : Core flags h.info L
  lists : Lists h.info L
  taken : L.held .taken = []
  indexed : Indexed h.info
  unborn : ∀ t, h.n_threads_ ≤ t →
    h.info.threads t = none ∧ L.held (.waiting t) = [] ∧ ∀ c, L.held (.cached t c) = []
  block : ∀ p ∈ h.user, ∃ m ∈ L.held .user, Block h.info.memory p m
  chunk : ∀ m ∈ L.held .user, ∃ p ∈ h.user, Block h.info.memory p m
  nodup : (h.user.map Prod.fst).Nodup

/-- The call passes its checks: the alignment is one that a header can hold, there is room in the table of the groups, the
link of a chunk is before the user's bytes or zero in them, and there is a quarantine. -/
def Heap.Safe (flags : Flags) (h : Heap) : Act → Prop
  | .Allocate _ alignment _ _ => IsPowerOfTwo alignment = true ∧ alignment < 2^31 ∧
      h.info.page_groups_.length < kMaxAvailableRam / kMinMmapSize
  | .Deallocate _ ptr _ => (16 < flags.redzone ∨
      get h.info.memory (MallocInfo.PtrToChunk flags h.info.memory ptr) .next = 0) ∧ 0 < flags.quarantine_size
  | .ThreadReturn _ => 0 < flags.quarantine_size
  | _ => True

/-! ## Blocks -/

theorem Block.of_same {n : ℕ} (hb : Block s.memory p m) (hs : Same s s' m (m + n)) (hn : 32 ≤ n) : Block s'.memory p m := by
  have hhead : ∀ a, m ≤ a → a < m + 16 → s'.memory a = s.memory a := fun a ha hlt => hs.memory a ha (by omega)
  exact ⟨(beg_congr hhead).trans hb.beg,(get_head_congr (by decide) hhead).trans hb.used⟩

/-- A block is inside its chunk. -/
structure Inside (flags : Flags) (s : MallocInfo) (g : Group) (p : ℕ × ℕ) (m : ℕ) : Prop where
  owned : Owned flags s.memory s.shadow g.size m p.1
  low : m + flags.redzone ≤ p.1
  high : p.1 + roundedUp flags.redzone (max p.2 1) ≤ m + g.size
  room : max p.2 1 ≤ roundedUp flags.redzone (max p.2 1)

theorem Core.inside (hc : Core flags s L) (hm : m ∈ L.held .user) (hb : Block s.memory p m) :
    ∃ g ∈ L.groups, m ∈ g.chunks ∧ Inside flags s g p m := by
  obtain ⟨g,hg,hmg,hok⟩ := hc.ok hm
  obtain ⟨addr,howned⟩ := hok.owned rfl
  obtain rfl : p.1 = addr := Option.some.inj (hb.beg.symm.trans howned.beg)
  have hfits := howned.fits
  rw [hb.used] at hfits
  exact ⟨g,hg,hmg,howned,howned.behind,hfits,(le_roundedUp flags.pos _).1⟩

theorem Core.block_unique {p' : ℕ × ℕ} (hc : Core flags s L) (hm : m ∈ L.held .user) (hm' : m' ∈ L.held .user)
    (hb : Block s.memory p m) (hb' : Block s.memory p' m') (heq : p.1 = p'.1) : m = m' := by
  by_contra hne
  obtain ⟨g,hg,hmg,h⟩ := hc.inside hm hb
  obtain ⟨g',hg',hmg',h'⟩ := hc.inside hm' hb'
  have hpos := flags.pos
  have h1 := h.low
  have h2 := h.high
  have h3 := h.room
  have h4 := h'.low
  have h5 := h'.high
  have h6 := h'.room
  rcases hc.chunks_apart hg hg' hmg hmg' hne with hap | hap
  · omega
  · omega

theorem Kept.block {l : List ℕ} (hk : Kept s s' L l) (hc : Core flags s L) (hl : ∀ m ∈ l, m ∈ L.held .user) (hm : m ∈ l)
    (hb : Block s.memory p m) : Block s'.memory p m := by
  obtain ⟨g,hg,hmg⟩ := hc.group_of (hl m hm)
  exact hb.of_same (hk m hm g hg hmg) (hc.le_size hg)

/-- The bytes of blocks that stay are not changed but by the user. -/
def Heap.Keeps (h h' : Heap) (x : Act) : Prop :=
  ∀ p ∈ h.user, p ∈ h'.user → ∀ a, p.1 ≤ a → a < p.1 + max p.2 1 → (∀ v, x ≠ .Write a v) →
    h'.info.memory a = h.info.memory a

theorem Kept.bytes {l : List ℕ} (hk : Kept s s' L l) (hc : Core flags s L) (hm : m ∈ L.held .user) (hl : m ∈ l)
    (hb : Block s.memory p m) (ha : p.1 ≤ a) (hlt : a < p.1 + max p.2 1) : s'.memory a = s.memory a := by
  obtain ⟨g,hg,hmg,h⟩ := hc.inside hm hb
  have h1 := h.low
  have h2 := h.high
  have h3 := h.room
  exact (hk m hl g hg hmg).memory a (by omega) (by omega)

/-! ## Steps -/

/-- The chunks that were the user's are still his, with the same blocks. -/
theorem Heap.Inv.same_user (hi : h.Inv flags L) (hc : Core flags s' L') (hl : Lists s' L') (htaken : L'.held .taken = L.held .taken)
    (hindexed : Indexed s') (hkept : Kept h.info s' L (L.held .user)) (huser : L'.held .user = L.held .user) {n : ℕ}
    (hunborn : ∀ t, n ≤ t → s'.threads t = none ∧ L'.held (.waiting t) = [] ∧ ∀ c, L'.held (.cached t c) = []) :
    Heap.Inv flags ⟨s',n,h.user⟩ L' ∧ ∀ x, h.Keeps ⟨s',n,h.user⟩ x := by
  refine ⟨⟨hc,hl,htaken.trans hi.taken,hindexed,hunborn,fun p hp => ?_,fun m hm => ?_,hi.nodup⟩,fun x p hp _ a ha hlt _ => ?_⟩
  · obtain ⟨m,hm,hb⟩ := hi.block p hp
    exact ⟨m,huser.symm ▸ hm,hkept.block hi.core (fun _ h => h) hm hb⟩
  · rw [huser] at hm
    obtain ⟨p,hp,hb⟩ := hi.chunk m hm
    exact ⟨p,hp,hkept.block hi.core (fun _ h => h) hm hb⟩
  · obtain ⟨m,hm,hb⟩ := hi.block p hp
    exact hkept.bytes hi.core hm hm hb ha hlt

theorem Heap.Inv.allocated {alignment size addr : ℕ} (hi : h.Inv flags L)
    (ha : Allocated flags h.info s' L L' alignment (max size 1) addr) :
    Heap.Inv flags ⟨s',h.n_threads_,(addr,size) :: h.user⟩ L' ∧
      ∀ x, h.Keeps ⟨s',h.n_threads_,(addr,size) :: h.user⟩ x := by
  obtain ⟨m,huser,hbeg,hused⟩ := ha.user
  have hm : m ∈ L'.held .user := huser ▸ List.mem_cons_self
  have hnew : Block s'.memory (addr,size) m := ⟨hbeg,hused⟩
  have hold : ∀ m' ∈ L.held .user, ∀ p, Block h.info.memory p m' → Block s'.memory p m' := fun m' hm' p hb =>
    ha.kept.block hi.core (fun _ h => h) hm' hb
  refine ⟨⟨ha.core,ha.lists,ha.taken,?_,fun t ht => ?_,fun p hp => ?_,fun m' hm' => ?_,?_⟩,
    fun x p hp _ a hlow hlt _ => ?_⟩
  · obtain ⟨new,-,hpages⟩ := ha.groups
    have hle := hi.indexed.1
    rw [Indexed, ha.sorted, hpages, List.length_append]
    refine ⟨by omega,fun heq => ?_⟩
    obtain rfl : new = [] := List.eq_nil_of_length_eq_zero (by rw [List.length_map] at heq; omega)
    rw [List.map_nil, List.append_nil]
    exact hi.indexed.2 (by simpa using heq)
  · obtain ⟨hnone,hwaiting,hcached⟩ := hi.unborn t ht
    refine ⟨?_,?_,fun c => ?_⟩
    · have hsome := ha.threads t
      rw [hnone] at hsome
      exact Option.isSome_eq_false_iff.mp hsome |> Option.isNone_iff_eq_none.mp
    · rw [ha.held _ rfl, hwaiting]
    · rw [ha.cached t c hnone, hcached]
  · rcases List.mem_cons.mp hp with rfl | hp
    · exact ⟨m,hm,hnew⟩
    · obtain ⟨m',hm',hb⟩ := hi.block p hp
      exact ⟨m',huser ▸ List.mem_cons_of_mem m hm',hold m' hm' p hb⟩
  · rw [huser] at hm'
    rcases List.mem_cons.mp hm' with rfl | hm'
    · exact ⟨_,List.mem_cons_self,hnew⟩
    · obtain ⟨p,hp,hb⟩ := hi.chunk m' hm'
      exact ⟨p,List.mem_cons_of_mem _ hp,hold m' hm' p hb⟩
  · refine List.nodup_cons.mpr ⟨fun hmem => ?_,hi.nodup⟩
    obtain ⟨p,hp,heq⟩ := List.mem_map.mp hmem
    obtain ⟨m',hm',hb⟩ := hi.block p hp
    have hm'' : m' ∈ L'.held .user := huser ▸ List.mem_cons_of_mem m hm'
    have hmm := ha.core.block_unique hm'' hm (hold m' hm' p hb) hnew heq
    have hnodup := ha.core.spread.nodup .user
    rw [huser] at hnodup
    exact (List.nodup_cons.mp hnodup).1 (hmm ▸ hm')
  · obtain ⟨m',hm',hb⟩ := hi.block p hp
    exact ha.kept.bytes hi.core hm' hm' hb hlow hlt

theorem Heap.Inv.deallocated {ptr : ℕ} (hi : h.Inv flags L) (hd : Deallocated flags h.info s' L L' m)
    (hm : m ∈ L.held .user) (hbeg : Beg h.info.memory m = some ptr) :
    Heap.Inv flags ⟨s',h.n_threads_,h.user.filter fun p => p.1 ≠ ptr⟩ L' ∧
      ∀ x, h.Keeps ⟨s',h.n_threads_,h.user.filter fun p => p.1 ≠ ptr⟩ x := by
  have herase : ∀ m', m' ∈ (L.held .user).erase m ↔ m' ≠ m ∧ m' ∈ L.held .user := fun m' =>
    (hi.core.spread.nodup .user).mem_erase_iff
  obtain ⟨p₀,hp₀,hb₀⟩ := hi.chunk m hm
  have hptr : p₀.1 = ptr := Option.some.inj (hb₀.beg.symm.trans hbeg)
  have hother : ∀ p m', m' ∈ L.held .user → Block h.info.memory p m' → (p.1 ≠ ptr ↔ m' ≠ m) := by
    intro p m' hm' hb
    rw [← hptr]
    refine not_congr ⟨fun heq => hi.core.block_unique hm' hm hb hb₀ heq,?_⟩
    rintro rfl
    exact Option.some.inj (hb.beg.symm.trans hb₀.beg)
  have hsub : ∀ m' ∈ (L.held .user).erase m, m' ∈ L.held .user := fun m' hm' => ((herase m').mp hm').2
  refine ⟨⟨hd.core,hd.lists,hd.taken.trans hi.taken,hd.indexed,fun t ht => ?_,fun p hp => ?_,fun m' hm' => ?_,?_⟩,
    fun x p hp hp' a hlow hlt _ => ?_⟩
  · obtain ⟨hnone,hwaiting,hcached⟩ := hi.unborn t ht
    refine ⟨?_,(hd.waiting t hnone).trans hwaiting,fun c => (hd.cached t c).trans (hcached c)⟩
    have hsome := hd.threads t
    rw [hnone] at hsome
    exact Option.isSome_eq_false_iff.mp hsome |> Option.isNone_iff_eq_none.mp
  · obtain ⟨hp,hne⟩ := List.mem_filter.mp hp
    obtain ⟨m',hm',hb⟩ := hi.block p hp
    have hmem := (herase m').mpr ⟨(hother p m' hm' hb).mp (of_decide_eq_true hne),hm'⟩
    exact ⟨m',hd.user.symm ▸ hmem,hd.kept.block hi.core hsub hmem hb⟩
  · rw [hd.user] at hm'
    obtain ⟨hne,hm''⟩ := (herase m').mp hm'
    obtain ⟨p,hp,hb⟩ := hi.chunk m' hm''
    exact ⟨p,List.mem_filter.mpr ⟨hp,decide_eq_true ((hother p m' hm'' hb).mpr hne)⟩,hd.kept.block hi.core hsub hm' hb⟩
  · exact hi.nodup.sublist (List.filter_sublist.map _)
  · obtain ⟨-,hne⟩ := List.mem_filter.mp hp'
    obtain ⟨m',hm',hb⟩ := hi.block p hp
    have hmem := (herase m').mpr ⟨(hother p m' hm' hb).mp (of_decide_eq_true hne),hm'⟩
    exact hd.kept.bytes hi.core hm' hmem hb hlow hlt

theorem Inside.write (hin : Inside flags s g p m) (ha : p.1 ≤ a) (hlt : a < p.1 + max p.2 1) (v : BitVec 8) :
    Within s { s with memory := Function.update s.memory a v } m g.size ∧
      ∀ b, m ≤ b → b < p.1 → Function.update s.memory a v b = s.memory b := by
  have h1 := hin.low
  have h2 := hin.high
  have h3 := hin.room
  refine ⟨⟨fun b hb => ?_,fun _ _ => rfl⟩,fun b _ hb => ?_⟩
  · dsimp only
    rw [Function.update_of_ne (by omega)]
  · rw [Function.update_of_ne (by omega)]

/-- The user writes into his blocks, and all else stays. -/
theorem Heap.Inv.write (hi : h.Inv flags L) (hp : p ∈ h.user) (ha : p.1 ≤ a) (hlt : a < p.1 + max p.2 1) (v : BitVec 8) :
    Heap.Inv flags { h with info.memory := Function.update h.info.memory a v } L ∧
      h.Keeps { h with info.memory := Function.update h.info.memory a v } (.Write a v) := by
  obtain ⟨m,hm,hb⟩ := hi.block p hp
  obtain ⟨g,hg,hmg,hin⟩ := hi.core.inside hm hb
  obtain ⟨hwithin,hlow⟩ := hin.write ha hlt v
  have hbehind := hin.low
  have h16 := flags.le_redzone.1
  have hhead : ∀ m' ∈ L.held .user, ∀ p', Block h.info.memory p' m' →
      Block (Function.update h.info.memory a v) p' m' := by
    intro m' hm' p' hb'
    have hget : ∀ b, m' ≤ b → b < m' + 16 → Function.update h.info.memory a v b = h.info.memory b := by
      intro b hb1 hb2
      rcases eq_or_ne m' m with rfl | hne
      · exact hlow b hb1 (by omega)
      · obtain ⟨g',hg',hmg'⟩ := hi.core.group_of hm'
        have hap := hi.core.chunks_apart hg hg' hmg hmg' hne.symm
        have hsize := hi.core.le_size hg'
        exact hwithin.memory b (by omega)
    exact ⟨(beg_congr hget).trans hb'.beg,(get_head_congr (by decide) hget).trans hb'.used⟩
  refine ⟨⟨⟨hi.core.pages,hi.core.used,hi.core.mapped,fun g' hg' => ?_,hi.core.tail,hi.core.apart,hi.core.spread,
    fun g' hg' m' hmg' q hq => ?_⟩,fun q => ?_,hi.taken,hi.indexed,hi.unborn,fun p' hp' => ?_,fun m' hm' => ?_,hi.nodup⟩,
    fun p' hp' _ b hb1 hb2 hw => ?_⟩
  · have hap := hi.core.page_apart hg hg' hmg
    exact (page_congr fun b hb1 hb2 => hwithin.memory b (by omega)).trans (hi.core.page g' hg')
  · rcases eq_or_ne m' m with rfl | hne
    · refine (hi.core.chunk g' hg' m' hmg' q hq).congr (fun b hb1 hb2 => hlow b hb1 (by omega))
        (fun _ addr hbeg b hb1 hb2 => hlow b hb1 ?_) fun _ _ _ => rfl
      obtain rfl : p.1 = addr := Option.some.inj (hb.beg.symm.trans hbeg)
      exact hb2
    · exact hi.core.other_ok hg hmg hwithin hg' hmg' hne hq
  · by_cases hq : q = .user
    · subst hq
      trivial
    · have hnot : m ∉ L.held q := fun hmq => hq (hi.core.spread.disjoint q .user m hmq hm)
      exact (hi.lists q).change hi.core (.of_eq rfl rfl rfl q) hg hmg hwithin hnot
  · obtain ⟨m',hm',hb'⟩ := hi.block p' hp'
    exact ⟨m',hm',hhead m' hm' p' hb'⟩
  · obtain ⟨p',hp',hb'⟩ := hi.chunk m' hm'
    exact ⟨p',hp',hhead m' hm' p' hb'⟩
  · rcases eq_or_ne b a with rfl | hne
    · exact absurd rfl (hw v)
    · exact Function.update_of_ne hne v h.info.memory

/-- A thread that begins has nothing. -/
theorem Heap.Inv.create (hi : h.Inv flags L) :
    Heap.Inv flags ⟨h.info.Create h.n_threads_,h.n_threads_ + 1,h.user⟩ L ∧
      ∀ x, h.Keeps ⟨h.info.Create h.n_threads_,h.n_threads_ + 1,h.user⟩ x := by
  obtain ⟨-,hwaiting,hcached⟩ := hi.unborn h.n_threads_ le_rfl
  have hthreads : ∀ t x, (h.info.Create h.n_threads_).threads t = some x →
      t = h.n_threads_ ∧ x = ⟨.clear,fun _ => 0⟩ ∨ h.info.threads t = some x := by
    intro t x hx
    rw [MallocInfo.Create] at hx
    dsimp only at hx
    by_cases htt : t = h.n_threads_
    · rw [htt, Function.update_self] at hx
      exact .inl ⟨htt,(Option.some.inj hx).symm⟩
    · rw [Function.update_of_ne htt] at hx
      exact .inr hx
  have hcore : Core flags (h.info.Create h.n_threads_) L := hi.core.of_eq rfl rfl rfl
  have hkept : Kept h.info (h.info.Create h.n_threads_) L (L.held .user) := (Kept.refl _ L _).of_eq rfl rfl
  refine hi.same_user hcore (fun q => ?_) rfl hi.indexed hkept rfl fun t ht => ?_
  · cases q with
    | free c => exact hi.lists (.free c)
    | cached t c =>
      intro x hx
      rcases hthreads t x hx with ⟨rfl,rfl⟩ | hx
      · rw [hcached]
        rfl
      · exact hi.lists (.cached t c) x hx
    | waiting t =>
      intro x hx
      rcases hthreads t x hx with ⟨rfl,rfl⟩ | hx
      · rw [hwaiting]
        exact Fifo.clear _
      · exact hi.lists (.waiting t) x hx
    | quarantine => exact hi.lists .quarantine
    | taken => trivial
    | user => trivial
  · obtain ⟨hnone,hrest⟩ := hi.unborn t (by omega)
    refine ⟨?_,hrest⟩
    rw [MallocInfo.Create]
    exact (Function.update_of_ne (by omega) _ _).trans hnone

theorem Heap.Inv.returned (hi : h.Inv flags L) (hr : Returned flags t h.info s' L L') :
    Heap.Inv flags ⟨s',h.n_threads_,h.user⟩ L' ∧ ∀ x, h.Keeps ⟨s',h.n_threads_,h.user⟩ x := by
  refine hi.same_user hr.core hr.lists hr.taken ?_ hr.kept hr.user fun t' ht' => ?_
  · rw [Indexed, hr.pages.1, hr.pages.2]
    exact hi.indexed
  · obtain ⟨hnone,hwaiting,hcached⟩ := hi.unborn t' ht'
    have hsome := hr.threads t'
    rw [hnone, Option.isSome_none, Bool.and_false] at hsome
    refine ⟨Option.isNone_iff_eq_none.mp (Option.isSome_eq_false_iff.mp hsome),?_⟩
    rcases eq_or_ne t' t with rfl | hne
    · rw [hr.dead hnone]
      exact ⟨hwaiting,hcached⟩
    · exact ⟨(hr.others t' hne).1.trans hwaiting,fun c => ((hr.others t' hne).2 c).trans (hcached c)⟩

theorem Heap.Inv.destroyed (hi : h.Inv flags L) (t : ℕ) :
    Heap.Inv flags ⟨h.info.TSDDtor t,h.n_threads_,h.user⟩ L ∧ ∀ x, h.Keeps ⟨h.info.TSDDtor t,h.n_threads_,h.user⟩ x := by
  have hcore : Core flags (h.info.TSDDtor t) L := hi.core.of_eq rfl rfl rfl
  have hkept : Kept h.info (h.info.TSDDtor t) L (L.held .user) := (Kept.refl _ L _).of_eq rfl rfl
  refine hi.same_user hcore (destroy_lists hi.lists t) rfl hi.indexed hkept rfl fun t' ht' => ?_
  obtain ⟨hnone,hrest⟩ := hi.unborn t' ht'
  have hsome := destroy_threads h.info t t'
  rw [hnone, Option.isSome_none, Bool.and_false] at hsome
  exact ⟨Option.isNone_iff_eq_none.mp (Option.isSome_eq_false_iff.mp hsome),hrest⟩

/-- Nothing is on a list of a thread that is gone. -/
def Heap.Lossless (h : Heap) (L : Layout) : Prop :=
  ∀ t, h.info.threads t = none → L.held (.waiting t) = [] ∧ ∀ c, L.held (.cached t c) = []

theorem Heap.Lossless.of_held (hl : h.Lossless L) (hthreads : ∀ t, h'.info.threads t = none → h.info.threads t = none)
    (hwaiting : ∀ t, h.info.threads t = none → L'.held (.waiting t) = L.held (.waiting t))
    (hcached : ∀ t c, h.info.threads t = none → L'.held (.cached t c) = L.held (.cached t c)) : h'.Lossless L' := by
  intro t hnone
  have hold := hthreads t hnone
  exact ⟨(hwaiting t hold).trans (hl t hold).1,fun c => (hcached t c hold).trans ((hl t hold).2 c)⟩

theorem none_of_isSome_eq (hsome : (s'.threads t).isSome = (s.threads t).isSome) (h : s'.threads t = none) : s.threads t = none := by
  rw [h] at hsome
  exact Option.isNone_iff_eq_none.mp (Option.isSome_eq_false_iff.mp hsome.symm)

theorem Heap.Lossless.returned {n : ℕ} {user : List (ℕ × ℕ)} (hl : h.Lossless L) (hr : Returned flags t h.info s' L L') :
    Heap.Lossless ⟨s',n,user⟩ L' := by
  intro t' hnone
  rcases eq_or_ne t' t with rfl | hne
  · cases hold : h.info.threads t' with
    | none =>
      rw [hr.dead hold]
      exact hl t' hold
    | some x => exact hr.none_left (by rw [hold]; rfl)
  · have hsome := hr.threads t'
    rw [decide_eq_true hne, Bool.true_and] at hsome
    have hold := none_of_isSome_eq hsome hnone
    exact ⟨(hr.others t' hne).1.trans (hl t' hold).1,fun c => ((hr.others t' hne).2 c).trans ((hl t' hold).2 c)⟩

/-- The calls end with a state of the heap again. Threads that return take no chunk away with them. -/
structure Heap.Ran (flags : Flags) (h : Heap) (L : Layout) (acts : List Act) (h' : Heap) (L' : Layout) : Prop where
  inv : h'.Inv flags L'
  groups : ∀ g ∈ L.groups, g ∈ L'.groups
  passes : L.Passes flags L'
  lossless : (∀ t, .TSDDtor t ∉ acts) → h.Lossless L → h'.Lossless L'

namespace Heap.Ran
variable {acts acts' : List Act} {h₁ : Heap} {L₁ : Layout}

theorem refl (hi : h.Inv flags L) : h.Ran flags L acts h L := ⟨hi,fun _ hg => hg,.of_eq rfl,fun _ hl => hl⟩

theorem trans (hr : h.Ran flags L acts h₁ L₁) (hr' : h₁.Ran flags L₁ acts' h' L') : h.Ran flags L (acts ++ acts') h' L' where
  inv := hr'.inv
  groups := fun g hg => hr'.groups g (hr.groups g hg)
  passes := hr.passes.trans hr'.passes hr'.groups
  lossless := fun hno hl => hr'.lossless (fun t hmem => hno t (List.mem_append_right _ hmem))
    (hr.lossless (fun t hmem => hno t (List.mem_append_left _ hmem)) hl)

end Heap.Ran

/-- What a call keeps, and when it does not end the process. -/
theorem Heap.act_runs (bad : Prop) (hi : h.Inv flags L) (hlegal : h.Legal x) (hred : flags.redzone ≤ 4096)
    (hsafe : ¬bad → h.Safe flags x) :
    Runs bad (h.act flags mmap x) fun h' => ∃ L', h.Ran flags L [x] h' L' ∧ h.Keeps h' x := by
  cases x with
  | Allocate t alignment size stack =>
    have hrun := allocate_runs t size stack mmap hi.core hi.lists hi.taken hred
      hlegal.1 (fun hbad => (hsafe hbad).1) (fun hbad => (hsafe hbad).2.1) fun hbad => (hsafe hbad).2.2
    refine hrun.bind fun r hr => Runs.ok ?_
    rcases hr with rfl | ⟨L',ha⟩
    · exact ⟨L,.refl hi,fun p _ _ a _ _ _ => rfl⟩
    · obtain ⟨hinv,hkeeps⟩ := hi.allocated ha
      obtain ⟨new,hgroups,-⟩ := ha.groups
      rw [if_neg ha.ne_zero]
      exact ⟨L',⟨hinv,fun g hg => hgroups ▸ List.mem_append_left new hg,.of_eq (ha.held _ rfl),fun _ hl => hl.of_held
        (fun t' => none_of_isSome_eq (ha.threads t')) (fun t' _ => ha.held _ rfl) ha.cached⟩,hkeeps _⟩
  | Deallocate t ptr stack =>
    by_cases hzero : ptr = 0
    · subst hzero
      have hfilter : h.user.filter (fun p => p.1 ≠ 0) = h.user := by
        refine List.filter_eq_self.mpr fun p hp => decide_eq_true ?_
        obtain ⟨m,hm,hb⟩ := hi.block p hp
        obtain ⟨g,-,-,hin⟩ := hi.core.inside hm hb
        have hlow := hin.low
        have hpos := flags.pos
        omega
      rw [Heap.act, MallocInfo.Deallocate, if_pos rfl]
      refine Runs.ok ?_
      rw [hfilter]
      exact ⟨L,.refl hi,fun p _ _ a _ _ _ => rfl⟩
    · obtain ⟨p,hp,rfl⟩ := hlegal.resolve_left hzero
      obtain ⟨m,hm,hb⟩ := hi.block _ hp
      obtain ⟨g,-,-,hin⟩ := hi.core.inside hm hb
      refine (deallocate_runs hi.core hi.lists hi.indexed hm hb.beg hred (fun hbad => hin.owned.ptr ▸ (hsafe hbad).1)
        fun hbad => (hsafe hbad).2).bind fun s' hs' => Runs.ok ?_
      obtain ⟨L',hd⟩ := hs'
      obtain ⟨hinv,hkeeps⟩ := hi.deallocated hd hm hb.beg
      exact ⟨L',⟨hinv,fun g hg => hd.groups ▸ hg,hd.passes,fun _ hl => hl.of_held (fun t' => none_of_isSome_eq (hd.threads t'))
        hd.waiting fun t' c _ => hd.cached t' c⟩,hkeeps _⟩
  | Write addr v =>
    obtain ⟨p,hp,ha,hlt⟩ := hlegal
    obtain ⟨hinv,hkeeps⟩ := hi.write hp ha (lt_of_lt_of_le hlt (Nat.add_le_add_left (le_max_left _ _) _)) v
    exact Runs.ok ⟨L,⟨hinv,fun _ hg => hg,.of_eq rfl,fun _ hl => hl⟩,hkeeps⟩
  | Create =>
    refine Runs.ok ⟨L,⟨hi.create.1,fun _ hg => hg,.of_eq rfl,fun _ hl =>
      hl.of_held (fun t hnone => ?_) (fun _ _ => rfl) fun _ _ _ => rfl⟩,hi.create.2 _⟩
    by_contra hsome
    have hne : t ≠ h.n_threads_ := by
      rintro rfl
      exact hsome (hi.unborn _ le_rfl).1
    exact hsome ((Function.update_of_ne hne _ h.info.threads).symm.trans hnone)
  | ThreadReturn t =>
    refine (threadReturn_runs hi.core hi.lists hred hsafe).bind fun s' hs' => Runs.ok ?_
    obtain ⟨L',hr⟩ := hs'
    obtain ⟨hinv,hkeeps⟩ := hi.returned hr
    exact ⟨L',⟨hinv,fun g hg => hr.groups ▸ hg,hr.passes,fun _ hl => hl.returned hr⟩,hkeeps _⟩
  | TSDDtor t =>
    exact Runs.ok ⟨L,⟨(hi.destroyed t).1,fun _ hg => hg,.of_eq rfl,fun hno => absurd List.mem_cons_self (hno t)⟩,
      (hi.destroyed t).2 _⟩

/-- Nothing is mapped yet. -/
theorem Heap.inv_init (flags : Flags) (memory : FlatMemory) (shadow : Shadow) :
    Heap.Inv flags (Heap.Init memory shadow) ⟨[],fun _ => []⟩ := by
  refine ⟨⟨List.Perm.refl _,nofun,nofun,nofun,nofun,List.Pairwise.nil,Spread.empty,nofun⟩,fun q => ?_,rfl,
    ⟨le_rfl,fun _ => List.Pairwise.nil⟩,fun t _ => ⟨rfl,rfl,fun _ => rfl⟩,nofun,nofun,List.nodup_nil⟩
  cases q with
  | free c => rfl
  | cached t c => exact fun x hx => nomatch hx
  | waiting t => exact fun x hx => nomatch hx
  | quarantine => exact Fifo.clear _
  | taken => trivial
  | user => trivial

/-- What a call that returns has done. -/
theorem Heap.Inv.step (hi : h.Inv flags L) (hlegal : h.Legal x) (hred : flags.redzone ≤ 4096)
    (hstep : h.step flags mmap x = some h') : ∃ L', h.Ran flags L [x] h' L' ∧ h.Keeps h' x :=
  (Heap.act_runs True hi hlegal hred fun hno => absurd trivial hno).of_ok (toOption_eq_some.mp hstep)

/-- The state after calls that are legal, from a start without any group. -/
def Heap.Reached (flags : Flags) (mmap : ℕ → ℕ) (acts : List Act) (h : Heap) : Prop :=
  ∃ memory shadow, Transition.AllSteps (Heap.step flags mmap) Heap.Legal (Heap.Init memory shadow) acts ∧
    Transition.run (Heap.step flags mmap) (Heap.Init memory shadow) acts = some h

/-- The invariant holds after a run of calls. -/
theorem Heap.Inv.run {acts : List Act} (hi : h.Inv flags L) (hred : flags.redzone ≤ 4096)
    (hlegal : Transition.AllSteps (Heap.step flags mmap) Heap.Legal h acts)
    (hr : Transition.run (Heap.step flags mmap) h acts = some h') : ∃ L', h.Ran flags L acts h' L' := by
  induction acts generalizing h L with
  | nil =>
    cases hr
    exact ⟨L,.refl hi⟩
  | cons x acts ih =>
    rw [Transition.run_cons, Option.bind_eq_some_iff] at hr
    obtain ⟨h₁,hstep,hr⟩ := hr
    obtain ⟨hx,hrest⟩ := hlegal h₁ hstep
    obtain ⟨L₁,hran,-⟩ := hi.step hx hred hstep
    obtain ⟨L',hran'⟩ := ih hran.inv hrest hr
    exact ⟨L',hran.trans hran'⟩

theorem Heap.Reached.inv {acts : List Act} (hr : Heap.Reached flags mmap acts h) (hred : flags.redzone ≤ 4096) :
    ∃ L, h.Inv flags L ∧ ((∀ t, .TSDDtor t ∉ acts) → h.Lossless L) := by
  obtain ⟨memory,shadow,hlegal,hrun⟩ := hr
  obtain ⟨L,hran⟩ := (Heap.inv_init flags memory shadow).run hred hlegal hrun
  exact ⟨L,hran.inv,fun hno => hran.lossless hno fun _ _ => ⟨rfl,fun _ => rfl⟩⟩

/-! ## A short run -/

def sampleFlags : Flags := ⟨128,2^24,0,true,7,by decide,by decide,by decide⟩
def smallFlags : Flags := ⟨16,2^24,0,true,4,by decide,by decide,by decide⟩
def sampleMmap (n : ℕ) : ℕ := 2^45 + n * 2^36
def sampleStack : StackTrace 64 := ⟨[0x401000#64],by decide⟩

section Sample
variable (flags : Flags) (n : ℕ)

/-- A thread has two blocks, writes into the first one and frees it. -/
def sampleActs : List Act :=
  [.Create,.Allocate 0 8 (2^22 - flags.redzone) sampleStack,.Allocate 0 8 (2^22 - flags.redzone - 72) sampleStack,
    .Write (2^45 + flags.redzone) 7,.Deallocate 0 (2^45 + flags.redzone) sampleStack]

def sampleRun : Option Heap :=
  Transition.run (Heap.step flags sampleMmap) (Heap.Init (fun _ => 0) fun _ => 0) ((sampleActs flags).take n)

/-- The state after the first calls. -/
def sampleHeap : Heap := (sampleRun flags n).getD (Heap.Init (fun _ => 0) fun _ => 0)

variable {flags n}

theorem sampleRun_eq (hn : (sampleRun flags n).isSome) : sampleRun flags n = some (sampleHeap flags n) := by
  obtain ⟨h,hh⟩ := Option.isSome_iff_exists.mp hn
  rw [sampleHeap, hh, Option.getD_some]

theorem sampleHeap_reached (hn : (sampleRun flags n).isSome) (hlegal : Transition.AllSteps (Heap.step flags sampleMmap)
    Heap.Legal (Heap.Init (fun _ => 0) fun _ => 0) ((sampleActs flags).take n)) :
    Heap.Reached flags sampleMmap ((sampleActs flags).take n) (sampleHeap flags n) :=
  ⟨_,_,hlegal,sampleRun_eq hn⟩

theorem sampleHeap_run (flags : Flags) (n k : ℕ) (hn : (sampleRun flags n).isSome) (hk : (sampleRun flags (n + k)).isSome) :
    Transition.run (Heap.step flags sampleMmap) (sampleHeap flags n) (((sampleActs flags).drop n).take k) =
      some (sampleHeap flags (n + k)) := by
  have heq := sampleRun_eq hk
  rw [sampleRun, List.take_add, Transition.run_append, ← sampleRun, sampleRun_eq hn, Option.bind_some] at heq
  exact heq

theorem sampleHeap_four : Heap.Reached sampleFlags sampleMmap ((sampleActs sampleFlags).take 4) (sampleHeap sampleFlags 4) :=
  sampleHeap_reached (by decide +kernel) (by decide +kernel)

theorem sampleHeap_five : Heap.Reached sampleFlags sampleMmap ((sampleActs sampleFlags).take 5) (sampleHeap sampleFlags 5) :=
  sampleHeap_reached (by decide +kernel) (by decide +kernel)

end Sample

end CompilerRt.AsanAllocator
