import CompilerRt.Lib.Chain
import CompilerRt.StackDepot.Depot

/-! # What holds of the depot

Beside the depot there is an account of who has which lock, of what has been published in each bucket, and of the ids
that were issued. What a thread knows by its place in the code stays true when other threads go on.
-/
namespace CompilerRt.StackDepot
variable {A : Arch} {Tid : Type}

structure Account (A : Arch) (Tid : Type) where
  /-- The nodes of each bucket, the last one first. -/
  published : ℕ → List ℕ
  /-- Who has the lock of each bucket. -/
  holder : ℕ → Option Tid
  /-- The stack that the holder inserts, with its id. -/
  inserting : ℕ → Option (Stack A × U32)
  issued : List (Stack A × U32)
  /-- The bucket for which a node was allocated. -/
  place : ℕ → Option ℕ
  /-- Who has the mutex. -/
  owner : Option Tid

/-! ## Nodes -/

def links (memory : ℕ → StackDesc A) (a : ℕ) : ℕ := (memory a).link

/-- A node in the list has the stack and the id. -/
def FoundIn (memory : ℕ → StackDesc A) (l : List ℕ) (stack : Stack A) (id : U32) : Prop :=
  ∃ a ∈ l, (memory a).Holds stack ∧ (memory a).id = id

def AbsentIn (memory : ℕ → StackDesc A) (l : List ℕ) (stack : Stack A) : Prop := ∀ a ∈ l, ¬(memory a).Holds stack

theorem Holds.unique {s : StackDesc A} {stack stack' : Stack A} (h : s.Holds stack) (h' : s.Holds stack') :
    stack = stack' := h.2.2.symm.trans h'.2.2

theorem FoundIn.congr {memory memory' : ℕ → StackDesc A} {l l' : List ℕ} {stack : Stack A} {id : U32}
    (h : FoundIn memory l stack id) (hsub : ∀ a ∈ l, a ∈ l') (hmem : ∀ a ∈ l, memory' a = memory a) :
    FoundIn memory' l' stack id := by
  obtain ⟨a,ha,hholds,hid⟩ := h
  refine ⟨a,hsub a ha,?_⟩
  rw [hmem a ha]
  exact ⟨hholds,hid⟩

theorem AbsentIn.congr {memory memory' : ℕ → StackDesc A} {l : List ℕ} {stack : Stack A} (h : AbsentIn memory l stack)
    (hmem : ∀ a ∈ l, memory' a = memory a) : AbsentIn memory' l stack := by
  intro a ha
  rw [hmem a ha]
  exact h a ha

/-! ## The invariant -/

/-- The lists, the locks and the ids. -/
structure Lists (memory : ℕ → StackDesc A) (tab : ℕ → ℕ) (seq : ℕ → U32) (γ : Account A Tid) : Prop where
  chain : ∀ b, Chain (links memory) (pointer (tab b)) (γ.published b)
  locked : ∀ b, tab b % 2 = 1 ↔ (γ.holder b).isSome
  inserting : ∀ b, γ.holder b = none → γ.inserting b = none
  place : ∀ b, ∀ a ∈ γ.published b, γ.place a = some b
  entry : ∀ b, ∀ a ∈ γ.published b, ∃ e ∈ γ.issued, (memory a).Holds e.1 ∧ (memory a).id = e.2 ∧ bucket e.1 = b
  issued : ∀ e ∈ γ.issued, FoundIn memory (γ.published (bucket e.1)) e.1 e.2 ∨ γ.inserting (bucket e.1) = some e
  begun : ∀ b e, γ.inserting b = some e → e ∈ γ.issued ∧ bucket e.1 = b
  distinctStacks : (γ.issued.map Prod.fst).Nodup
  distinctIds : (γ.issued.map Prod.snd).Nodup
  nonempty : ∀ e ∈ γ.issued, e.1 ≠ []
  form : ∀ e ∈ γ.issued, ∃ n : U32, 0 < n.toNat ∧ n.toNat < kMaxId ∧ n.toNat ≤ (seq (partOf (bucket e.1))).toNat ∧
    e.2 = idOf (partOf (bucket e.1)) n

/-- The bytes do not overlap. -/
def Apart (x y : ℕ × ℕ) : Prop := x.1 + x.2 ≤ y.1 ∨ y.1 + y.2 ≤ x.1

/-- The bytes lie in a region. -/
def Inside (regions : List (ℕ × ℕ)) (x : ℕ × ℕ) : Prop := ∃ r ∈ regions, r.1 ≤ x.1 ∧ x.1 + x.2 ≤ r.1 + r.2

/-- The regions, and the nodes in them. -/
structure Space (mtx : Bool) (regionPos regionEnd : ℕ) (regions allocated : List (ℕ × ℕ)) (γ : Account A Tid) : Prop where
  mutex : mtx = γ.owner.isSome
  placed : ∀ a b, γ.place a = some b → a ≠ 0 ∧ a % 2 = 0 ∧ ∃ n, 0 < n ∧ (a,n) ∈ allocated
  inside : ∀ x ∈ allocated, Inside regions x
  apart : allocated.Pairwise Apart
  space : ∀ r ∈ regions, r.1 + r.2 < A.space
  /-- What is left of the current region. -/
  free : regionPos ≠ 0 → regionPos % 2 = 0 ∧ Inside regions (regionPos,regionEnd - regionPos) ∧
    ∀ x ∈ allocated, x.1 + x.2 ≤ regionPos ∨ regionEnd ≤ x.1

/-- What the calls have returned. -/
structure Returns (memory : ℕ → StackDesc A) (returned : List (Stack A × U32)) (got : List (Got A)) (γ : Account A Tid) :
    Prop where
  put : ∀ e ∈ returned, e.1 ≠ [] → FoundIn memory (γ.published (bucket e.1)) e.1 e.2
  get : ∀ g ∈ got, g.since ≤ returned.length ∧
    ∀ stack, stack ≠ [] → (stack,g.id) ∈ returned.take g.since → g.result = some stack

structure Good (d : Depot A) (γ : Account A Tid) : Prop where
  lists : Lists d.memory d.tab d.seq γ
  space : Space d.mtx d.regionPos d.regionEnd d.regions d.allocated γ
  returns : Returns d.memory d.returned d.got γ
  bound : d.died = false → ∀ p, (d.seq p).toNat < kMaxId

/-! ## What a thread knows -/

section Knows
variable (d : Depot A) (γ : Account A Tid) (t : Tid)

/-- The list from `head` on was searched up to `s`. -/
def Searching (stack : Stack A) (head s : ℕ) : Prop :=
  ∃ done rest, Chain (links d.memory) head (done ++ rest) ∧ Chain (links d.memory) s rest ∧
    done ++ rest <:+ γ.published (bucket stack) ∧ AbsentIn d.memory done stack

/-- The list from `head` on was searched. -/
def Searched (stack : Stack A) (head : ℕ) : Prop :=
  ∃ l, Chain (links d.memory) head l ∧ l <:+ γ.published (bucket stack) ∧ AbsentIn d.memory l stack

/-- The thread has the lock of the bucket, whose list starts at `s2`. -/
def HasLock (b s2 : ℕ) : Prop := γ.holder b = some t ∧ d.tab b = s2 + 1 ∧ s2 % 2 = 0

/-- The thread inserts the stack. -/
structure Inserts (stack : Stack A) (s2 : ℕ) (id : U32) : Prop where
  nonempty : stack ≠ []
  lock : HasLock d γ t (bucket stack) s2
  inserting : γ.inserting (bucket stack) = some (stack,id)
  absent : AbsentIn d.memory (γ.published (bucket stack)) stack

/-- The node was allocated for the bucket and is not in its list yet. -/
def OwnNode (b s : ℕ) : Prop := γ.place s = some b ∧ s ∉ γ.published b

/-- A region without nodes. -/
def Fresh (mem len : ℕ) : Prop :=
  (mem,len) ∈ d.regions ∧ mem ≠ 0 ∧ mem % 2 = 0 ∧ ∀ x ∈ d.allocated, x.1 + x.2 ≤ mem ∨ mem + len ≤ x.1

def AllocKnows (b : ℕ) : AllocPc → Prop
  | .tryLoad locked | .tryEnd locked _ => locked = true → γ.owner = some t
  | .tryCas locked cmp _ => (locked = true → γ.owner = some t) ∧ cmp ≠ 0
  | .lock => True
  | .clear => γ.owner = some t
  | .map => γ.owner = some t ∧ d.regionPos = 0
  | .storeEnd mem len => γ.owner = some t ∧ d.regionPos = 0 ∧ Fresh d mem len
  | .storePos mem => γ.owner = some t ∧ d.regionPos = 0 ∧ ∃ len, Fresh d mem len ∧ d.regionEnd = mem + len
  | .unlock s => γ.owner = some t ∧ OwnNode γ b s

/-- The fields that were written before. -/
def Written (s : StackDesc A) (stack : Stack A) (id : U32) : Field → Prop
  | .id => True
  | .hash => s.id = id
  | .size => s.id = id ∧ s.hash = hash stack
  | .word i => s.id = id ∧ s.hash = hash stack ∧ s.size = stack.length ∧ i < stack.length ∧
      ∀ j < i, s.stack j = stack.getD j 0
  | .link => s.id = id ∧ s.Holds stack

/-- For each stack that had been put with the id when the call began, its node is in a bucket from `idx` on. -/
def Ahead (id : U32) (since idx : ℕ) : Prop :=
  since ≤ d.returned.length ∧ ∀ stack, stack ≠ [] → (stack,id) ∈ d.returned.take since →
    idx ≤ bucket stack ∧ FoundIn d.memory (γ.published (bucket stack)) stack id

/-- The first bucket of the part of an id. -/
def base (id : U32) : ℕ := (id.toNat >>> kPartShift) * kPartSize

def Knows : Pc A → Prop
  | .idle => True
  | .load stack => stack ≠ []
  | .find stack head s => stack ≠ [] ∧ Searching d γ stack head s
  | .lockLoad stack head => stack ≠ [] ∧ Searched d γ stack head
  | .lockCas stack head cmp => stack ≠ [] ∧ Searched d γ stack head ∧ cmp % 2 = 0
  | .findAgain stack s2 s => stack ≠ [] ∧ HasLock d γ t (bucket stack) s2 ∧ γ.inserting (bucket stack) = none ∧
      Searching d γ stack s2 s
  | .unlockFound stack s2 id => HasLock d γ t (bucket stack) s2 ∧ γ.inserting (bucket stack) = none ∧
      FoundIn d.memory (γ.published (bucket stack)) stack id
  | .fetchAdd stack s2 => stack ≠ [] ∧ HasLock d γ t (bucket stack) s2 ∧ γ.inserting (bucket stack) = none ∧
      AbsentIn d.memory (γ.published (bucket stack)) stack
  | .alloc stack s2 id pc => Inserts d γ t stack s2 id ∧ AllocKnows d γ t (bucket stack) pc
  | .write stack s2 id s field => Inserts d γ t stack s2 id ∧ OwnNode γ (bucket stack) s ∧
      Written (d.memory s) stack id field
  | .unlock stack s2 id s => Inserts d γ t stack s2 id ∧ OwnNode γ (bucket stack) s ∧
      (d.memory s).id = id ∧ (d.memory s).Holds stack ∧ (d.memory s).link = s2
  | .get id since i => i ≤ kPartSize ∧ Ahead d γ id since (base id + i)
  | .getFind id since i s => i < kPartSize ∧ Ahead d γ id since (base id + i) ∧
      ∃ rest, Chain (links d.memory) s rest ∧ rest <:+ γ.published (base id + i) ∧
        ∀ stack, stack ≠ [] → (stack,id) ∈ d.returned.take since → bucket stack = base id + i →
          FoundIn d.memory rest stack id

end Knows

/-! ## Steps of other threads -/

/-- What a step of `t` may change. -/
structure Evolves (t : Tid) (d : Depot A) (γ : Account A Tid) (d' : Depot A) (γ' : Account A Tid) : Prop where
  published : ∀ b, γ.published b <:+ γ'.published b
  memory : ∀ b, ∀ a ∈ γ.published b, d'.memory a = d.memory a
  bucket : ∀ b u, u ≠ t → γ.holder b = some u → γ'.holder b = some u ∧ d'.tab b = d.tab b ∧
    γ'.published b = γ.published b ∧ γ'.inserting b = γ.inserting b
  node : ∀ b u s, u ≠ t → γ.holder b = some u → γ.place s = some b → γ'.place s = some b ∧ d'.memory s = d.memory s
  mutex : ∀ u, u ≠ t → γ.owner = some u → γ'.owner = some u ∧ d'.regionEnd = d.regionEnd ∧
    (d.regionPos = 0 → d'.regionPos = 0 ∧ d'.allocated = d.allocated)
  regions : ∀ r ∈ d.regions, r ∈ d'.regions
  returned : d.returned <+: d'.returned

section Stable
variable {d d' : Depot A} {γ γ' : Account A Tid} {t u : Tid} {stack : Stack A} {id : U32}

theorem Evolves.sublist (h : Evolves t d γ d' γ') {b : ℕ} {l : List ℕ} (hl : l <:+ γ.published b) :
    l <:+ γ'.published b := hl.trans (h.published b)

theorem Evolves.memory_of_suffix (h : Evolves t d γ d' γ') {b : ℕ} {l : List ℕ} (hl : l <:+ γ.published b) :
    ∀ a ∈ l, d'.memory a = d.memory a := fun a ha => h.memory b a (hl.subset ha)

theorem Evolves.found (h : Evolves t d γ d' γ') {b : ℕ} (hf : FoundIn d.memory (γ.published b) stack id) :
    FoundIn d'.memory (γ'.published b) stack id := hf.congr (fun _ ha => (h.published b).subset ha) (h.memory b)

theorem Evolves.absent (h : Evolves t d γ d' γ') {b : ℕ} {l : List ℕ} (hl : l <:+ γ.published b)
    (ha : AbsentIn d.memory l stack) : AbsentIn d'.memory l stack := ha.congr (h.memory_of_suffix hl)

theorem Evolves.chain (h : Evolves t d γ d' γ') {a b : ℕ} {l : List ℕ} (hl : l <:+ γ.published b)
    (hc : Chain (links d.memory) a l) : Chain (links d'.memory) a l :=
  hc.congr fun x hx => congrArg StackDesc.link (h.memory_of_suffix hl x hx)

theorem Searching.stable (h : Evolves t d γ d' γ') {head s : ℕ} (hs : Searching d γ stack head s) :
    Searching d' γ' stack head s := by
  obtain ⟨done,rest,hhead,hcur,hsub,habsent⟩ := hs
  have hrest : rest <:+ γ.published (bucket stack) := (List.suffix_append done rest).trans hsub
  refine ⟨done,rest,h.chain hsub hhead,h.chain hrest hcur,h.sublist hsub,habsent.congr fun a ha => ?_⟩
  exact h.memory_of_suffix hsub a (List.mem_append_left rest ha)

theorem Searched.stable (h : Evolves t d γ d' γ') {head : ℕ} (hs : Searched d γ stack head) :
    Searched d' γ' stack head := by
  obtain ⟨l,hhead,hsub,habsent⟩ := hs
  exact ⟨l,h.chain hsub hhead,h.sublist hsub,h.absent hsub habsent⟩

theorem HasLock.stable (h : Evolves t d γ d' γ') (hu : u ≠ t) {b s2 : ℕ} (hl : HasLock d γ u b s2) :
    HasLock d' γ' u b s2 := by
  obtain ⟨hholder,htab,heven⟩ := hl
  obtain ⟨hholder',htab',-⟩ := h.bucket b u hu hholder
  exact ⟨hholder',htab'.trans htab,heven⟩

/-- While a thread has the lock, its bucket does not change. -/
theorem Evolves.published_eq (h : Evolves t d γ d' γ') (hu : u ≠ t) {b s2 : ℕ} (hl : HasLock d γ u b s2) :
    γ'.published b = γ.published b ∧ γ'.inserting b = γ.inserting b := (h.bucket b u hu hl.1).2.2

theorem Evolves.absent_published (h : Evolves t d γ d' γ') (hu : u ≠ t) {b s2 : ℕ} (hl : HasLock d γ u b s2)
    (ha : AbsentIn d.memory (γ.published b) stack) : AbsentIn d'.memory (γ'.published b) stack := by
  rw [(h.published_eq hu hl).1]
  exact h.absent List.suffix_rfl ha

theorem Inserts.stable (h : Evolves t d γ d' γ') (hu : u ≠ t) {s2 : ℕ} (hi : Inserts d γ u stack s2 id) :
    Inserts d' γ' u stack s2 id :=
  ⟨hi.nonempty,hi.lock.stable h hu,(h.published_eq hu hi.lock).2.trans hi.inserting,
    h.absent_published hu hi.lock hi.absent⟩

theorem OwnNode.stable (h : Evolves t d γ d' γ') (hu : u ≠ t) {b s s2 : ℕ} (hl : HasLock d γ u b s2)
    (hn : OwnNode γ b s) : OwnNode γ' b s ∧ d'.memory s = d.memory s := by
  obtain ⟨hplace,hnot⟩ := hn
  obtain ⟨hplace',hmem⟩ := h.node b u s hu hl.1 hplace
  refine ⟨⟨hplace',?_⟩,hmem⟩
  rwa [(h.published_eq hu hl).1]

theorem Fresh.stable {mem len : ℕ} (hf : Fresh d mem len) (hregions : ∀ r ∈ d.regions, r ∈ d'.regions)
    (hallocated : d'.allocated = d.allocated) : Fresh d' mem len := by
  obtain ⟨hmem,hne,heven,hapart⟩ := hf
  refine ⟨hregions _ hmem,hne,heven,?_⟩
  rwa [hallocated]

theorem AllocKnows.stable (h : Evolves t d γ d' γ') (hu : u ≠ t) {b s2 : ℕ} (hl : HasLock d γ u b s2) {pc : AllocPc}
    (hk : AllocKnows d γ u b pc) : AllocKnows d' γ' u b pc := by
  cases pc with
  | tryLoad locked => exact fun hlocked => (h.mutex u hu (hk hlocked)).1
  | tryEnd locked cmp => exact fun hlocked => (h.mutex u hu (hk hlocked)).1
  | tryCas locked cmp last => exact ⟨fun hlocked => (h.mutex u hu (hk.1 hlocked)).1,hk.2⟩
  | lock => trivial
  | clear => exact (h.mutex u hu hk).1
  | map =>
    obtain ⟨howner,hpos⟩ := hk
    obtain ⟨howner',-,hzero⟩ := h.mutex u hu howner
    exact ⟨howner',(hzero hpos).1⟩
  | storeEnd mem len =>
    obtain ⟨howner,hpos,hfresh⟩ := hk
    obtain ⟨howner',-,hzero⟩ := h.mutex u hu howner
    exact ⟨howner',(hzero hpos).1,hfresh.stable h.regions (hzero hpos).2⟩
  | storePos mem =>
    obtain ⟨howner,hpos,len,hfresh,hend⟩ := hk
    obtain ⟨howner',hend',hzero⟩ := h.mutex u hu howner
    exact ⟨howner',(hzero hpos).1,len,hfresh.stable h.regions (hzero hpos).2,hend'.trans hend⟩
  | unlock s =>
    obtain ⟨howner,hnode⟩ := hk
    exact ⟨(h.mutex u hu howner).1,(hnode.stable h hu hl).1⟩

theorem take_returned (h : Evolves t d γ d' γ') {since : ℕ} (hs : since ≤ d.returned.length) :
    d'.returned.take since = d.returned.take since := by
  obtain ⟨more,hmore⟩ := h.returned
  rw [← hmore,List.take_append_of_le_length hs]

theorem Ahead.stable (h : Evolves t d γ d' γ') {since idx : ℕ} (ha : Ahead d γ id since idx) :
    Ahead d' γ' id since idx := by
  obtain ⟨hlen,hahead⟩ := ha
  refine ⟨hlen.trans h.returned.length_le,fun stack hne hmem => ?_⟩
  rw [take_returned h hlen] at hmem
  obtain ⟨hle,hfound⟩ := hahead stack hne hmem
  exact ⟨hle,h.found hfound⟩

/-- What a thread knows stays true when another thread goes on. -/
theorem Knows.stable (h : Evolves t d γ d' γ') (hu : u ≠ t) {pc : Pc A} (hk : Knows d γ u pc) : Knows d' γ' u pc := by
  cases pc with
  | idle => trivial
  | load stack => exact hk
  | find stack head s => exact ⟨hk.1,hk.2.stable h⟩
  | lockLoad stack head => exact ⟨hk.1,hk.2.stable h⟩
  | lockCas stack head cmp => exact ⟨hk.1,hk.2.1.stable h,hk.2.2⟩
  | findAgain stack s2 s =>
    obtain ⟨hne,hlock,hinserting,hsearching⟩ := hk
    exact ⟨hne,hlock.stable h hu,(h.published_eq hu hlock).2.trans hinserting,hsearching.stable h⟩
  | unlockFound stack s2 id =>
    obtain ⟨hlock,hinserting,hfound⟩ := hk
    exact ⟨hlock.stable h hu,(h.published_eq hu hlock).2.trans hinserting,h.found hfound⟩
  | fetchAdd stack s2 =>
    obtain ⟨hne,hlock,hinserting,habsent⟩ := hk
    exact ⟨hne,hlock.stable h hu,(h.published_eq hu hlock).2.trans hinserting,h.absent_published hu hlock habsent⟩
  | alloc stack s2 id pc => exact ⟨hk.1.stable h hu,hk.2.stable h hu hk.1.lock⟩
  | write stack s2 id s field =>
    obtain ⟨hinserts,hnode,hwritten⟩ := hk
    obtain ⟨hnode',hmem⟩ := hnode.stable h hu hinserts.lock
    exact ⟨hinserts.stable h hu,hnode',hmem ▸ hwritten⟩
  | unlock stack s2 id s =>
    obtain ⟨hinserts,hnode,hwritten⟩ := hk
    obtain ⟨hnode',hmem⟩ := hnode.stable h hu hinserts.lock
    exact ⟨hinserts.stable h hu,hnode',hmem ▸ hwritten⟩
  | get id since i => exact ⟨hk.1,hk.2.stable h⟩
  | getFind id since i s =>
    obtain ⟨hi,hahead,rest,hchain,hsub,hrest⟩ := hk
    refine ⟨hi,hahead.stable h,rest,h.chain hsub hchain,h.sublist hsub,fun stack hne hmem hb => ?_⟩
    rw [take_returned h hahead.1] at hmem
    exact (hrest stack hne hmem hb).congr (fun _ ha => ha) (h.memory_of_suffix hsub)

end Stable
end CompilerRt.StackDepot
