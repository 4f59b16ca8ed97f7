import CompilerRt.StackDepot.Alloc
import CompilerRt.StackDepot.Ids

/-! # The steps of a call

A search that reaches the end of a list has not found the stack in it. After the lock is taken nothing is inserted into
the bucket by others, so what was not found then is inserted once.
-/
namespace CompilerRt.StackDepot
variable {A : Arch} {Tid : Type} {d d' : Depot A} {γ γ' : Account A Tid} {t : Tid} {stack : Stack A} {id : U32}

theorem pointer_even {v : ℕ} (h : v % 2 = 0) : pointer v = v := by
  rw [pointer,h]
  rfl

theorem pointer_succ {v : ℕ} (h : v % 2 = 0) : pointer (v + 1) = v := by
  rw [pointer]
  omega

/-! ## The searches -/

theorem Searching.start (hgood : Good d γ) :
    Searching d γ stack (pointer (d.tab (bucket stack))) (pointer (d.tab (bucket stack))) := by
  have hchain := hgood.lists.chain (bucket stack)
  exact ⟨[],γ.published (bucket stack),hchain,hchain,List.suffix_rfl,fun a ha => absurd ha List.not_mem_nil⟩

theorem Searching.finish {head : ℕ} (h : Searching d γ stack head 0) : Searched d γ stack head := by
  obtain ⟨done,rest,hhead,hcur,hsub,habsent⟩ := h
  have hrest : rest = [] := hcur.eq_nil
  subst hrest
  rw [List.append_nil] at hhead hsub
  exact ⟨done,hhead,hsub,habsent⟩

theorem Searching.found {head s : ℕ} (h : Searching d γ stack head s) (hs : s ≠ 0) (hholds : (d.memory s).Holds stack) :
    FoundIn d.memory (γ.published (bucket stack)) stack (d.memory s).id := by
  obtain ⟨done,rest,-,hcur,hsub,-⟩ := h
  obtain ⟨rest',rfl,-⟩ := hcur.tail hs
  exact ⟨s,hsub.subset (List.mem_append_right done List.mem_cons_self),hholds,rfl⟩

theorem Searching.next {head s : ℕ} (h : Searching d γ stack head s) (hs : s ≠ 0)
    (hnot : ¬(d.memory s).Holds stack) : Searching d γ stack head (d.memory s).link := by
  obtain ⟨done,rest,hhead,hcur,hsub,habsent⟩ := h
  obtain ⟨rest',rfl,hcur'⟩ := hcur.tail hs
  rw [List.append_cons] at hhead hsub
  refine ⟨done ++ [s],rest',hhead,hcur',hsub,fun a ha => ?_⟩
  rcases List.mem_append.mp ha with ha | ha
  · exact habsent a ha
  · rwa [List.mem_singleton.mp ha]

/-- The list from `head` on is the whole bucket, if its head is still the same. -/
theorem Searched.absent {head : ℕ} (h : Searched d γ stack head)
    (hchain : Chain (links d.memory) head (γ.published (bucket stack))) :
    AbsentIn d.memory (γ.published (bucket stack)) stack := by
  obtain ⟨l,hhead,-,habsent⟩ := h
  rwa [← hhead.unique hchain]

theorem HasLock.chain {b s2 : ℕ} (h : HasLock d γ t b s2) (hgood : Good d γ) :
    Chain (links d.memory) s2 (γ.published b) := by
  have hchain := hgood.lists.chain b
  rwa [h.2.1,pointer_succ h.2.2] at hchain

/-! ## What calls return -/

theorem Returns.congr_memory {memory' : ℕ → StackDesc A} {returned : List (Stack A × U32)} {got : List (Got A)}
    (h : Returns d.memory returned got γ) (hpublished : ∀ b, γ.published b <:+ γ'.published b)
    (hmem : ∀ b, ∀ a ∈ γ.published b, memory' a = d.memory a) : Returns memory' returned got γ' :=
  ⟨fun e he hne => (h.put e he hne).congr (fun _ ha => (hpublished _).subset ha) (hmem _),h.get⟩

theorem Returns.put_append {returned : List (Stack A × U32)} {got : List (Got A)} (h : Returns d.memory returned got γ)
    (hfound : stack ≠ [] → FoundIn d.memory (γ.published (bucket stack)) stack id) :
    Returns d.memory (returned ++ [(stack,id)]) got γ := by
  refine ⟨fun e he hne => ?_,fun g hg => ?_⟩
  · rcases List.mem_append.mp he with he | he
    · exact h.put e he hne
    · rw [List.mem_singleton.mp he] at hne ⊢
      exact hfound hne
  · obtain ⟨hsince,hget⟩ := h.get g hg
    rw [List.take_append_of_le_length hsince,List.length_append]
    exact ⟨hsince.trans (Nat.le_add_right _ _),hget⟩

theorem Good.put (hgood : Good d γ) (hfound : stack ≠ [] → FoundIn d.memory (γ.published (bucket stack)) stack id) :
    Good (d.put stack id) γ :=
  ⟨hgood.lists,hgood.space,hgood.returns.put_append hfound,hgood.bound⟩

theorem Evolves.put (h : Evolves t d γ d' γ') (stack : Stack A) (id : U32) : Evolves t d γ (d'.put stack id) γ' :=
  ⟨h.published,h.memory,h.bucket,h.node,h.mutex,h.regions,h.returned.trans (List.prefix_append _ _)⟩

/-! ## The locks of the buckets -/

section Locks
variable {b cmp s2 : ℕ}

theorem Good.holder_eq_none (hgood : Good d γ) (heven : d.tab b % 2 = 0) : γ.holder b = none := by
  have hlocked := hgood.lists.locked b
  cases hh : γ.holder b with
  | none => rfl
  | some u =>
    rw [hh] at hlocked
    have hodd := hlocked.mpr rfl
    omega

theorem Good.acquire (hgood : Good d γ) (htab : d.tab b = cmp) (heven : cmp % 2 = 0) :
    Good { d with tab := Function.update d.tab b (cmp + 1) }
      { γ with holder := Function.update γ.holder b (some t) } := by
  refine ⟨{ hgood.lists with chain := fun b' => ?_, locked := fun b' => ?_, inserting := fun b' h => ?_ },
    { hgood.space with },{ hgood.returns with },hgood.bound⟩
  · have hchain := hgood.lists.chain b'
    dsimp only
    by_cases hb : b' = b
    · subst hb
      rw [htab,pointer_even heven] at hchain
      rwa [Function.update_self,pointer_succ heven]
    · rwa [Function.update_of_ne hb]
  · have hlocked := hgood.lists.locked b'
    dsimp only
    by_cases hb : b' = b
    · subst hb
      rw [Function.update_self,Function.update_self]
      exact iff_of_true (by omega) rfl
    · rwa [Function.update_of_ne hb,Function.update_of_ne hb]
  · dsimp only at h ⊢
    by_cases hb : b' = b
    · subst hb
      rw [Function.update_self] at h
      cases h
    · rw [Function.update_of_ne hb] at h
      exact hgood.lists.inserting b' h

theorem Evolves.acquire (hgood : Good d γ) (htab : d.tab b = cmp) (heven : cmp % 2 = 0) :
    Evolves t d γ { d with tab := Function.update d.tab b (cmp + 1) }
      { γ with holder := Function.update γ.holder b (some t) } := by
  have hnone := hgood.holder_eq_none (htab ▸ heven)
  refine { Evolves.refl t d γ with bucket := fun b' u _ h => ?_ }
  have hb : b' ≠ b := fun he => by
    rw [he,hnone] at h
    cases h
  dsimp only
  rw [Function.update_of_ne hb,Function.update_of_ne hb]
  exact ⟨h,rfl,rfl,rfl⟩

theorem HasLock.of_acquire (heven : cmp % 2 = 0) :
    HasLock { d with tab := Function.update d.tab b (cmp + 1) }
      { γ with holder := Function.update γ.holder b (some t) } t b cmp :=
  ⟨Function.update_self ..,Function.update_self ..,heven⟩

/-- The lock is given back and nothing was inserted. -/
theorem Good.release (hgood : Good d γ) (hlock : HasLock d γ t b s2) (hinserting : γ.inserting b = none) :
    Good { d with tab := Function.update d.tab b s2 } { γ with holder := Function.update γ.holder b none } := by
  have hchain₂ := hlock.chain hgood
  refine ⟨{ hgood.lists with chain := fun b' => ?_, locked := fun b' => ?_, inserting := fun b' h => ?_ },
    { hgood.space with },{ hgood.returns with },hgood.bound⟩
  · have hchain := hgood.lists.chain b'
    dsimp only
    by_cases hb : b' = b
    · subst hb
      rwa [Function.update_self,pointer_even hlock.2.2]
    · rwa [Function.update_of_ne hb]
  · have hlocked := hgood.lists.locked b'
    have heven := hlock.2.2
    dsimp only
    by_cases hb : b' = b
    · subst hb
      rw [Function.update_self,Function.update_self]
      exact iff_of_false (by omega) (fun h => nomatch h)
    · rwa [Function.update_of_ne hb,Function.update_of_ne hb]
  · dsimp only at h ⊢
    by_cases hb : b' = b
    · rwa [hb]
    · rw [Function.update_of_ne hb] at h
      exact hgood.lists.inserting b' h

/-- Another thread's bucket is another bucket. -/
theorem HasLock.ne {u : Tid} {b' : ℕ} (hlock : HasLock d γ t b s2) (hu : u ≠ t) (h : γ.holder b' = some u) : b' ≠ b :=
  fun he => hu (Option.some.inj (h.symm.trans (he ▸ hlock.1)))

theorem Evolves.release (hlock : HasLock d γ t b s2) :
    Evolves t d γ { d with tab := Function.update d.tab b s2 }
      { γ with holder := Function.update γ.holder b none } := by
  refine { Evolves.refl t d γ with bucket := fun b' u hu h => ?_ }
  have hb := hlock.ne hu h
  dsimp only
  rw [Function.update_of_ne hb,Function.update_of_ne hb]
  exact ⟨h,rfl,rfl,rfl⟩

end Locks

/-! ## An insertion -/

/-- What was not found in the bucket has no id yet. -/
theorem Good.not_issued (hgood : Good d γ) (hinserting : γ.inserting (bucket stack) = none)
    (habsent : AbsentIn d.memory (γ.published (bucket stack)) stack) : ∀ e ∈ γ.issued, e.1 ≠ stack := by
  rintro e he rfl
  rcases hgood.lists.issued e he with ⟨a,ha,hholds,-⟩ | hi
  · exact habsent a ha hholds
  · rw [hinserting] at hi
    cases hi

section Issue
variable {p : ℕ} {n : U32}

/-- The sequence number that comes next. -/
theorem Good.next_seq (hgood : Good d γ) (hlive : d.died = false) (hn : d.seq p + 1 = n) :
    n.toNat = (d.seq p).toNat + 1 := by
  have hmax : kMaxId = 8388608 := by decide
  have hbound := hgood.bound hlive p
  rw [hmax] at hbound
  rw [← hn,BitVec.toNat_add]
  change ((d.seq p).toNat + 1) % 2 ^ 32 = _
  omega

theorem Good.form_update (hgood : Good d γ) (hlive : d.died = false) (hn : d.seq p + 1 = n) {e : Stack A × U32}
    (he : e ∈ γ.issued) : ∃ m : U32, 0 < m.toNat ∧ m.toNat < kMaxId ∧
      m.toNat ≤ (Function.update d.seq p n (partOf (bucket e.1))).toNat ∧ e.2 = idOf (partOf (bucket e.1)) m := by
  obtain ⟨m,hpos,hmax,hle,hid⟩ := hgood.lists.form e he
  refine ⟨m,hpos,hmax,?_,hid⟩
  by_cases hp : partOf (bucket e.1) = p
  · rw [hp,Function.update_self,hgood.next_seq hlive hn]
    rw [hp] at hle
    omega
  · rwa [Function.update_of_ne hp]

/-- A new id is issued for the stack. -/
theorem Good.issue {s2 : ℕ} (hgood : Good d γ) (hlive : d.died = false) (hne : stack ≠ [])
    (hlock : HasLock d γ t (bucket stack) s2) (hinserting : γ.inserting (bucket stack) = none)
    (habsent : AbsentIn d.memory (γ.published (bucket stack)) stack) (hn : d.seq (partOf (bucket stack)) + 1 = n)
    (hmax : n.toNat < kMaxId) :
    Good { d with seq := Function.update d.seq (partOf (bucket stack)) n }
      { γ with inserting := Function.update γ.inserting (bucket stack) (some (stack,idOf (partOf (bucket stack)) n))
               issued := (stack,idOf (partOf (bucket stack)) n) :: γ.issued } := by
  have hseq := hgood.next_seq hlive hn
  have hnew := hgood.not_issued hinserting habsent
  refine ⟨{ hgood.lists with
    inserting := fun b h => ?_
    entry := fun b a ha => ?_
    issued := fun e he => ?_
    begun := fun b e hi => ?_
    distinctStacks := ?_
    distinctIds := ?_
    nonempty := fun e he => ?_
    form := fun e he => ?_ },{ hgood.space with },{ hgood.returns with },fun _ p => ?_⟩
  · dsimp only at h ⊢
    by_cases hb : b = bucket stack
    · subst hb
      rw [hlock.1] at h
      cases h
    · rw [Function.update_of_ne hb]
      exact hgood.lists.inserting b h
  · obtain ⟨e,he,h⟩ := hgood.lists.entry b a ha
    exact ⟨e,List.mem_cons_of_mem _ he,h⟩
  · dsimp only
    rcases List.mem_cons.mp he with rfl | he
    · exact Or.inr (Function.update_self ..)
    · by_cases hb : bucket e.1 = bucket stack
      · refine Or.inl ((hgood.lists.issued e he).resolve_right fun hi => ?_)
        rw [hb,hinserting] at hi
        cases hi
      · rw [Function.update_of_ne hb]
        exact hgood.lists.issued e he
  · dsimp only at hi
    by_cases hb : b = bucket stack
    · subst hb
      rw [Function.update_self] at hi
      cases hi
      exact ⟨List.mem_cons_self,rfl⟩
    · rw [Function.update_of_ne hb] at hi
      obtain ⟨he,hbucket⟩ := hgood.lists.begun b e hi
      exact ⟨List.mem_cons_of_mem _ he,hbucket⟩
  · refine List.nodup_cons.mpr ⟨fun hmem => ?_,hgood.lists.distinctStacks⟩
    obtain ⟨e,he,heq⟩ := List.mem_map.mp hmem
    exact hnew e he heq
  · refine List.nodup_cons.mpr ⟨fun hmem => ?_,hgood.lists.distinctIds⟩
    obtain ⟨e,he,heq⟩ := List.mem_map.mp hmem
    obtain ⟨m,-,hm,hle,hid⟩ := hgood.lists.form e he
    obtain ⟨hpart,hsame⟩ := idOf_inj (partOf_lt (bucket_lt _)) (partOf_lt (bucket_lt _)) hm hmax (hid.symm.trans heq)
    rw [hpart,hsame,hseq] at hle
    omega
  · rcases List.mem_cons.mp he with rfl | he
    · exact hne
    · exact hgood.lists.nonempty e he
  · rcases List.mem_cons.mp he with rfl | he
    · refine ⟨n,by omega,hmax,?_,rfl⟩
      dsimp only
      rw [Function.update_self]
    · have hform := hgood.form_update hlive hn he
      exact hform
  · dsimp only
    by_cases hp : p = partOf (bucket stack)
    · rwa [hp,Function.update_self]
    · rw [Function.update_of_ne hp]
      exact hgood.bound hlive p

theorem Evolves.issue {s2 : ℕ} (hlock : HasLock d γ t (StackDepot.bucket stack) s2) {seq : ℕ → U32}
    {issued : List (Stack A × U32)} {x : Option (Stack A × U32)} :
    Evolves t d γ { d with seq := seq }
      { γ with inserting := Function.update γ.inserting (StackDepot.bucket stack) x, issued := issued } := by
  refine { Evolves.refl t d γ with bucket := fun b' u hu h => ?_ }
  dsimp only
  rw [Function.update_of_ne (hlock.ne hu h)]
  exact ⟨h,rfl,rfl,rfl⟩

/-- A `CHECK` fails after the sequence number was taken. -/
theorem Good.die (hgood : Good d γ) (hlive : d.died = false) (hn : d.seq p + 1 = n) :
    Good { d with seq := Function.update d.seq p n, died := true } γ :=
  ⟨{ hgood.lists with form := fun _ he => hgood.form_update hlive hn he },hgood.space,hgood.returns,fun h => nomatch h⟩

end Issue

section Nodes
variable {s s2 : ℕ}

theorem OwnNode.unpublished (hgood : Good d γ) {b : ℕ} (h : OwnNode γ b s) (b' : ℕ) : s ∉ γ.published b' := fun hs => by
  have hplace := hgood.lists.place b' s hs
  rw [h.1] at hplace
  cases hplace
  exact h.2 hs

theorem Lists.congr_memory {memory' : ℕ → StackDesc A} (h : Lists d.memory d.tab d.seq γ)
    (hmem : ∀ b, ∀ a ∈ γ.published b, memory' a = d.memory a) : Lists memory' d.tab d.seq γ := by
  refine { h with
    chain := fun b => (h.chain b).congr fun a ha => congrArg StackDesc.link (hmem b a ha)
    entry := fun b a ha => ?_
    issued := fun e he => (h.issued e he).imp (fun hf => hf.congr (fun _ ha => ha) (hmem _)) id }
  rw [hmem b a ha]
  exact h.entry b a ha

/-- A field of a node that is not published yet is written. -/
theorem Good.write (hgood : Good d γ) {b : ℕ} (hnode : OwnNode γ b s) (x : StackDesc A) :
    Good { d with memory := Function.update d.memory s x } γ := by
  have hmem : ∀ b', ∀ a ∈ γ.published b', Function.update d.memory s x a = d.memory a := fun b' a ha =>
    Function.update_of_ne (fun he : a = s => hnode.unpublished hgood b' (he ▸ ha)) _ _
  exact ⟨hgood.lists.congr_memory hmem,hgood.space,hgood.returns.congr_memory (fun _ => List.suffix_rfl) hmem,
    hgood.bound⟩

theorem Evolves.write (hgood : Good d γ) {b : ℕ} (hlock : HasLock d γ t b s2) (hnode : OwnNode γ b s)
    (x : StackDesc A) : Evolves t d γ { d with memory := Function.update d.memory s x } γ := by
  refine { Evolves.refl t d γ with
    memory := fun b' a ha => Function.update_of_ne (fun he : a = s => hnode.unpublished hgood b' (he ▸ ha)) _ _
    node := fun b' u a hu hholder hplace => ⟨hplace,Function.update_of_ne (fun he : a = s => ?_) _ _⟩ }
  rw [he,hnode.1] at hplace
  exact hlock.ne hu hholder (Option.some.inj hplace).symm

/-- The node becomes the first one of its bucket, and the lock is given back. -/
theorem Good.publish (hgood : Good d γ) (hinserts : Inserts d γ t stack s2 id) (hnode : OwnNode γ (bucket stack) s)
    (hid : (d.memory s).id = id) (hholds : (d.memory s).Holds stack) (hlink : (d.memory s).link = s2) :
    Good ({ d with tab := Function.update d.tab (bucket stack) s }.put stack id)
      { γ with published := Function.update γ.published (bucket stack) (s :: γ.published (bucket stack))
               holder := Function.update γ.holder (bucket stack) none
               inserting := Function.update γ.inserting (bucket stack) none } := by
  obtain ⟨hne,heven,-⟩ := hgood.space.placed _ _ hnode.1
  obtain ⟨hissued,-⟩ := hgood.lists.begun _ _ hinserts.inserting
  have hgrows : ∀ b, γ.published b <:+
      Function.update γ.published (bucket stack) (s :: γ.published (bucket stack)) b := fun b => by
    by_cases hb : b = bucket stack
    · rw [hb,Function.update_self]
      exact List.suffix_cons ..
    · rw [Function.update_of_ne hb]
  have hfound : FoundIn d.memory (s :: γ.published (bucket stack)) stack id := ⟨s,List.mem_cons_self,hholds,hid⟩
  refine ⟨{ hgood.lists with
    chain := fun b => ?_
    locked := fun b => ?_
    inserting := fun b h => ?_
    place := fun b a ha => ?_
    entry := fun b a ha => ?_
    issued := fun e he => ?_
    begun := fun b e hi => ?_ },{ hgood.space with },?_,hgood.bound⟩
  · dsimp only [Depot.put]
    by_cases hb : b = bucket stack
    · rw [hb,Function.update_self,Function.update_self,pointer_even heven]
      exact (hinserts.lock.chain hgood).cons hne hlink
    · rw [Function.update_of_ne hb,Function.update_of_ne hb]
      exact hgood.lists.chain b
  · dsimp only [Depot.put]
    by_cases hb : b = bucket stack
    · rw [hb,Function.update_self,Function.update_self]
      exact iff_of_false (by omega) (fun h => nomatch h)
    · rw [Function.update_of_ne hb,Function.update_of_ne hb]
      exact hgood.lists.locked b
  · dsimp only at h ⊢
    by_cases hb : b = bucket stack
    · rw [hb,Function.update_self]
    · rw [Function.update_of_ne hb] at h ⊢
      exact hgood.lists.inserting b h
  · dsimp only at ha ⊢
    by_cases hb : b = bucket stack
    · subst hb
      rw [Function.update_self] at ha
      rcases List.mem_cons.mp ha with rfl | ha
      · exact hnode.1
      · exact hgood.lists.place _ a ha
    · rw [Function.update_of_ne hb] at ha
      exact hgood.lists.place b a ha
  · dsimp only at ha ⊢
    by_cases hb : b = bucket stack
    · subst hb
      rw [Function.update_self] at ha
      rcases List.mem_cons.mp ha with rfl | ha
      · exact ⟨(stack,id),hissued,hholds,hid,rfl⟩
      · exact hgood.lists.entry _ a ha
    · rw [Function.update_of_ne hb] at ha
      exact hgood.lists.entry b a ha
  · dsimp only
    by_cases hb : bucket e.1 = bucket stack
    · rw [hb,Function.update_self]
      refine Or.inl ?_
      rcases hgood.lists.issued e he with hf | hi
      · rw [hb] at hf
        exact hf.congr (fun _ ha => List.mem_cons_of_mem _ ha) fun _ _ => rfl
      · rw [hb,hinserts.inserting] at hi
        cases hi
        exact hfound
    · rw [Function.update_of_ne hb,Function.update_of_ne hb]
      exact hgood.lists.issued e he
  · dsimp only at hi
    by_cases hb : b = bucket stack
    · rw [hb,Function.update_self] at hi
      cases hi
    · rw [Function.update_of_ne hb] at hi
      exact hgood.lists.begun b e hi
  · refine (hgood.returns.congr_memory hgrows fun _ _ _ => rfl).put_append fun _ => ?_
    dsimp only
    rwa [Function.update_self]

theorem Evolves.publish (hinserts : Inserts d γ t stack s2 id) :
    Evolves t d γ ({ d with tab := Function.update d.tab (StackDepot.bucket stack) s }.put stack id)
      { γ with published := Function.update γ.published (StackDepot.bucket stack)
                 (s :: γ.published (StackDepot.bucket stack))
               holder := Function.update γ.holder (StackDepot.bucket stack) none
               inserting := Function.update γ.inserting (StackDepot.bucket stack) none } := by
  refine { Evolves.refl t d γ with
    published := fun b => ?_
    bucket := fun b u hu h => ?_
    returned := List.prefix_append _ _ }
  · dsimp only
    by_cases hb : b = StackDepot.bucket stack
    · rw [hb,Function.update_self]
      exact List.suffix_cons ..
    · rw [Function.update_of_ne hb]
  · have hb := hinserts.lock.ne hu h
    dsimp only [Depot.put]
    rw [Function.update_of_ne hb,Function.update_of_ne hb,Function.update_of_ne hb,Function.update_of_ne hb]
    exact ⟨h,rfl,rfl,rfl⟩

end Nodes

/-! ## Looking ids up -/

section Get
variable {since i : ℕ}

/-- A published stack has the id that was issued for it. -/
theorem Good.issued_of_found (hgood : Good d γ) {b : ℕ} (h : FoundIn d.memory (γ.published b) stack id) :
    (stack,id) ∈ γ.issued ∧ bucket stack = b := by
  obtain ⟨a,ha,hholds,hid⟩ := h
  obtain ⟨e,he,hholds',hid',hbucket⟩ := hgood.lists.entry b a ha
  have hstack : stack = e.1 := Holds.unique hholds hholds'
  have heq : (stack,id) = e := Prod.ext hstack (hid.symm.trans hid')
  rw [heq,hstack]
  exact ⟨he,hbucket⟩

/-- The bucket of a stack lies in the part of its id. -/
theorem Good.bucket_of_issued (hgood : Good d γ) (h : (stack,id) ∈ γ.issued) :
    base id ≤ bucket stack ∧ bucket stack < base id + kPartSize := by
  obtain ⟨n,-,hmax,-,hid⟩ := hgood.lists.form _ h
  dsimp only at hid
  rw [hid,base,idOf_shiftRight (partOf_lt (bucket_lt stack)) hmax]
  have hsize : kPartSize = 4096 := by decide
  rw [partOf,hsize]
  omega

theorem Good.ahead (hgood : Good d γ) (id : U32) : Ahead d γ id d.returned.length (base id) := by
  refine ⟨Nat.le_refl _,fun stack hne hmem => ?_⟩
  rw [List.take_length] at hmem
  have hfound := hgood.returns.put _ hmem hne
  exact ⟨(hgood.bucket_of_issued (hgood.issued_of_found hfound).1).1,hfound⟩

theorem Good.get {r : Option (Stack A)} (hgood : Good d γ) (hsince : since ≤ d.returned.length)
    (hr : ∀ stack, stack ≠ [] → (stack,id) ∈ d.returned.take since → r = some stack) :
    Good (d.get id since r) γ := by
  refine ⟨hgood.lists,hgood.space,⟨hgood.returns.put,fun g hg => ?_⟩,hgood.bound⟩
  rcases List.mem_cons.mp hg with rfl | hg
  · exact ⟨hsince,hr⟩
  · exact hgood.returns.get g hg

/-- Past the last bucket nothing is left to be found. -/
theorem Ahead.finish (h : Ahead d γ id since (base id + kPartSize)) (hgood : Good d γ) (hne : stack ≠ []) :
    (stack,id) ∉ d.returned.take since := fun hmem => by
  obtain ⟨hle,hfound⟩ := h.2 stack hne hmem
  have hlt := (hgood.bucket_of_issued (hgood.issued_of_found hfound).1).2
  omega

/-- A node with the id has the stack. -/
theorem Good.trace_eq (hgood : Good d γ) {a b : ℕ} (ha : a ∈ γ.published b) (hid : (d.memory a).id = id)
    (hissued : (stack,id) ∈ γ.issued) : (d.memory a).trace = stack := by
  obtain ⟨e,he,hholds,hid',-⟩ := hgood.lists.entry b a ha
  have heq : e = (stack,id) := List.inj_on_of_nodup_map hgood.lists.distinctIds he hissued (hid'.symm.trans hid)
  rw [heq] at hholds
  exact hholds.2.2

end Get
end CompilerRt.StackDepot
