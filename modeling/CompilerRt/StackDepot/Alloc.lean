import CompilerRt.StackDepot.Invariant

/-! # The allocation of nodes

A node is taken from the part of the current region that is left. A new region has no nodes yet; while it is set up the
position is null, so that nobody else takes a node.
-/
namespace CompilerRt.StackDepot
variable {A : Arch} {Tid : Type} {d d' : Depot A} {γ γ' : Account A Tid} {t : Tid}

theorem Evolves.refl (t : Tid) (d : Depot A) (γ : Account A Tid) : Evolves t d γ d γ :=
  ⟨fun _ => List.suffix_rfl,fun _ _ _ => rfl,fun _ _ _ h => ⟨h,rfl,rfl,rfl⟩,fun _ _ _ _ _ h => ⟨h,rfl⟩,
    fun _ _ h => ⟨h,rfl,fun hzero => ⟨hzero,rfl⟩⟩,fun _ h => h,List.prefix_rfl⟩

theorem descBytes_pos (A : Arch) (size : ℕ) : 0 < descBytes A size := by
  cases A <;> simp only [descBytes,Arch.sizeofStackDesc,Arch.sizeofUptr] <;> omega

theorem descBytes_even (A : Arch) (size : ℕ) : descBytes A size % 2 = 0 := by
  cases A <;> simp only [descBytes,Arch.sizeofStackDesc,Arch.sizeofUptr] <;> omega

section Regions
variable {cmp n b : ℕ}

theorem Good.regionEnd_lt (hgood : Good d γ) (hpos : d.regionPos ≠ 0) (hle : d.regionPos ≤ d.regionEnd) :
    d.regionEnd < A.space := by
  obtain ⟨-,⟨r,hr,-,hend⟩,-⟩ := hgood.space.free hpos
  have hspace := hgood.space.space r hr
  dsimp only at hend
  omega

/-- The free part has no nodes. -/
theorem Good.place_eq_none (hgood : Good d γ) (hpos : d.regionPos ≠ 0) (hlt : d.regionPos < d.regionEnd) :
    γ.place d.regionPos = none := by
  cases hplace : γ.place d.regionPos with
  | none => rfl
  | some b =>
    obtain ⟨-,-,n,hn,hmem⟩ := hgood.space.placed _ _ hplace
    have hapart := (hgood.space.free hpos).2.2 _ hmem
    dsimp only at hapart
    omega

/-- A node that fits is taken from the free part. -/
theorem Good.allocate (hgood : Good d γ) (hpos : d.regionPos ≠ 0) (hn : 0 < n) (heven : n % 2 = 0)
    (hfit : d.regionPos + n ≤ d.regionEnd) :
    Good { d with regionPos := d.regionPos + n, allocated := (d.regionPos,n) :: d.allocated }
      { γ with place := Function.update γ.place d.regionPos (some b) } := by
  have hnone := hgood.place_eq_none hpos (by omega)
  obtain ⟨hposEven,⟨r,hr,hstart,hend⟩,hleft⟩ := hgood.space.free hpos
  dsimp only at hstart hend
  refine ⟨{ hgood.lists with place := fun b' a ha => ?_ },{ hgood.space with
    placed := fun a b' hplace => ?_
    inside := fun x hx => ?_
    apart := List.pairwise_cons.mpr ⟨fun x hx => ?_,hgood.space.apart⟩
    free := fun _ => ⟨?_,⟨r,hr,?_,?_⟩,fun x hx => ?_⟩ },{ hgood.returns with },hgood.bound⟩
  · have hplace := hgood.lists.place b' a ha
    have hne : a ≠ d.regionPos := fun he => by
      rw [he,hnone] at hplace
      cases hplace
    dsimp only
    rwa [Function.update_of_ne hne]
  · dsimp only at hplace
    by_cases he : a = d.regionPos
    · subst he
      exact ⟨hpos,hposEven,n,hn,List.mem_cons_self⟩
    · rw [Function.update_of_ne he] at hplace
      obtain ⟨hne,hae,m,hm,hmem⟩ := hgood.space.placed a b' hplace
      exact ⟨hne,hae,m,hm,List.mem_cons_of_mem _ hmem⟩
  · rcases List.mem_cons.mp hx with rfl | hx
    · exact ⟨r,hr,hstart,by dsimp only; omega⟩
    · exact hgood.space.inside x hx
  · rcases hleft x hx with h | h
    · exact Or.inr h
    · exact Or.inl (hfit.trans h)
  · dsimp only
    omega
  · dsimp only
    omega
  · dsimp only
    omega
  · rcases List.mem_cons.mp hx with rfl | hx
    · exact Or.inl (Nat.le_refl _)
    · rcases hleft x hx with h | h
      · exact Or.inl (h.trans (Nat.le_add_right _ _))
      · exact Or.inr h

theorem Evolves.allocate (hgood : Good d γ) (hpos : d.regionPos ≠ 0) (hlt : d.regionPos < d.regionEnd)
    {allocated : List (ℕ × ℕ)} {regionPos : ℕ} :
    Evolves t d γ { d with regionPos := regionPos, allocated := allocated }
      { γ with place := Function.update γ.place d.regionPos (some b) } := by
  have hnone := hgood.place_eq_none hpos hlt
  refine { Evolves.refl t d γ with
    node := fun b' u s _ _ hplace => ⟨?_,rfl⟩
    mutex := fun u _ howner => ⟨howner,rfl,fun hzero => absurd hzero hpos⟩ }
  have hne : s ≠ d.regionPos := fun he => by
    rw [he,hnone] at hplace
    cases hplace
  exact (Function.update_of_ne hne _ _).trans hplace

/-- A region is mapped where nothing was mapped before. -/
theorem Good.map (hgood : Good d γ) {mem len : ℕ} (hpos : d.regionPos = 0) (hmap : d.Mappable mem len) :
    Good { d with regions := (mem,len) :: d.regions } γ ∧ Fresh { d with regions := (mem,len) :: d.regions } mem len := by
  obtain ⟨hmem,hpage,hspace,hapart⟩ := hmap
  refine ⟨⟨hgood.lists,{ hgood.space with
    inside := fun x hx => ?_
    space := fun r hr => ?_
    free := fun h => absurd hpos h },hgood.returns,hgood.bound⟩,List.mem_cons_self,hmem.ne',by omega,fun x hx => ?_⟩
  · obtain ⟨r,hr,h⟩ := hgood.space.inside x hx
    exact ⟨r,List.mem_cons_of_mem _ hr,h⟩
  · rcases List.mem_cons.mp hr with rfl | hr
    · exact hspace
    · exact hgood.space.space r hr
  · obtain ⟨r,hr,hstart,hend⟩ := hgood.space.inside x hx
    have h := hapart r hr
    omega

/-- A new region becomes the current one. -/
theorem Good.storePos (hgood : Good d γ) {mem len : ℕ} (hfresh : Fresh d mem len) (hend : d.regionEnd = mem + len) :
    Good { d with regionPos := mem } γ := by
  obtain ⟨hmem,hne,heven,hapart⟩ := hfresh
  refine ⟨hgood.lists,{ hgood.space with free := fun _ => ⟨heven,⟨(mem,len),hmem,Nat.le_refl _,?_⟩,fun x hx => ?_⟩ },
    hgood.returns,hgood.bound⟩
  · dsimp only
    omega
  · rw [hend]
    exact hapart x hx

end Regions

/-! ## The steps -/

/-- What a step of `allocDesc` leads to. -/
def AllocOk (d : Depot A) (γ : Account A Tid) (t : Tid) (d' : Depot A) (b : ℕ) (r : AllocPc ⊕ ℕ) : Prop :=
  ∃ γ', Good d' γ' ∧ Evolves t d γ d' γ' ∧ (∀ stack s2 id, Inserts d γ t stack s2 id → Inserts d' γ' t stack s2 id) ∧
    (∀ pc, r = .inl pc → AllocKnows d' γ' t b pc) ∧ ∀ s, r = .inr s → OwnNode γ' b s

/-- A step that changes nothing. -/
theorem AllocOk.of_knows (hgood : Good d γ) {b : ℕ} {pc : AllocPc} (hk : AllocKnows d γ t b pc) :
    AllocOk d γ t d b (.inl pc) :=
  ⟨γ,hgood,Evolves.refl t d γ,fun _ _ _ h => h,fun _ he => Sum.inl.inj he ▸ hk,fun _ he => nomatch he⟩

theorem tryFailed_knows {b : ℕ} {locked : Bool} (howner : locked = true → γ.owner = some t) :
    AllocKnows d γ t b (tryFailed locked) := by
  cases locked with
  | false => trivial
  | true => exact howner rfl

theorem Good.unpublished (hgood : Good d γ) {a b : ℕ} (hnone : γ.place a = none) : a ∉ γ.published b := fun ha => by
  have hplace := hgood.lists.place _ a ha
  rw [hnone] at hplace
  cases hplace

/-- The mutex is taken or given back. -/
theorem Good.setMutex (hgood : Good d γ) (owner : Option Tid) :
    Good { d with mtx := owner.isSome } { γ with owner := owner } :=
  ⟨{ hgood.lists with },{ hgood.space with mutex := rfl },{ hgood.returns with },hgood.bound⟩

theorem Evolves.setMutex (howner : ∀ u, u ≠ t → γ.owner ≠ some u) (owner : Option Tid) :
    Evolves t d γ { d with mtx := owner.isSome } { γ with owner := owner } :=
  { Evolves.refl t d γ with mutex := fun u hu h => absurd h (howner u hu) }

theorem allocDesc_step {stack : Stack A} {a : Action A} {pc : AllocPc} {r : AllocPc ⊕ ℕ} (hgood : Good d γ)
    (hk : AllocKnows d γ t (bucket stack) pc)
    (hfit : ∀ locked cmp last, pc = .tryCas locked cmp last → a = .step → d.regionPos = cmp →
      cmp + descBytes A stack.length ≤ d.regionEnd)
    (h : allocDesc stack.length a d pc = some (d',r)) : AllocOk d γ t d' (bucket stack) r := by
  cases pc with
  | tryLoad locked =>
    cases a <;> cases h
    exact AllocOk.of_knows hgood hk
  | tryEnd locked cmp =>
    cases a with
    | step =>
      simp only [allocDesc] at h
      split at h
      · cases h
        exact AllocOk.of_knows hgood (tryFailed_knows hk)
      · rename_i hne
        cases h
        exact AllocOk.of_knows hgood ⟨hk,fun hz => hne (Or.inl hz)⟩
    | _ => cases h
  | tryCas locked cmp last =>
    cases a with
    | step =>
      simp only [allocDesc] at h
      split at h
      · rename_i heq
        have hpos := descBytes_pos A stack.length
        have hle := hfit locked cmp last rfl rfl heq
        subst heq
        have hlt := hgood.regionEnd_lt hk.2 (by omega)
        -- neither the size nor the new position wraps
        have hsize : memsz A stack.length = descBytes A stack.length := Nat.mod_eq_of_lt (by omega)
        have hsum : (d.regionPos + memsz A stack.length) % A.space = d.regionPos + descBytes A stack.length := by
          rw [hsize]
          exact Nat.mod_eq_of_lt (by omega)
        rw [hsum] at h
        cases h
        have hnone := hgood.place_eq_none hk.2 (by omega)
        have hnode : OwnNode { γ with place := Function.update γ.place d.regionPos (some (bucket stack)) }
            (bucket stack) d.regionPos := ⟨Function.update_self ..,hgood.unpublished hnone⟩
        refine ⟨_,hgood.allocate (b := bucket stack) hk.2 hpos (descBytes_even A _) hle,Evolves.allocate hgood hk.2 (by omega),
          fun _ _ _ hi => ⟨hi.nonempty,hi.lock,hi.inserting,hi.absent⟩,fun pc he => ?_,fun s he => ?_⟩
        · cases locked with
          | false => cases he
          | true =>
            cases he
            exact ⟨hk.1 rfl,hnode⟩
        · cases locked with
          | false =>
            cases he
            exact hnode
          | true => cases he
      · cases h
        exact AllocOk.of_knows hgood hk.1
    | spurious =>
      cases h
      exact AllocOk.of_knows hgood hk.1
    | _ => cases h
  | lock =>
    cases a with
    | step =>
      obtain ⟨hfree,heq⟩ := Option.ite_none_left_eq_some.mp h
      cases heq
      have hnone : γ.owner = none := by
        have hmutex := hgood.space.mutex
        rw [Bool.eq_false_of_not_eq_true hfree] at hmutex
        exact Option.isNone_iff_eq_none.mp (Option.isSome_eq_false_iff.mp hmutex.symm)
      refine ⟨_,hgood.setMutex (some t),Evolves.setMutex (fun u _ => ?_) (some t),
        fun _ _ _ hi => ⟨hi.nonempty,hi.lock,hi.inserting,hi.absent⟩,fun pc he => ?_,fun s he => nomatch he⟩
      · rw [hnone]
        exact nofun
      · cases he
        exact fun _ => rfl
    | _ => cases h
  | clear =>
    cases a with
    | step =>
      cases h
      refine ⟨γ,⟨hgood.lists,{ hgood.space with free := fun h => absurd rfl h },hgood.returns,hgood.bound⟩,
        { Evolves.refl t d γ with mutex := fun u _ howner => ⟨howner,rfl,fun _ => ⟨rfl,rfl⟩⟩ },
        fun _ _ _ hi => ⟨hi.nonempty,hi.lock,hi.inserting,hi.absent⟩,fun pc he => ?_,fun s he => nomatch he⟩
      cases he
      exact ⟨hk,rfl⟩
    | _ => cases h
  | map =>
    cases a with
    | map mem =>
      obtain ⟨hmap,heq⟩ := Option.ite_none_right_eq_some.mp h
      cases heq
      obtain ⟨hgood',hfresh⟩ := hgood.map hk.2 hmap
      refine ⟨γ,hgood',{ Evolves.refl t d γ with regions := fun _ hr => List.mem_cons_of_mem _ hr },
        fun _ _ _ hi => ⟨hi.nonempty,hi.lock,hi.inserting,hi.absent⟩,fun pc he => ?_,fun s he => nomatch he⟩
      cases he
      exact ⟨hk.1,hk.2,hfresh⟩
    | _ => cases h
  | storeEnd mem len =>
    cases a with
    | step =>
      cases h
      obtain ⟨howner,hpos,hfresh⟩ := hk
      refine ⟨γ,⟨hgood.lists,{ hgood.space with free := fun h => absurd hpos h },hgood.returns,hgood.bound⟩,
        { Evolves.refl t d γ with mutex := fun u hu h => absurd (Option.some.inj (h.symm.trans howner)) hu },
        fun _ _ _ hi => ⟨hi.nonempty,hi.lock,hi.inserting,hi.absent⟩,fun pc he => ?_,fun s he => nomatch he⟩
      cases he
      exact ⟨howner,hpos,len,hfresh,rfl⟩
    | _ => cases h
  | storePos mem =>
    cases a with
    | step =>
      cases h
      obtain ⟨howner,hpos,len,hfresh,hend⟩ := hk
      refine ⟨γ,hgood.storePos hfresh hend,
        { Evolves.refl t d γ with mutex := fun u hu h => absurd (Option.some.inj (h.symm.trans howner)) hu },
        fun _ _ _ hi => ⟨hi.nonempty,hi.lock,hi.inserting,hi.absent⟩,fun pc he => ?_,fun s he => nomatch he⟩
      cases he
      exact fun _ => howner
    | _ => cases h
  | unlock s =>
    cases a with
    | step =>
      cases h
      obtain ⟨howner,hnode⟩ := hk
      refine ⟨_,hgood.setMutex none,Evolves.setMutex (fun u hu h => hu (Option.some.inj (h.symm.trans howner))) none,
        fun _ _ _ hi => ⟨hi.nonempty,hi.lock,hi.inserting,hi.absent⟩,fun pc he => (nomatch he),fun s' he => ?_⟩
      cases he
      exact hnode
    | _ => cases h

end CompilerRt.StackDepot
