import CompilerRt.Ubsan.TypeHash
import Mathlib

/-! # Class hierarchies in memory

`isDerivedFromAtOffset` of `lib/ubsan/ubsan_type_hash.cc` on type_info objects that point to each other. Classes may
share their bases; the recursion ends because no class is its own base.
-/
namespace CompilerRt.Ubsan.Hierarchy
open Relation

/-- A type_info object, with the addresses of its bases. -/
inductive TypeInfo where
  | class_type
  | si_class_type (base_type : ℕ)
  | vmi_class_type (base_info : List (ℤ × ℕ))

/-- The objects by their addresses. -/
abbrev Objects := ℕ → TypeInfo

def virtualMask (offset_flags : ℤ) : Bool := offset_flags % 2 = 1

/-- `offset_flags >> __offset_shift` -/
def offsetHere (offset_flags : ℤ) : ℤ := offset_flags / 2^8

/-- The loop over the bases; for one of them the function calls itself. -/
def anyBaseAtOffset (derived : ℕ → ℤ → Option Bool) : List (ℤ × ℕ) → ℤ → Option Bool
  | [], _ => some false
  | (offset_flags,base_type) :: rest, Offset =>
    if virtualMask offset_flags then some true
    else do
      if ← derived base_type (Offset - offsetHere offset_flags) then return true
      else anyBaseAtOffset derived rest Offset

/-- The recursion to a depth of `fuel` calls. -/
def isDerivedFromAtOffset (O : Objects) (Base : ℕ) : ℕ → ℕ → ℤ → Option Bool
  | 0, _, _ => none
  | fuel + 1, Derived, Offset =>
    if Derived = Base then some (Offset = 0)
    else match O Derived with
      | .class_type => some false
      | .si_class_type base_type => isDerivedFromAtOffset O Base fuel base_type Offset
      | .vmi_class_type base_info => anyBaseAtOffset (isDerivedFromAtOffset O Base fuel) base_info Offset

/-! ## Subobjects -/

section Bases
variable (O : Objects)

def IsBase (b d : ℕ) : Prop := match O d with
  | .class_type => False
  | .si_class_type base_type => b = base_type
  | .vmi_class_type base_info => ∃ offset_flags, (offset_flags,b) ∈ base_info

/-- The class itself, its bases, their bases and so on. -/
def Ancestor (d e : ℕ) : Prop := ReflTransGen (IsBase O) e d

/-- The hierarchy above a class has an end. -/
structure Acyclic (d : ℕ) : Prop where
  finite : {e | Ancestor O d e}.Finite
  acyclic : ∀ e, Ancestor O d e → ¬TransGen (IsBase O) e e

def NoVirtual (d : ℕ) : Prop := ∀ e base_info, Ancestor O d e → O e = .vmi_class_type base_info →
  ∀ base ∈ base_info, virtualMask base.1 = false

/-- `Derived` has a `Base` subobject at the offset, through bases that are not virtual. -/
inductive Subobject (Base : ℕ) : ℕ → ℤ → Prop
  | self : Subobject Base Base 0
  | si {d b : ℕ} {o : ℤ} (hd : O d = .si_class_type b) (h : Subobject Base b o) : Subobject Base d o
  | vmi {d b : ℕ} {o offset_flags : ℤ} {base_info : List (ℤ × ℕ)} (hd : O d = .vmi_class_type base_info)
      (hb : (offset_flags,b) ∈ base_info) (hv : virtualMask offset_flags = false) (h : Subobject Base b o) :
      Subobject Base d (offsetHere offset_flags + o)

end Bases

section Facts
variable {O : Objects} {Base b d e : ℕ} {o : ℤ}

theorem isBase_si (h : O d = .si_class_type b) : IsBase O b d := by
  rw [IsBase, h]

theorem isBase_vmi {base_info : List (ℤ × ℕ)} {offset_flags : ℤ} (h : O d = .vmi_class_type base_info)
    (hb : (offset_flags,b) ∈ base_info) : IsBase O b d := by
  rw [IsBase, h]
  exact ⟨offset_flags,hb⟩

theorem Ancestor.base (h : IsBase O b d) (ha : Ancestor O b e) : Ancestor O d e := ReflTransGen.tail ha h

theorem NoVirtual.base (h : NoVirtual O d) (hb : IsBase O b d) : NoVirtual O b :=
  fun e base_info he => h e base_info (he.base hb)

theorem Acyclic.base (h : Acyclic O d) (hb : IsBase O b d) : Acyclic O b :=
  ⟨h.finite.subset fun _ he => Ancestor.base hb he,fun e he => h.acyclic e (he.base hb)⟩

/-- A subobject is an ancestor. -/
theorem Subobject.ancestor (h : Subobject O Base d o) : Ancestor O d Base := by
  induction h with
  | self => exact ReflTransGen.refl
  | si hd _ ih => exact ih.base (isBase_si hd)
  | vmi hd hb _ _ ih => exact ih.base (isBase_vmi hd hb)

/-- A class has itself as a subobject only at offset zero. -/
theorem Subobject.eq_zero (h : Subobject O d d o) (hd : ¬TransGen (IsBase O) d d) : o = 0 := by
  cases h with
  | self => rfl
  | si hb hs => exact absurd (TransGen.tail' hs.ancestor (isBase_si hb)) hd
  | vmi hb hm _ hs => exact absurd (TransGen.tail' hs.ancestor (isBase_vmi hb hm)) hd

/-- Without cycles the bases of a class are well founded. -/
theorem Acyclic.acc (h : Acyclic O d) : Acc (IsBase O) d := by
  have hstrict : IsStrictOrder ℕ fun a c => Ancestor O d a ∧ Ancestor O d c ∧ TransGen (IsBase O) a c :=
    { irrefl := fun a ⟨ha,_,hc⟩ => h.acyclic a ha hc
      trans := fun _ _ _ ⟨ha,_,hab⟩ ⟨_,hc,hbc⟩ => ⟨ha,hc,hab.trans hbc⟩ }
  have hwf := Set.wellFoundedOn_iff.mp (h.finite.wellFoundedOn (r := fun a c =>
    Ancestor O d a ∧ Ancestor O d c ∧ TransGen (IsBase O) a c))
  have hacc : ∀ c, Ancestor O d c → Acc (IsBase O) c := by
    intro c
    induction c using hwf.induction with
    | _ c ih =>
      intro hc
      refine Acc.intro c fun a ha => ?_
      have hanc : Ancestor O d a := ReflTransGen.head ha hc
      exact ih a ⟨⟨hanc,hc,TransGen.single ha⟩,hanc,hc⟩ hanc
  exact hacc d ReflTransGen.refl

/-! ## The walk -/

/-- What is asked of the result for one class and one offset. -/
structure Correct (O : Objects) (Base d : ℕ) (o : ℤ) (r : Bool) : Prop where
  complete : Subobject O Base d o → r = true
  sound : NoVirtual O d → r = true → Subobject O Base d o

/-- The loop over bases of which the walk is right. -/
theorem anyBaseAtOffset_correct {derived : ℕ → ℤ → Option Bool} {bases : List (ℤ × ℕ)}
    (h : ∀ base ∈ bases, ∀ o, ∃ r, derived base.2 o = some r ∧ Correct O Base base.2 o r) (o : ℤ) :
    ∃ r, anyBaseAtOffset derived bases o = some r ∧
      ((∃ base ∈ bases, virtualMask base.1 = false ∧ Subobject O Base base.2 (o - offsetHere base.1)) → r = true) ∧
      ((∀ base ∈ bases, virtualMask base.1 = false ∧ NoVirtual O base.2) → r = true →
        ∃ base ∈ bases, virtualMask base.1 = false ∧ Subobject O Base base.2 (o - offsetHere base.1)) := by
  induction bases with
  | nil => exact ⟨false,rfl,by simp,by simp⟩
  | cons base rest ih =>
    obtain ⟨offset_flags,b⟩ := base
    by_cases hv : virtualMask offset_flags = true
    · refine ⟨true,by rw [anyBaseAtOffset, if_pos hv],fun _ => rfl,fun hall => ?_⟩
      have hfalse := (hall _ List.mem_cons_self).1
      rw [hv] at hfalse
      cases hfalse
    obtain ⟨r,hr,hc⟩ := h _ List.mem_cons_self (o - offsetHere offset_flags)
    have hv := eq_false_of_ne_true hv
    cases r with
    | true =>
      refine ⟨true,by simp [anyBaseAtOffset, hv, hr],fun _ => rfl,fun hall _ => ?_⟩
      exact ⟨_,List.mem_cons_self,hv,hc.sound (hall _ List.mem_cons_self).2 rfl⟩
    | false =>
      obtain ⟨r',hr',hcomplete,hsound⟩ := ih fun base hbase => h base (List.mem_cons_of_mem _ hbase)
      refine ⟨r',by simp [anyBaseAtOffset, hv, hr, hr'],fun ⟨base,hbase,hbv,hs⟩ => ?_,fun hall hr => ?_⟩
      · rcases List.mem_cons.mp hbase with rfl | hbase
        · cases hc.complete hs
        · exact hcomplete ⟨base,hbase,hbv,hs⟩
      · obtain ⟨base,hbase,hb⟩ := hsound (fun base hbase => hall base (List.mem_cons_of_mem _ hbase)) hr
        exact ⟨base,List.mem_cons_of_mem _ hbase,hb⟩

/-- A subobject of a class with several bases is one of a base, at what is left of the offset. -/
theorem subobject_vmi_iff {base_info : List (ℤ × ℕ)} (hd : O d = .vmi_class_type base_info) (hne : d ≠ Base) :
    Subobject O Base d o ↔
      ∃ base ∈ base_info, virtualMask base.1 = false ∧ Subobject O Base base.2 (o - offsetHere base.1) := by
  constructor
  · intro h
    cases h with
    | self => exact absurd rfl hne
    | si hd' =>
      rw [hd] at hd'
      cases hd'
    | vmi hd' hb hv hs =>
      rw [hd] at hd'
      cases hd'
      refine ⟨_,hb,hv,?_⟩
      rwa [add_sub_cancel_left]
  · rintro ⟨base,hb,hv,hs⟩
    have h := Subobject.vmi hd hb hv hs
    rwa [add_sub_cancel] at h

theorem subobject_si_iff (hd : O d = .si_class_type b) (hne : d ≠ Base) :
    Subobject O Base d o ↔ Subobject O Base b o := by
  constructor
  · intro h
    cases h with
    | self => exact absurd rfl hne
    | si hd' hs =>
      rw [hd] at hd'
      cases hd'
      exact hs
    | vmi hd' =>
      rw [hd] at hd'
      cases hd'
  · exact Subobject.si hd

theorem not_subobject_class (hd : O d = .class_type) (hne : d ≠ Base) : ¬Subobject O Base d o := by
  intro h
  cases h with
  | self => exact hne rfl
  | si hd' =>
    rw [hd] at hd'
    cases hd'
  | vmi hd' =>
    rw [hd] at hd'
    cases hd'

/-- A depth that is enough for all bases in a list. -/
theorem exists_depth {P : ℕ → ℕ → Prop} {bases : List (ℤ × ℕ)}
    (h : ∀ base ∈ bases, ∃ N, ∀ fuel ≥ N, P fuel base.2) : ∃ N, ∀ fuel ≥ N, ∀ base ∈ bases, P fuel base.2 := by
  induction bases with
  | nil => exact ⟨0,fun _ _ => by simp⟩
  | cons base rest ih =>
    obtain ⟨M,hM⟩ := h base List.mem_cons_self
    obtain ⟨N,hN⟩ := ih fun b hb => h b (List.mem_cons_of_mem _ hb)
    refine ⟨max M N,fun fuel hf b hb => ?_⟩
    rcases List.mem_cons.mp hb with rfl | hb
    · exact hM fuel (by omega)
    · exact hN fuel (by omega) b hb

/-- On every hierarchy without cycles the walk ends, finds every subobject that no virtual base hides, and without
virtual bases finds nothing else. -/
theorem isDerivedFromAtOffset_correct (h : Acyclic O d) (Base : ℕ) : ∃ N, ∀ fuel ≥ N, ∀ o,
    ∃ r, isDerivedFromAtOffset O Base fuel d o = some r ∧ Correct O Base d o r := by
  have hacc := h.acc
  induction hacc with
  | intro d _ ih =>
    -- the class itself, which is no base of its own
    by_cases hne : d = Base
    · subst hne
      refine ⟨1,fun fuel hf o => ?_⟩
      obtain ⟨fuel,rfl⟩ := Nat.exists_eq_add_of_le' hf
      refine ⟨decide (o = 0),by rw [isDerivedFromAtOffset, if_pos rfl],fun hs => ?_,fun _ hr => ?_⟩
      · exact decide_eq_true (hs.eq_zero (h.acyclic d ReflTransGen.refl))
      · rw [of_decide_eq_true hr]
        exact Subobject.self
    cases hd : O d with
    | class_type =>
      refine ⟨1,fun fuel hf o => ?_⟩
      obtain ⟨fuel,rfl⟩ := Nat.exists_eq_add_of_le' hf
      refine ⟨false,by rw [isDerivedFromAtOffset, if_neg hne, hd],fun hs => ?_,nofun⟩
      exact absurd hs (not_subobject_class hd hne)
    | si_class_type b =>
      have hb := isBase_si hd
      obtain ⟨N,hN⟩ := ih b hb (h.base hb)
      refine ⟨N + 1,fun fuel hf o => ?_⟩
      obtain ⟨k,rfl⟩ := Nat.exists_eq_add_of_le' hf
      obtain ⟨r,hr,hc⟩ := hN (k + N) (by omega) o
      refine ⟨r,?_,fun hs => ?_,fun hv ht => ?_⟩
      · rw [← Nat.add_assoc, isDerivedFromAtOffset, if_neg hne, hd]
        exact hr
      · exact hc.complete ((subobject_si_iff hd hne).mp hs)
      · exact (subobject_si_iff hd hne).mpr (hc.sound (hv.base hb) ht)
    | vmi_class_type base_info =>
      have hb : ∀ base ∈ base_info, IsBase O base.2 d := fun base hm => isBase_vmi hd hm
      obtain ⟨N,hN⟩ := exists_depth (P := fun fuel b => ∀ o, ∃ r, isDerivedFromAtOffset O Base fuel b o = some r ∧
        Correct O Base b o r) fun base hm => ih base.2 (hb base hm) (h.base (hb base hm))
      refine ⟨N + 1,fun fuel hf o => ?_⟩
      obtain ⟨k,rfl⟩ := Nat.exists_eq_add_of_le' hf
      have hwalk := hN (k + N) (by omega)
      obtain ⟨r,hr,hcomplete,hsound⟩ := anyBaseAtOffset_correct hwalk o
      refine ⟨r,?_,fun hs => ?_,fun hv ht => ?_⟩
      · rw [← Nat.add_assoc, isDerivedFromAtOffset, if_neg hne, hd]
        exact hr
      · exact hcomplete ((subobject_vmi_iff hd hne).mp hs)
      · refine (subobject_vmi_iff hd hne).mpr (hsound (fun base hm => ?_) ht)
        exact ⟨hv d base_info ReflTransGen.refl hd base hm,hv.base (hb base hm)⟩

/-! ## Hierarchies as trees -/

/-- The class with all its bases, as often as they occur. -/
def unfold (O : Objects) : ℕ → ℕ → Option ClassTypeInfo
  | 0, _ => none
  | fuel + 1, d => match O d with
    | .class_type => some (.class_type d)
    | .si_class_type base_type => (unfold O fuel base_type).map (.si_class_type d)
    | .vmi_class_type base_info =>
      (base_info.mapM fun base => (unfold O fuel base.2).map fun t => (base.1,t)).map (.vmi_class_type d)

/-- The loop gives what it gives for the trees of the bases. -/
theorem anyBaseAtOffset_unfold {fuel : ℕ}
    (h : ∀ b t o, unfold O fuel b = some t →
      isDerivedFromAtOffset O Base fuel b o = some (Ubsan.isDerivedFromAtOffset Base t o))
    {bases : List (ℤ × ℕ)} {ts : List (ℤ × ClassTypeInfo)}
    (ht : (bases.mapM fun base => (unfold O fuel base.2).map fun t => (base.1,t)) = some ts) (o : ℤ) :
    anyBaseAtOffset (isDerivedFromAtOffset O Base fuel) bases o = some (Ubsan.anyBaseAtOffset Base ts o) := by
  induction bases generalizing ts with
  | nil =>
    cases ht
    rfl
  | cons base rest ih =>
    rw [List.mapM_cons] at ht
    simp only [Option.bind_eq_bind, Option.bind_eq_some_iff, Option.map_eq_some_iff, Option.pure_def,
      Option.some.injEq] at ht
    obtain ⟨_,⟨t,hb,rfl⟩,ts',hrest,rfl⟩ := ht
    rw [anyBaseAtOffset, Ubsan.anyBaseAtOffset, h base.2 t _ hb, ih hrest, virtualMask, offsetHere]
    simp only [decide_eq_true_eq, Option.bind_eq_bind, Option.bind_some, Option.pure_def]
    split_ifs <;> rfl

/-- The walk of the objects is that of the tree. -/
theorem isDerivedFromAtOffset_unfold (fuel d : ℕ) (t : ClassTypeInfo) (o : ℤ) (h : unfold O fuel d = some t) :
    isDerivedFromAtOffset O Base fuel d o = some (Ubsan.isDerivedFromAtOffset Base t o) := by
  induction fuel generalizing d t o with
  | zero => cases h
  | succ fuel ih =>
    rw [unfold] at h
    rw [isDerivedFromAtOffset]
    cases hd : O d with
    | class_type =>
      simp only [hd, Option.some.injEq] at h
      subst h
      rw [Ubsan.isDerivedFromAtOffset]
      by_cases hne : d = Base <;> simp [hne]
    | si_class_type b =>
      simp only [hd, Option.map_eq_some_iff] at h
      obtain ⟨t',ht,rfl⟩ := h
      rw [Ubsan.isDerivedFromAtOffset]
      split_ifs
      · rfl
      · exact ih b t' o ht
    | vmi_class_type base_info =>
      simp only [hd, Option.map_eq_some_iff] at h
      obtain ⟨ts,hts,rfl⟩ := h
      rw [Ubsan.isDerivedFromAtOffset]
      split_ifs
      · rfl
      · exact anyBaseAtOffset_unfold (fun b t o hb => ih b t o hb) hts o

end Facts

/-- A class with a base at offset 16 that has a base of its own. -/
def chain : Objects
  | 1 => .vmi_class_type [(16 * 2^8 + 2,2)]
  | 2 => .si_class_type 3
  | _ => .class_type

theorem chain_acyclic : Acyclic chain 1 := by
  have hup : ∀ {b d}, IsBase chain b d → d < b ∧ b ≤ 3 := by
    intro b d h
    match d with
    | 1 =>
      simp only [IsBase, chain, List.mem_singleton, Prod.mk.injEq] at h
      omega
    | 2 =>
      simp only [IsBase, chain] at h
      omega
    | 0 | n + 3 => simp [IsBase, chain] at h
  have hlt : ∀ {b d}, TransGen (IsBase chain) b d → d < b ∧ b ≤ 3 := by
    intro b d h
    induction h with
    | single h => exact hup h
    | tail _ h ih =>
      have hd := hup h
      omega
  refine ⟨(Set.finite_le_nat 3).subset fun e he => ?_,fun e _ he => absurd (hlt he).1 (lt_irrefl e)⟩
  rcases reflTransGen_iff_eq_or_transGen.mp he with rfl | he
  · exact Nat.le_of_ble_eq_true rfl
  · exact (hlt he).2

theorem chain_correct : ∃ N, ∀ fuel ≥ N, ∀ o,
    ∃ r, isDerivedFromAtOffset chain 3 fuel 1 o = some r ∧ Correct chain 3 1 o r :=
  isDerivedFromAtOffset_correct chain_acyclic 3

end CompilerRt.Ubsan.Hierarchy
