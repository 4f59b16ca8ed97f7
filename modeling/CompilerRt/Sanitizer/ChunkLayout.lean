import CompilerRt.Sanitizer.SizeClassAllocator64
import Mathlib

/-! # The layout of a region

The chunks that were carved are the first ones of the region, one behind the other, whatever became of them since.
-/
namespace CompilerRt.Sanitizer
namespace Template
variable (t : Template) {fuel class_id k n : ℕ}

/-- The address of a chunk. -/
def chunk (class_id k : ℕ) : ℕ := (t.regionBeg class_id + k * t.map.Size class_id % 2^64) % 2^64

theorem populate_eq {size region_beg end_idx idx i idx' i' : ℕ} {l l' : List ℕ} (hidx : idx < 2^64)
    (h : populate size region_beg end_idx fuel idx i l = some (idx',i',l')) :
    ∃ m, 0 < m ∧ i' = i + m ∧ idx' = (idx + m * size) % 2^64 ∧
      l' = ((List.range m).map fun j => (region_beg + (idx + j * size) % 2^64) % 2^64).reverse ++ l := by
  induction fuel generalizing idx i l with
  | zero => cases h
  | succ fuel ih =>
    rw [populate] at h
    by_cases hlt : (idx + size) % 2^64 < end_idx
    · rw [if_pos hlt] at h
      obtain ⟨m,hm,hi,hidx',hl⟩ := ih (Nat.mod_lt _ (by decide)) h
      refine ⟨m + 1,by omega,by omega,?_,?_⟩
      · rw [hidx', Nat.mod_add_mod, Nat.succ_mul]
        congr 1
        omega
      · have hshift : ∀ j, (idx + size) % 2^64 + j * size ≡ idx + (j + 1) * size [MOD 2^64] := by
          intro j
          rw [Nat.succ_mul]
          refine (Nat.ModEq.add_right _ (Nat.mod_modEq _ _)).trans ?_
          rw [Nat.add_assoc, Nat.add_comm size]
        rw [hl, List.range_succ_eq_map, List.map_cons, List.map_map, List.reverse_cons, List.append_assoc,
          List.singleton_append, Nat.zero_mul, Nat.add_zero, Nat.mod_eq_of_lt hidx]
        congr 3
        funext j
        exact congrArg (fun x => (region_beg + x) % 2^64) (hshift j)
    · rw [if_neg hlt] at h
      cases h
      refine ⟨1,Nat.one_pos,rfl,by rw [Nat.one_mul],?_⟩
      simp

/-- Without a size the loop does not end. -/
theorem populate_zero {region_beg end_idx idx i : ℕ} {l : List ℕ} (hidx : idx < 2^64) (hlt : idx < end_idx) :
    populate 0 region_beg end_idx fuel idx i l = none := by
  induction fuel generalizing i l with
  | zero => rfl
  | succ fuel ih =>
    rw [populate]
    rw [Nat.add_zero, Nat.mod_eq_of_lt hidx, if_pos hlt]
    exact ih

/-- The region as it is when `n` chunks were carved. -/
structure Filled (class_id n : ℕ) (region : RegionInfo) : Prop where
  user : region.allocated_user = n * t.map.Size class_id % 2^64
  metadata : region.allocated_meta = n * t.kMetadataSize % 2^64
  pos : 0 < n → 0 < t.map.Size class_id

variable {t} {region region' : RegionInfo}

/-- New chunks come right behind those that were carved before. -/
theorem PopulateFreeList_eq (h : t.Filled class_id n region)
    (he : t.PopulateFreeList fuel class_id region = some region') :
    ∃ m, 0 < m ∧ t.Filled class_id (n + m) region' ∧
      region'.free_list.reverse = (List.range m).map fun j => t.chunk class_id (n + j) := by
  rw [PopulateFreeList] at he
  obtain ⟨⟨idx,i,l⟩,hloop,he⟩ := Option.bind_eq_some_iff.mp he
  dsimp only at he
  split_ifs at he with hlt
  cases he
  have huser : region.allocated_user < 2^64 := by
    rw [h.user]
    exact Nat.mod_lt _ (by decide)
  obtain ⟨m,hm,hi,hidx,hl⟩ := populate_eq huser hloop
  refine ⟨m,hm,⟨?_,?_,fun _ => ?_⟩,?_⟩
  · dsimp only
    have hadd : region.allocated_user + (idx + (2^64 - region.allocated_user)) = idx + 2^64 := by omega
    rw [hadd, Nat.add_mod_right, hidx, Nat.mod_mod, h.user, Nat.mod_add_mod, Nat.add_mul]
  · dsimp only
    rw [hi, h.metadata, Nat.mod_add_mod, Nat.zero_add, Nat.add_mul]
  · refine Nat.pos_of_ne_zero fun hzero => ?_
    have hfirst : region.allocated_user = 0 := by rw [h.user, hzero, Nat.mul_zero, Nat.zero_mod]
    rw [hzero, hfirst, populate_zero (by decide) (by decide)] at hloop
    cases hloop
  · rw [hl, List.append_nil, List.reverse_reverse]
    refine List.map_congr_left fun j _ => ?_
    rw [chunk, h.user, Nat.mod_add_mod, Nat.add_mul]

theorem moveFront_eq {count : ℕ} {l l' a b : List ℕ} (h : moveFront count l l' = some (a,b)) :
    ∃ front, front.length = count ∧ l = front ++ a ∧ b = front.reverse ++ l' := by
  induction count generalizing l l' with
  | zero =>
    cases h
    exact ⟨[],rfl,rfl,rfl⟩
  | succ count ih =>
    cases l with
    | nil => cases h
    | cons node l =>
      obtain ⟨front,hlength,hl,hb⟩ := ih h
      refine ⟨node :: front,by rw [List.length_cons, hlength],by rw [hl, List.cons_append],?_⟩
      rw [hb, List.reverse_cons, List.append_assoc, List.singleton_append]

/-- What a list of a cache gets is gone from that of the region. -/
theorem BulkAllocate_eq {free_list l : List ℕ} (he : t.BulkAllocate fuel class_id region free_list = some (region',l)) :
    ∃ r, t.populated fuel class_id region = some r ∧ region' = { r with free_list := region'.free_list } ∧
      (region'.free_list ++ l).Perm (r.free_list ++ free_list) ∧ l ≠ [] ∧
      (free_list = [] → l.length ≤ t.map.MaxCached class_id) := by
  rw [BulkAllocate] at he
  obtain ⟨r,hr,he⟩ := Option.bind_eq_some_iff.mp he
  refine ⟨r,hr,?_⟩
  split_ifs at he with hempty
  obtain ⟨⟨rest,l'⟩,hmove,he⟩ := Option.bind_eq_some_iff.mp he
  dsimp only at he
  split_ifs at he with hl
  cases he
  refine ⟨rfl,?_,fun hnil => hl (List.isEmpty_iff.mpr hnil),fun hnil => ?_⟩
  · dsimp only
    split_ifs at hmove
    · cases hmove
      rfl
    · obtain ⟨front,-,hfront,rfl⟩ := moveFront_eq hmove
      rw [hfront]
      calc rest ++ (front.reverse ++ free_list)
          _ = rest ++ front.reverse ++ free_list := (List.append_assoc ..).symm
          List.Perm _ (front ++ rest ++ free_list) :=
            ((List.perm_append_comm).trans ((List.reverse_perm front).append_right rest)).append_right free_list
  · subst hnil
    split_ifs at hmove with hcount
    · cases hmove
      rwa [List.append_nil]
    · obtain ⟨front,hlength,-,rfl⟩ := moveFront_eq hmove
      rw [List.append_nil, List.length_reverse, hlength]

end Template

namespace Primary
variable {Cache : Type*} {t : Template} {fuel class_id : ℕ}

/-- What was ever carved of each class. -/
def Laid (t : Template) (s : Primary Cache) : Prop := ∀ class_id,
  t.Filled class_id (s.carved class_id).length (s.regions class_id) ∧
    s.carved class_id = (List.range (s.carved class_id).length).map (t.chunk class_id)

theorem laid_init : (Init : Primary Cache).Laid t := fun _ =>
  ⟨⟨(Nat.zero_mul _).symm ▸ rfl,(Nat.zero_mul _).symm ▸ rfl,fun h => absurd h (Nat.lt_irrefl 0)⟩,rfl⟩

variable [DecidableEq Cache] {s s' : Primary Cache} {k : Cache}

/-- A refill carves new chunks where the region has none left, and shares out what is there. -/
theorem refill_eq (h : s.Laid t) (he : s.refill t fuel k class_id = some s') : ∃ region l new,
    (∃ m, new = (List.range m).map fun j => t.chunk class_id ((s.carved class_id).length + j)) ∧
    t.Filled class_id ((s.carved class_id).length + new.length) region ∧
    (region.free_list ++ l).Perm (new ++ (s.regions class_id).free_list ++ s.free_lists_ k class_id) ∧ l ≠ [] ∧
    (s.free_lists_ k class_id = [] → l.length ≤ t.map.MaxCached class_id) ∧
    s' = { (s.setRegion class_id region).setList k class_id l with
      carved := Function.update s.carved class_id (s.carved class_id ++ new) } := by
  rw [refill] at he
  obtain ⟨⟨region,l⟩,hbulk,rfl⟩ := Option.map_eq_some_iff.mp he
  obtain ⟨r,hr,hregion,hperm,hne,hcount⟩ := Template.BulkAllocate_eq hbulk
  refine ⟨region,l,s.carves t fuel class_id,?_⟩
  rw [Template.populated] at hr
  rw [carves]
  by_cases hempty : (s.regions class_id).free_list.isEmpty = true
  · rw [if_pos hempty] at hr
    obtain ⟨m,-,hfilled,hlist⟩ := Template.PopulateFreeList_eq (h class_id).1 hr
    have hlength : r.free_list.reverse.length = m := by rw [hlist, List.length_map, List.length_range]
    rw [if_pos hempty, hr, Option.map_some, Option.getD_some, hlength]
    refine ⟨⟨m,hlist⟩,?_,hperm.trans ?_,hne,hcount,rfl⟩
    · rw [hregion]
      exact ⟨hfilled.user,hfilled.metadata,hfilled.pos⟩
    · rw [List.isEmpty_iff.mp hempty, List.append_nil]
      exact (List.reverse_perm _).symm.append_right _
  · rw [if_neg hempty] at hr
    cases hr
    rw [if_neg hempty]
    refine ⟨⟨0,rfl⟩,?_,hperm,hne,hcount,rfl⟩
    rw [hregion]
    exact ⟨(h class_id).1.user,(h class_id).1.metadata,(h class_id).1.pos⟩

/-- Lists change hands, and nothing is carved. -/
structure SameLayout (s s' : Primary Cache) : Prop where
  carved : s'.carved = s.carved
  user : ∀ class_id, (s'.regions class_id).allocated_user = (s.regions class_id).allocated_user
  metadata : ∀ class_id, (s'.regions class_id).allocated_meta = (s.regions class_id).allocated_meta

omit [DecidableEq Cache] in
theorem SameLayout.refl (s : Primary Cache) : SameLayout s s := ⟨rfl,fun _ => rfl,fun _ => rfl⟩

omit [DecidableEq Cache] in
theorem SameLayout.trans {s₁ s₂ s₃ : Primary Cache} (h : SameLayout s₁ s₂) (h' : SameLayout s₂ s₃) :
    SameLayout s₁ s₃ :=
  ⟨h'.carved.trans h.carved,fun c => (h'.user c).trans (h.user c),fun c => (h'.metadata c).trans (h.metadata c)⟩

omit [DecidableEq Cache] in
theorem Laid.same (h : s.Laid t) (hsame : SameLayout s s') : s'.Laid t := by
  intro class_id
  obtain ⟨hfilled,hcarved⟩ := h class_id
  rw [hsame.carved]
  exact ⟨⟨(hsame.user class_id).trans hfilled.user,(hsame.metadata class_id).trans hfilled.metadata,hfilled.pos⟩,hcarved⟩

omit [DecidableEq Cache] in
theorem sameLayout_of_eq (hcarved : s'.carved = s.carved) (hregions : s'.regions = s.regions) : SameLayout s s' :=
  ⟨hcarved,fun c => by rw [hregions],fun c => by rw [hregions]⟩

omit [DecidableEq Cache] in
theorem sameLayout_setRegion (l : List ℕ) (hcarved : s'.carved = s.carved)
    (hregions : s'.regions = Function.update s.regions class_id { s.regions class_id with free_list := l }) :
    SameLayout s s' := by
  have hother : ∀ c, (Function.update s.regions class_id { s.regions class_id with free_list := l } c).allocated_user =
        (s.regions c).allocated_user ∧
      (Function.update s.regions class_id { s.regions class_id with free_list := l } c).allocated_meta =
        (s.regions c).allocated_meta := by
    intro c
    by_cases hc : c = class_id
    · rw [hc, Function.update_self]
      exact ⟨rfl,rfl⟩
    · rw [Function.update_of_ne hc]
      exact ⟨rfl,rfl⟩
  refine ⟨hcarved,fun c => ?_,fun c => ?_⟩
  · rw [hregions]
    exact (hother c).1
  · rw [hregions]
    exact (hother c).2

theorem refill_laid (h : s.Laid t) (he : s.refill t fuel k class_id = some s') : s'.Laid t := by
  obtain ⟨region,l,new,⟨m,hnew⟩,hfilled,-,-,-,rfl⟩ := refill_eq h he
  intro c
  dsimp only [setList, setRegion]
  by_cases hc : c = class_id
  · subst hc
    rw [Function.update_self, Function.update_self, List.length_append]
    refine ⟨hfilled,?_⟩
    have hlength : new.length = m := by rw [hnew, List.length_map, List.length_range]
    rw [List.range_add, List.map_append, List.map_map, hlength]
    exact congrArg₂ _ (h c).2 hnew
  · rw [Function.update_of_ne hc, Function.update_of_ne hc]
    exact h c

theorem take_eq {p : ℕ} (he : s.take k class_id = some (p,s')) : ∃ l, s.free_lists_ k class_id = p :: l ∧
    s' = (s.setList k class_id l).setUser class_id (p :: s.user class_id) := by
  rw [take] at he
  split at he
  · cases he
  · cases he
    exact ⟨_,‹_›,rfl⟩

/-- An allocation fills the list of the cache if it is empty, and takes the first chunk. -/
theorem Allocate_eq {p : ℕ} (he : s.Allocate t fuel k class_id = some (p,s')) : class_id < kNumClasses ∧
    ((s.free_lists_ k class_id ≠ [] ∧ s.take k class_id = some (p,s')) ∨
      (s.free_lists_ k class_id = [] ∧
        ∃ s₁, s.refill t fuel k class_id = some s₁ ∧ s₁.take k class_id = some (p,s'))) := by
  rw [Allocate] at he
  split_ifs at he with hclass hempty
  · obtain ⟨s₁,h₁,h₂⟩ := Option.bind_eq_some_iff.mp he
    exact ⟨hclass,.inr ⟨List.isEmpty_iff.mp hempty,s₁,h₁,h₂⟩⟩
  · exact ⟨hclass,.inl ⟨fun hnil => hempty (List.isEmpty_iff.mpr hnil),he⟩⟩

theorem sameLayout_take {p : ℕ} (he : s.take k class_id = some (p,s')) : SameLayout s s' := by
  obtain ⟨l,-,rfl⟩ := take_eq he
  exact sameLayout_of_eq rfl rfl

theorem DrainHalf_eq (he : s.DrainHalf k class_id = some s') : ∃ front rest,
    s.free_lists_ k class_id = front ++ rest ∧ front.length = (s.free_lists_ k class_id).length / 2 ∧
    s' = (s.setList k class_id rest).setRegion class_id (BulkDeallocate (s.regions class_id) front.reverse) := by
  rw [DrainHalf] at he
  obtain ⟨⟨rest,half⟩,hmove,rfl⟩ := Option.map_eq_some_iff.mp he
  obtain ⟨front,hlength,hl,rfl⟩ := Template.moveFront_eq hmove
  exact ⟨front,rest,hl,hlength,by rw [List.append_nil]⟩

/-- A chunk that is given back may fill the list so far that half of it goes to the region. -/
theorem Deallocate_eq {p : ℕ} (he : s.Deallocate t k class_id p = some s') : class_id < kNumClasses ∧
    ((((s.give k class_id p).free_lists_ k class_id).length < 2 * t.map.MaxCached class_id ∧
        s' = s.give k class_id p) ∨
      (2 * t.map.MaxCached class_id ≤ ((s.give k class_id p).free_lists_ k class_id).length ∧
        (s.give k class_id p).DrainHalf k class_id = some s')) := by
  rw [Deallocate] at he
  dsimp only at he
  split_ifs at he with hclass hfull
  · exact ⟨hclass,.inr ⟨hfull,he⟩⟩
  · cases he
    exact ⟨hclass,.inl ⟨by omega,rfl⟩⟩

theorem sameLayout_Deallocate {p : ℕ} (he : s.Deallocate t k class_id p = some s') : SameLayout s s' := by
  obtain ⟨-,⟨-,rfl⟩ | ⟨-,hdrain⟩⟩ := Deallocate_eq he
  · exact sameLayout_of_eq rfl rfl
  · obtain ⟨front,rest,-,-,rfl⟩ := DrainHalf_eq hdrain
    exact sameLayout_setRegion (front.reverse ++ (s.regions class_id).free_list) rfl rfl

theorem sameLayout_drainClass (s : Primary Cache) (k : Cache) (class_id : ℕ) : SameLayout s (drainClass k s class_id) :=
  sameLayout_setRegion (s.free_lists_ k class_id ++ (s.regions class_id).free_list) rfl rfl

theorem sameLayout_drain (l : List ℕ) (s : Primary Cache) (k : Cache) : SameLayout s (l.foldl (drainClass k) s) := by
  induction l generalizing s with
  | nil => exact .refl s
  | cons c l ih => exact (sameLayout_drainClass s k c).trans (ih _)

theorem step_laid {op : Op Cache} (h : s.Laid t) (he : s.step t fuel op = some s') : s'.Laid t := by
  cases op with
  | Allocate k class_id =>
    obtain ⟨⟨p,s₁⟩,hs₁,rfl⟩ := Option.map_eq_some_iff.mp he
    obtain ⟨-,⟨-,htake⟩ | ⟨-,s₂,hrefill,htake⟩⟩ := Allocate_eq hs₁
    · exact h.same (sameLayout_take htake)
    · exact (refill_laid h hrefill).same (sameLayout_take htake)
  | Deallocate k class_id p =>
    rw [step] at he
    split_ifs at he with hp
    exact h.same (sameLayout_Deallocate he)
  | Drain k =>
    cases he
    exact h.same (sameLayout_drain _ s k)

theorem run_laid {ops : List (Op Cache)} (he : Transition.run (step t fuel) Init ops = some s) : s.Laid t :=
  Transition.run_inv (fun _ _ _ h h' => step_laid h h') laid_init he

end Primary
end CompilerRt.Sanitizer
