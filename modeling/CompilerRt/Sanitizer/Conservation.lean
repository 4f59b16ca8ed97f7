import CompilerRt.Lib.Spread
import CompilerRt.Sanitizer.ChunkLayout
import Mathlib

/-! # No chunk is lost

As long as no region is exhausted, each chunk is in the free list of its region, in the list of one cache, or with the
user, and chunks do not overlap each other or the metadata.
-/
namespace CompilerRt.Sanitizer

/-! ## The space -/

namespace Template
variable {t : Template} {class_id n k j : ℕ}

theorem kSpaceSize_eq (t : Template) : t.kSpaceSize = 256 * t.kRegionSize ∧ 2^32 ≤ t.kRegionSize := by
  obtain ⟨b,-,hb⟩ := t.size_pow
  have hregion := t.region
  rw [Nat.shiftRight_eq_div_pow] at hregion
  have hlarge : 2^32 ≤ t.kSpaceSize / 256 := by
    by_contra hlt
    rw [Nat.div_eq_of_lt (not_le.mp hlt)] at hregion
    exact absurd hregion (Nat.lt_irrefl 0)
  refine ⟨?_,hlarge⟩
  have h8 : 8 ≤ b := by
    by_contra hlt
    have hsmall : (2:ℕ)^b ≤ 2^8 := Nat.pow_le_pow_right (by decide) (by omega)
    rw [hb] at hlarge
    omega
  have hdvd : 256 ∣ t.kSpaceSize := by
    rw [hb]
    exact Nat.pow_dvd_pow 2 h8
  exact (Nat.mul_div_cancel' hdvd).symm

theorem space_lt (t : Template) : t.kSpaceBeg + t.kSpaceSize < 2^64 := by
  have hmapped := t.mapped
  omega

/-- A region ends where the address space does, or before. -/
theorem regionEnd_le (h : class_id < 256) : t.regionBeg class_id + t.kRegionSize ≤ t.kSpaceBeg + t.kSpaceSize := by
  have hstep : t.kRegionSize * (class_id + 1) ≤ t.kRegionSize * 256 := Nat.mul_le_mul_left _ h
  rw [Nat.mul_succ] at hstep
  rw [regionBeg, (kSpaceSize_eq t).1]
  omega

/-- The address of a chunk that begins in the region does not wrap. -/
theorem chunk_eq (hclass : class_id < 256) (hk : k * t.map.Size class_id < t.kRegionSize) :
    t.chunk class_id k = t.regionBeg class_id + k * t.map.Size class_id := by
  have hend := regionEnd_le (t := t) hclass
  have hspace := t.space_lt
  rw [chunk, Nat.mod_eq_of_lt (a := k * t.map.Size class_id) (by omega), Nat.mod_eq_of_lt (by omega)]

theorem chunk_injOn (hclass : class_id < 256) (hpos : 0 < t.map.Size class_id)
    (hroom : n * t.map.Size class_id < t.kRegionSize) :
    ∀ j < n, ∀ k < n, t.chunk class_id j = t.chunk class_id k → j = k := by
  intro j hj k hk heq
  have hlt : ∀ i < n, i * t.map.Size class_id < t.kRegionSize := fun i hi =>
    (Nat.mul_le_mul_right _ hi.le).trans_lt hroom
  rw [chunk_eq hclass (hlt j hj), chunk_eq hclass (hlt k hk)] at heq
  exact Nat.eq_of_mul_eq_mul_right hpos (Nat.add_left_cancel heq)

end Template

namespace Primary
variable {Cache : Type*} {t : Template} {fuel : ℕ}

/-- The chunks and the metadata of each class fit into its region. -/
def NotExhausted (t : Template) (s : Primary Cache) : Prop := ∀ class_id,
  (s.carved class_id).length * (t.map.Size class_id + t.kMetadataSize) < t.kRegionSize

/-- How the chunks of a class lie in its region. -/
structure Apart (t : Template) (s : Primary Cache) (class_id : ℕ) : Prop where
  nodup : (s.carved class_id).Nodup
  apart : ∀ p ∈ s.carved class_id, ∀ q ∈ s.carved class_id, p ≠ q →
    p + t.map.Size class_id ≤ q ∨ q + t.map.Size class_id ≤ p
  inside : ∀ p ∈ s.carved class_id, t.regionBeg class_id ≤ p ∧
    p + t.map.Size class_id ≤ t.regionBeg class_id + t.kRegionSize
  metadata : ∀ p ∈ s.carved class_id, p + t.map.Size class_id ≤
    t.regionBeg class_id + t.kRegionSize - (s.carved class_id).length * t.kMetadataSize

inductive Place (Cache : Type*) where
  | region
  | cache (k : Cache)
  | user
deriving DecidableEq

/-- Where the chunks of a class are. -/
def places (s : Primary Cache) (class_id : ℕ) : Place Cache → List ℕ
  | .region => (s.regions class_id).free_list
  | .cache k => s.free_lists_ k class_id
  | .user => s.user class_id

variable {s s' : Primary Cache} {class_id c : ℕ} {k : Cache}

theorem apart_of_laid (h : s.Laid t) (hroom : s.NotExhausted t) (hclass : class_id < 256) : s.Apart t class_id := by
  obtain ⟨hfilled,hcarved⟩ := h class_id
  have hn := hroom class_id
  have hmul := Nat.mul_add (s.carved class_id).length (t.map.Size class_id) t.kMetadataSize
  have hsize : (s.carved class_id).length * t.map.Size class_id < t.kRegionSize := by omega
  have hmem : ∀ p ∈ s.carved class_id, ∃ k < (s.carved class_id).length,
      p = t.regionBeg class_id + k * t.map.Size class_id := by
    intro p hp
    rw [hcarved, List.mem_map] at hp
    obtain ⟨k,hk,rfl⟩ := hp
    have hlt := Nat.mul_le_mul_right (t.map.Size class_id) (List.mem_range.mp hk).le
    exact ⟨k,List.mem_range.mp hk,Template.chunk_eq hclass (by omega)⟩
  -- the chunks are multiples of the size, so different ones are a size apart
  have hnext : ∀ j k, j < k → j * t.map.Size class_id + t.map.Size class_id ≤ k * t.map.Size class_id := by
    intro j k hjk
    rw [← Nat.succ_mul]
    exact Nat.mul_le_mul_right _ hjk
  refine ⟨?_,?_,?_,?_⟩
  · rw [hcarved]
    refine List.Nodup.map_on (fun j hj k hk => ?_) List.nodup_range
    rw [List.mem_range] at hj hk
    exact Template.chunk_injOn hclass (hfilled.pos (by omega)) hsize j hj k hk
  · intro p hp q hq hne
    obtain ⟨j,hj,rfl⟩ := hmem p hp
    obtain ⟨k,hk,rfl⟩ := hmem q hq
    rcases Nat.lt_trichotomy j k with hjk | rfl | hkj
    · have hle := hnext j k hjk
      omega
    · exact absurd rfl hne
    · have hle := hnext k j hkj
      omega
  · intro p hp
    obtain ⟨j,hj,rfl⟩ := hmem p hp
    have hle := hnext j _ hj
    omega
  · intro p hp
    obtain ⟨j,hj,rfl⟩ := hmem p hp
    have hle := hnext j _ hj
    omega

/-! ## Moving chunks -/

variable [DecidableEq Cache]

theorem places_setRegion (s : Primary Cache) (class_id c : ℕ) (r : RegionInfo) :
    (s.setRegion class_id r).places c =
      if c = class_id then Function.update (s.places c) .region r.free_list else s.places c := by
  funext place
  by_cases hc : c = class_id
  · subst hc
    rw [if_pos rfl]
    cases place <;> simp [places, setRegion]
  · rw [if_neg hc]
    cases place <;> simp [places, setRegion, hc]

theorem places_setList (s : Primary Cache) (k : Cache) (class_id c : ℕ) (l : List ℕ) :
    (s.setList k class_id l).places c =
      if c = class_id then Function.update (s.places c) (.cache k) l else s.places c := by
  funext place
  by_cases hc : c = class_id
  · subst hc
    rw [if_pos rfl]
    cases place with
    | cache k' =>
      by_cases hk : k' = k
      · subst hk
        simp [places, setList]
      · simp [places, setList, hk]
    | _ => simp [places, setList]
  · rw [if_neg hc]
    cases place with
    | cache k' =>
      by_cases hk : k' = k
      · subst hk
        simp [places, setList, hc]
      · simp [places, setList, hk]
    | _ => simp [places, setList]

theorem places_setUser (s : Primary Cache) (class_id c : ℕ) (l : List ℕ) :
    (s.setUser class_id l).places c =
      if c = class_id then Function.update (s.places c) .user l else s.places c := by
  funext place
  by_cases hc : c = class_id
  · subst hc
    rw [if_pos rfl]
    cases place <;> simp [places, setUser]
  · rw [if_neg hc]
    cases place <;> simp [places, setUser, hc]

/-- The chunks of a class are each at one place, no cache has too many of them, and the user has some only if a cache
can. -/
structure Kept (t : Template) (s : Primary Cache) (class_id : ℕ) : Prop where
  spread : Spread (s.places class_id) (s.carved class_id)
  cached : ∀ k, s.free_lists_ k class_id = [] ∨ (s.free_lists_ k class_id).length < 2 * t.map.MaxCached class_id
  owned : s.user class_id ≠ [] → 0 < t.map.MaxCached class_id

omit [DecidableEq Cache] in
theorem kept_init : (Init : Primary Cache).Kept t class_id := by
  refine ⟨?_,fun _ => .inl rfl,fun h => absurd rfl h⟩
  have hempty : (Init : Primary Cache).places class_id = fun _ => [] := by
    funext place
    cases place <;> rfl
  rw [hempty]
  exact .empty

omit [DecidableEq Cache] in
/-- Only what concerns the class counts. -/
theorem Kept.congr (h : s.Kept t c) (hplaces : s'.places c = s.places c) (hcarved : s'.carved c = s.carved c) :
    s'.Kept t c := by
  have hlist : ∀ k, s'.free_lists_ k c = s.free_lists_ k c := fun k => congrFun hplaces (.cache k)
  have huser : s'.user c = s.user c := congrFun hplaces .user
  refine ⟨by rw [hplaces, hcarved]; exact h.spread,fun k => ?_,fun hne => h.owned (huser ▸ hne)⟩
  rw [hlist]
  exact h.cached k

theorem refill_kept (h : s.Laid t) (hk : ∀ c, s.Kept t c) (hclass : class_id < 256)
    (he : s.refill t fuel k class_id = some s') (hempty : s.free_lists_ k class_id = [])
    (hroom : s'.NotExhausted t) :
    (∀ c, s'.Kept t c) ∧ s'.free_lists_ k class_id ≠ [] ∧
      (s'.free_lists_ k class_id).length ≤ t.map.MaxCached class_id := by
  have hlaid' := refill_laid h he
  obtain ⟨region,l,new,-,-,hperm,hne,hcount,hs'⟩ := refill_eq h he
  have hcarved : s'.carved class_id = s.carved class_id ++ new := by
    rw [hs']
    exact Function.update_self ..
  have hlist : s'.free_lists_ k class_id = l := by
    rw [hs']
    simp [setList]
  have hother : ∀ k', k' ≠ k → s'.free_lists_ k' class_id = s.free_lists_ k' class_id := by
    intro k' hk'
    rw [hs']
    simp [setList, setRegion, hk']
  have hplaces : ∀ c, s'.places c = if c = class_id then
      Function.update (Function.update (s.places c) .region region.free_list) (.cache k) l else s.places c := by
    intro c
    have hcarve : s'.places c = ((s.setRegion class_id region).setList k class_id l).places c := by
      rw [hs']
      funext place
      cases place <;> rfl
    rw [hcarve, places_setList, places_setRegion]
    split_ifs <;> rfl
  have hnodup := (apart_of_laid hlaid' hroom hclass).nodup
  rw [hcarved, List.nodup_append] at hnodup
  have hcounted := hcount hempty
  refine ⟨fun c => ?_,hlist ▸ hne,hlist ▸ hcounted⟩
  by_cases hc : c = class_id
  · subst hc
    refine ⟨?_,fun k' => ?_,fun huser => (hk c).owned ?_⟩
    · have hgrown : Spread (Function.update (s.places c) .region (new ++ s.places c .region)) (s.carved c ++ new) :=
        (hk c).spread.grow hnodup.2.1 fun x hx hmem => hnodup.2.2 x hmem x hx rfl
      rw [hplaces, if_pos rfl, hcarved]
      have hmoved := hgrown.exchange (u := region.free_list) (v := l) (i := .region) (j := .cache k) (by simp) (by
        rw [Function.update_self, Function.update_of_ne (by simp)]
        exact hperm)
      rwa [Function.update_idem] at hmoved
    · by_cases hkk : k' = k
      · subst hkk
        rw [hlist]
        have hpos := List.length_pos_iff.mpr hne
        exact .inr (by omega)
      · rw [hother k' hkk]
        exact (hk c).cached k'
    · rwa [hs'] at huser
  · refine (hk c).congr ?_ ?_
    · rw [hplaces, if_neg hc]
    · rw [hs']
      exact Function.update_of_ne hc _ _

theorem take_kept {p : ℕ} (hk : ∀ c, s.Kept t c) (hpos : 0 < t.map.MaxCached class_id)
    (he : s.take k class_id = some (p,s')) : ∀ c, s'.Kept t c := by
  obtain ⟨l,hl,rfl⟩ := take_eq he
  intro c
  have hplaces := places_setUser (s.setList k class_id l) class_id c (p :: s.user class_id)
  rw [places_setList] at hplaces
  by_cases hc : c = class_id
  · subst hc
    rw [if_pos rfl, if_pos rfl] at hplaces
    refine ⟨?_,fun k' => ?_,fun _ => hpos⟩
    · rw [hplaces]
      refine (hk c).spread.exchange (by simp) ?_
      rw [places, places, hl]
      exact List.perm_middle
    · by_cases hkk : k' = k
      · subst hkk
        have hcached := ((hk c).cached k').resolve_left (by simp [hl])
        rw [hl, List.length_cons] at hcached
        refine .inr ?_
        simp only [setUser, setList, Function.update_self]
        omega
      · have hsame : ((s.setList k c l).setUser c (p :: s.user c)).free_lists_ k' c = s.free_lists_ k' c := by
          simp [setUser, setList, hkk]
        rw [hsame]
        exact (hk c).cached k'
  · rw [if_neg hc, if_neg hc] at hplaces
    exact (hk c).congr hplaces rfl

/-- What a chunk that is given back changes; the list of the cache may become too long. -/
theorem give_places {p : ℕ} (c : ℕ) : (s.give k class_id p).places c = if c = class_id then
    Function.update (Function.update (s.places c) .user ((s.user c).erase p)) (.cache k) (p :: s.free_lists_ k c)
    else s.places c := by
  rw [give, places_setList, places_setUser]
  by_cases hc : c = class_id
  · subst hc
    simp only [if_pos]
  · simp only [if_neg hc]

theorem give_spread {p : ℕ} (hk : ∀ c, s.Kept t c) (hp : p ∈ s.user class_id) (c : ℕ) :
    Spread ((s.give k class_id p).places c) (s.carved c) := by
  rw [give_places]
  by_cases hc : c = class_id
  · subst hc
    rw [if_pos rfl]
    refine (hk c).spread.exchange (by simp) ?_
    exact List.perm_middle.trans ((List.perm_cons_erase hp).symm.append_right _)
  · rw [if_neg hc]
    exact (hk c).spread

theorem Deallocate_kept {p : ℕ} (hk : ∀ c, s.Kept t c) (hp : p ∈ s.user class_id)
    (he : s.Deallocate t k class_id p = some s') :
    (∀ c, s'.Kept t c) ∧ (s'.free_lists_ k class_id).length < 2 * t.map.MaxCached class_id := by
  have hpos : 0 < t.map.MaxCached class_id := (hk class_id).owned (List.ne_nil_of_mem hp)
  have hother : ∀ k' c, ¬ (k' = k ∧ c = class_id) →
      (s.give k class_id p).free_lists_ k' c = s.free_lists_ k' c := by
    intro k' c hne
    by_cases hkk : k' = k
    · have hc : c ≠ class_id := fun hc => hne ⟨hkk,hc⟩
      simp [give, setList, setUser, hkk, hc]
    · simp [give, setList, setUser, hkk]
  have hlist : (s.give k class_id p).free_lists_ k class_id = p :: s.free_lists_ k class_id := by
    simp [give, setList]
  have howned : ∀ c, (s.give k class_id p).user c ≠ [] → 0 < t.map.MaxCached c := by
    intro c hne
    by_cases hc : c = class_id
    · rwa [hc]
    · refine (hk c).owned ?_
      simpa [give, setUser, setList, hc] using hne
  obtain ⟨-,⟨hshort,rfl⟩ | ⟨hlong,hdrain⟩⟩ := Deallocate_eq he
  · refine ⟨fun c => ⟨give_spread hk hp c,fun k' => ?_,howned c⟩,hshort⟩
    by_cases hkc : k' = k ∧ c = class_id
    · obtain ⟨rfl,rfl⟩ := hkc
      exact .inr hshort
    · rw [hother k' c hkc]
      exact (hk c).cached k'
  · obtain ⟨front,rest,hsplit,hhalf,rfl⟩ := DrainHalf_eq hdrain
    rw [hlist] at hhalf hlong hsplit
    have hlength := congrArg List.length hsplit
    rw [List.length_append, hhalf] at hlength
    -- the list had less than its limit before, so half of it is the limit at most
    have hrest : rest.length < 2 * t.map.MaxCached class_id := by
      rw [List.length_cons] at hlength
      rcases (hk class_id).cached k with hnil | hcached
      · rw [hnil, List.length_nil] at hlength
        omega
      · omega
    have hfree : ∀ k' c, (((s.give k class_id p).setList k class_id rest).setRegion class_id
        (BulkDeallocate ((s.give k class_id p).regions class_id) front.reverse)).free_lists_ k' c =
          if k' = k ∧ c = class_id then rest else s.free_lists_ k' c := by
      intro k' c
      by_cases hkc : k' = k ∧ c = class_id
      · obtain ⟨rfl,rfl⟩ := hkc
        simp [setRegion, setList]
      · rw [if_neg hkc, ← hother k' c hkc]
        by_cases hkk : k' = k
        · have hc : c ≠ class_id := fun hc => hkc ⟨hkk,hc⟩
          simp [setRegion, setList, hkk, hc]
        · simp [setRegion, setList, hkk]
    refine ⟨fun c => ⟨?_,fun k' => ?_,howned c⟩,?_⟩
    · have hspread := give_spread (k := k) hk hp c
      rw [places_setRegion, places_setList]
      by_cases hc : c = class_id
      · subst hc
        rw [if_pos rfl, if_pos rfl]
        refine hspread.exchange (by simp) ?_
        rw [places, places, hlist, hsplit, BulkDeallocate]
        dsimp only
        rw [← List.append_assoc]
        exact ((List.perm_append_comm).trans ((List.reverse_perm front).append_right rest)).append_right _
      · rw [if_neg hc, if_neg hc]
        exact hspread
    · rw [hfree]
      by_cases hkc : k' = k ∧ c = class_id
      · rw [if_pos hkc, hkc.2]
        exact .inr hrest
      · rw [if_neg hkc]
        exact (hk c).cached k'
    · rw [hfree, if_pos ⟨rfl,rfl⟩]
      exact hrest

theorem drainClass_kept (hk : ∀ c, s.Kept t c) (class_id : ℕ) : ∀ c, (drainClass k s class_id).Kept t c := by
  intro c
  have hplaces := places_setList (s.setRegion class_id
    (BulkDeallocate (s.regions class_id) (s.free_lists_ k class_id))) k class_id c []
  rw [places_setRegion] at hplaces
  by_cases hc : c = class_id
  · subst hc
    rw [if_pos rfl, if_pos rfl] at hplaces
    refine ⟨?_,fun k' => ?_,(hk c).owned⟩
    · rw [drainClass, hplaces]
      refine (hk c).spread.exchange (by simp) ?_
      rw [List.append_nil]
      exact List.perm_append_comm
    · by_cases hkk : k' = k
      · subst hkk
        left
        simp [drainClass, setList]
      · have hsame : (drainClass k s c).free_lists_ k' c = s.free_lists_ k' c := by
          simp [drainClass, setList, setRegion, hkk]
        rw [hsame]
        exact (hk c).cached k'
  · rw [if_neg hc, if_neg hc] at hplaces
    exact (hk c).congr hplaces rfl

theorem drain_kept (hk : ∀ c, s.Kept t c) (l : List ℕ) : ∀ c, (l.foldl (drainClass k) s).Kept t c := by
  induction l generalizing s with
  | nil => exact hk
  | cons class_id l ih => exact ih (drainClass_kept hk class_id)

/-! ## Runs -/

/-- What holds after every step while there is room. -/
structure Inv (t : Template) (s : Primary Cache) : Prop where
  laid : s.Laid t
  kept : ∀ c, s.Kept t c
  room : s.NotExhausted t

omit [DecidableEq Cache] in
theorem init_inv : (Init : Primary Cache).Inv t := by
  refine ⟨laid_init,fun c => kept_init,fun c => ?_⟩
  have hlarge := (Template.kSpaceSize_eq t).2
  have hnone : (Init : Primary Cache).carved c = [] := rfl
  rw [hnone, List.length_nil, Nat.zero_mul]
  omega

theorem Allocate_kept {p : ℕ} (h : s.Inv t) (he : s.Allocate t fuel k class_id = some (p,s')) (hroom : s'.NotExhausted t) :
    ∀ c, s'.Kept t c := by
  obtain ⟨hclass,⟨hne,htake⟩ | ⟨hempty,s₁,hrefill,htake⟩⟩ := Allocate_eq he
  · have hcached := ((h.kept class_id).cached k).resolve_left hne
    exact take_kept h.kept (by omega) htake
  · have hroom₁ : s₁.NotExhausted t := by
      intro c
      have hroom' := hroom c
      rwa [(sameLayout_take htake).carved] at hroom'
    obtain ⟨hk,hne,hle⟩ := refill_kept h.laid h.kept hclass hrefill hempty hroom₁
    have hpos := List.length_pos_iff.mpr hne
    exact take_kept hk (by omega) htake

theorem step_inv {op : Op Cache} (h : s.Inv t) (he : s.step t fuel op = some s') (hroom : s'.NotExhausted t) :
    s'.Inv t := by
  refine ⟨step_laid h.laid he,?_,hroom⟩
  cases op with
  | Allocate k class_id =>
    obtain ⟨⟨p,s₁⟩,hs₁,rfl⟩ := Option.map_eq_some_iff.mp he
    exact Allocate_kept h hs₁ hroom
  | Deallocate k class_id p =>
    rw [step] at he
    split_ifs at he with hp
    exact (Deallocate_kept h.kept hp he).1
  | Drain k =>
    cases he
    exact drain_kept h.kept _

/-- Chunks are at one place each, and where they should be. -/
def Conserved (t : Template) (s : Primary Cache) : Prop :=
  ∀ class_id < kNumClasses, Spread (s.places class_id) (s.carved class_id) ∧ s.Apart t class_id

/-- A chunk that was given back leaves the list of the cache short. -/
def LeavesShort (t : Template) (fuel : ℕ) (s : Primary Cache) (op : Op Cache) : Prop :=
  ∀ k class_id p, op = .Deallocate k class_id p → ∀ s', s.step t fuel op = some s' →
    (s'.free_lists_ k class_id).length < 2 * t.map.MaxCached class_id

theorem leavesShort (h : s.Inv t) (op : Op Cache) : s.LeavesShort t fuel op := by
  rintro k class_id p rfl s' he
  rw [step] at he
  split_ifs at he with hp
  exact (Deallocate_kept h.kept hp he).2

/-- While no region is exhausted, no chunk is lost or at two places. -/
theorem chunk_conservation {ops : List (Op Cache)}
    (hroom : Transition.AllStates (step t fuel) (NotExhausted t) Init ops) :
    Transition.AllStates (step t fuel) (Conserved t) Init ops ∧
      Transition.AllSteps (step t fuel) (LeavesShort t fuel) Init ops := by
  -- each step of the run leads to a state with room
  have hsteps : Transition.AllSteps (step t fuel) (fun s op => ∀ s', step t fuel s op = some s' → s'.NotExhausted t)
      Init ops := by
    refine Transition.allSteps_of_allStates (I := Inv t) (R := fun _ _ => True) (fun s op s' _ _ he hs' => ?_)
      (fun s op s' h _ hq he => step_inv h he (hq s' he)) init_inv (.of_forall fun _ _ => trivial) hroom
    intro s₁ h₁
    cases he.symm.trans h₁
    exact hs'
  have hinv : ∀ (s : Primary Cache) op s', Inv t s → (∀ s', step t fuel s op = some s' → s'.NotExhausted t) →
      step t fuel s op = some s' → Inv t s' := fun s op s' h hq he => step_inv h he (hq s' he)
  refine ⟨Transition.allStates_of_inv hinv (fun s h class_id hclass => ?_) init_inv hsteps,?_⟩
  · exact ⟨(h.kept class_id).spread,apart_of_laid h.laid h.room hclass⟩
  · have hinvs := Transition.allStates_of_inv hinv (fun s h => h) init_inv hsteps
    exact Transition.allSteps_of_allStates (I := Inv t) (R := fun s op => ∀ s', step t fuel s op = some s' → s'.NotExhausted t)
      (fun s op s' h _ _ _ => leavesShort h op) (fun s op s' h hq _ he => step_inv h he (hq s' he)) init_inv hsteps hinvs

/-- A chunk goes from one cache to the user and from there to another cache. -/
theorem chunk_conservation_passed :
    let ops : List (Op Bool) := [.Allocate true 0,.Deallocate false 0 (2^44)]
    Transition.AllStates (step (plainTemplate 1) 1) (Conserved (plainTemplate 1)) Init ops ∧
      Transition.AllSteps (step (plainTemplate 1) 1) (LeavesShort (plainTemplate 1) 1) Init ops := by
  have hsize : ∀ c, (plainTemplate 1).map.Size c + (plainTemplate 1).kMetadataSize = 2^18 + 16 := fun _ => rfl
  have hregion : (plainTemplate 1).kRegionSize = 2^32 := rfl
  have hcarves : (Init : Primary Bool).carves (plainTemplate 1) 1 0 = [2^44] := by decide
  refine chunk_conservation ⟨init_inv.room,fun s₁ h₁ => ?_⟩
  have hcarved₁ : s₁.carved = Function.update (fun _ => []) 0 [2^44] := by
    rw [step, Option.map_eq_some_iff] at h₁
    obtain ⟨⟨p,s⟩,hs,rfl⟩ := h₁
    obtain ⟨-,⟨hne,-⟩ | ⟨-,s₂,hrefill,htake⟩⟩ := Allocate_eq hs
    · exact absurd rfl hne
    · obtain ⟨r,-,rfl⟩ := Option.map_eq_some_iff.mp hrefill
      rw [(sameLayout_take htake).carved]
      dsimp only
      rw [hcarves]
      rfl
  have hroom : ∀ s : Primary Bool, s.carved = Function.update (fun _ => []) 0 [2^44] →
      s.NotExhausted (plainTemplate 1) := by
    intro s hs c
    rw [hs, hsize, hregion]
    by_cases hc : c = 0
    · rw [hc, Function.update_self]
      decide
    · rw [Function.update_of_ne hc]
      decide
  refine ⟨hroom s₁ hcarved₁,fun s₂ h₂ => hroom s₂ ?_⟩
  rw [step] at h₂
  split_ifs at h₂ with hp
  exact (sameLayout_Deallocate h₂).carved.trans hcarved₁

end Primary
end CompilerRt.Sanitizer
