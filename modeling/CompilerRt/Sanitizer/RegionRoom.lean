import CompilerRt.Sanitizer.BlockLookup
import CompilerRt.Sanitizer.LargeMmap
import Mathlib

/-! # Room in the regions

The loop that carves chunks ends, and the check behind it fails only where the region is full: nothing wraps before.
-/
namespace CompilerRt.Sanitizer

/-- The primary allocator with the default map; the secondary one has room for half a page of metadata. -/
structure DefaultTemplate extends Template where
  default : map = DefaultSizeClassMap
  metadata_le : kMetadataSize ≤ kPageSize / 2

/-- The allocator of the thread sanitizer, with an `MBlock` for each chunk. -/
def tsanTemplate : DefaultTemplate where
  kSpaceBeg := 0x7d0000000000
  kSpaceSize := 0x10000000000
  kMetadataSize := 32
  map := DefaultSizeClassMap
  beg_pos := by decide
  size_pow := ⟨40,by decide,rfl⟩
  aligned := by decide
  classes := by decide
  region := by decide
  metadata_lt := by decide
  size_lt := fun class_id => (DefaultSizeClassMap.Size_le class_id).trans_lt (by decide)
  mapped := by decide
  default := rfl
  metadata_le := by decide

namespace Template
variable {t : Template} {fuel class_id n m : ℕ}

/-- The loop ends where the next chunk would begin at the end or behind it. -/
theorem populate_ends {size end_idx idx i : ℕ} {l : List ℕ} (region_beg : ℕ)
    (hend : end_idx + size < 2^64) (hlt : idx < end_idx) (hfuel : end_idx - idx ≤ fuel * size) :
    ∃ m l', 0 < m ∧ (m - 1) * size < end_idx - idx ∧ end_idx - idx ≤ m * size ∧ l'.length = m + l.length ∧
      populate size region_beg end_idx fuel idx i l = some (idx + m * size,i + m,l') := by
  induction fuel generalizing idx i l with
  | zero =>
    rw [Nat.zero_mul] at hfuel
    omega
  | succ fuel ih =>
    rw [Nat.succ_mul] at hfuel
    rw [populate]
    have hwrap : (idx + size) % 2^64 = idx + size := Nat.mod_eq_of_lt (by omega)
    rw [hwrap]
    by_cases hmore : idx + size < end_idx
    · rw [if_pos hmore]
      obtain ⟨m,l',hm,hlast,hreached,hlength,hloop⟩ := ih (i := i + 1) (l := (region_beg + idx) % 2^64 :: l) hmore (by omega)
      have hstep : (m + 1 - 1) * size = (m - 1) * size + size := by
        rw [← Nat.succ_mul]
        congr 1
        omega
      refine ⟨m + 1,l',Nat.succ_pos m,?_,?_,?_,?_⟩
      · omega
      · rw [Nat.succ_mul]
        omega
      · rw [hlength, List.length_cons]
        omega
      · rw [hloop, Nat.succ_mul]
        congr 2
        · omega
        · congr 1
          omega
    · rw [if_neg hmore]
      refine ⟨1,(region_beg + idx) % 2^64 :: l,Nat.one_pos,by omega,by omega,?_,?_⟩
      · rw [List.length_cons, Nat.add_comm]
      · rw [Nat.one_mul]

end Template

namespace DefaultTemplate
variable {t : DefaultTemplate} {class_id n : ℕ} {region region' : RegionInfo}

/-- The number of chunks that are carved at a time. -/
def passes (t : DefaultTemplate) (class_id : ℕ) : ℕ :=
  (kPopulateSize + t.map.Size class_id - 1) / t.map.Size class_id

theorem Size_bounds (t : DefaultTemplate) (h : class_id < 256) :
    16 ≤ t.map.Size class_id ∧ t.map.Size class_id ≤ 2^21 := by
  rw [t.default]
  exact ⟨DefaultSizeClassMap.sixteen_le_Size h,DefaultSizeClassMap.Size_le class_id⟩

theorem MaxCached_pos (t : DefaultTemplate) (h : class_id < 256) : 0 < t.map.MaxCached class_id := by
  rw [t.default]
  exact DefaultSizeClassMap.MaxCached_pos h

/-- The check of `PopulateFreeList` is exact: the region has room for the chunks, or it would be full. -/
theorem PopulateFreeList_room (hclass : class_id < 256) (h : t.Filled class_id n region)
    (hroom : n * (t.map.Size class_id + t.kMetadataSize) < t.kRegionSize) :
    ∃ r : RegionInfo, r.free_list.length = t.passes class_id ∧ t.PopulateFreeList kPopulateSize class_id region =
      if (n + t.passes class_id) * (t.map.Size class_id + t.kMetadataSize) < t.kRegionSize then some r else none := by
  have hsizes := t.Size_bounds hclass
  obtain ⟨b,-,hb,hregion⟩ := t.kRegionSize_pow
  have hlarge : t.kRegionSize < 2^56 := hregion ▸ Nat.pow_lt_pow_right (by decide) hb
  have hmeta : t.kMetadataSize ≤ 2048 := t.metadata_le
  rw [Nat.mul_add] at hroom
  have huser : region.allocated_user = n * t.map.Size class_id := by
    rw [h.user, Nat.mod_eq_of_lt (by omega)]
  have hmetadata : region.allocated_meta = n * t.kMetadataSize := by
    rw [h.metadata, Nat.mod_eq_of_lt (by omega)]
  have hfuel : region.allocated_user + kPopulateSize - region.allocated_user ≤ kPopulateSize * t.map.Size class_id := by
    rw [Nat.add_sub_cancel_left]
    exact Nat.le_mul_of_pos_right _ (by omega)
  have hpopulate : kPopulateSize = 2^18 := rfl
  have hwrap : region.allocated_user + kPopulateSize + t.map.Size class_id < 2^64 := by omega
  have hbefore : region.allocated_user < region.allocated_user + kPopulateSize := by omega
  obtain ⟨m,l',hm,hlast,hreached,hlength,hloop⟩ :=
    Template.populate_ends (i := 0) (l := []) (t.regionBeg class_id) hwrap hbefore hfuel
  rw [Nat.add_sub_cancel_left] at hlast hreached
  have hpasses : t.passes class_id = m := by
    obtain ⟨m,rfl⟩ := Nat.exists_eq_add_of_lt hm
    rw [Nat.zero_add, Nat.add_sub_cancel] at hlast
    rw [Nat.zero_add, Nat.succ_mul] at hreached
    rw [passes, Nat.zero_add]
    refine Nat.div_eq_of_lt_le ?_ ?_
    · rw [Nat.succ_mul]
      omega
    · rw [Nat.succ_mul, Nat.succ_mul]
      omega
  have hm18 : m ≤ 2^18 := by
    have hle : (m - 1) * 1 ≤ (m - 1) * t.map.Size class_id := Nat.mul_le_mul_left _ (by omega)
    omega
  have hmetas : m * t.kMetadataSize ≤ 2^18 * 2048 := Nat.mul_le_mul hm18 hmeta
  have husers : m * t.map.Size class_id < 2^18 + 2^21 := by
    have hsplit : m * t.map.Size class_id = (m - 1) * t.map.Size class_id + t.map.Size class_id := by
      rw [← Nat.succ_mul]
      congr 1
      omega
    omega
  rw [hpasses]
  refine ⟨⟨l',(n + m) * t.map.Size class_id,(n + m) * t.kMetadataSize⟩,by rw [hlength, List.length_nil, Nat.add_zero],?_⟩
  have hend : (region.allocated_user + kPopulateSize) % 2^64 = region.allocated_user + kPopulateSize :=
    Nat.mod_eq_of_lt (by omega)
  have huser' : (region.allocated_user + (region.allocated_user + m * t.map.Size class_id +
      (2^64 - region.allocated_user))) % 2^64 = (n + m) * t.map.Size class_id := by
    rw [Nat.add_mul, huser]
    omega
  have hmeta' : (region.allocated_meta + (0 + m) * t.kMetadataSize) % 2^64 = (n + m) * t.kMetadataSize := by
    rw [Nat.zero_add, Nat.add_mul, hmetadata]
    omega
  have hsum : ((n + m) * t.map.Size class_id + (n + m) * t.kMetadataSize) % 2^64 =
      (n + m) * (t.map.Size class_id + t.kMetadataSize) := by
    rw [Nat.mul_add, Nat.mod_eq_of_lt]
    rw [Nat.add_mul, Nat.add_mul]
    omega
  rw [Template.PopulateFreeList]
  dsimp only
  rw [hend, hloop, Option.bind_eq_bind, Option.bind_some]
  dsimp only
  rw [huser', hmeta', hsum]
  rfl

end DefaultTemplate

namespace Template
variable {t : Template} {fuel class_id : ℕ} {region : RegionInfo} {free_list : List ℕ}

theorem moveFront_isSome {count : ℕ} {l : List ℕ} (l' : List ℕ) (h : count ≤ l.length) :
    ∃ a b, moveFront count l l' = some (a,b) := by
  induction count generalizing l l' with
  | zero => exact ⟨l,l',rfl⟩
  | succ count ih =>
    cases l with
    | nil => exact absurd h (Nat.not_succ_le_zero count)
    | cons node l => exact ih (node :: l') (Nat.le_of_succ_le_succ h)

/-- Only the check of `PopulateFreeList` can fail. -/
theorem BulkAllocate_none (hcount : 0 < t.map.MaxCached class_id)
    (hlist : ∀ r, t.PopulateFreeList fuel class_id region = some r → r.free_list ≠ [])
    (h : t.BulkAllocate fuel class_id region free_list = none) :
    region.free_list = [] ∧ t.PopulateFreeList fuel class_id region = none := by
  have hnext : ∀ r : RegionInfo, t.populated fuel class_id region = some r → r.free_list = [] := by
    intro r hr
    by_contra hne
    rw [BulkAllocate, hr, Option.bind_some, if_neg (mt List.isEmpty_iff.mp hne)] at h
    dsimp only at h
    by_cases hall : r.free_list.length ≤ t.map.MaxCached class_id
    · rw [if_pos hall, Option.bind_some] at h
      dsimp only at h
      rw [if_neg (by simp [hne])] at h
      cases h
    · rw [if_neg hall] at h
      obtain ⟨a,b,hmove⟩ := moveFront_isSome free_list (not_le.mp hall).le
      obtain ⟨front,hlength,-,hb⟩ := moveFront_eq hmove
      have hb' : ¬ b.isEmpty = true := by
        rw [List.isEmpty_iff, hb]
        intro hnil
        rw [List.append_eq_nil_iff, List.reverse_eq_nil_iff] at hnil
        rw [hnil.1, List.length_nil] at hlength
        omega
      rw [hmove, Option.bind_some] at h
      dsimp only at h
      rw [if_neg hb'] at h
      cases h
  rw [populated] at hnext
  by_cases hempty : region.free_list.isEmpty = true
  · rw [if_pos hempty] at hnext
    refine ⟨List.isEmpty_iff.mp hempty,?_⟩
    cases hp : t.PopulateFreeList fuel class_id region with
    | none => rfl
    | some r => exact absurd (hnext r hp) (hlist r hp)
  · rw [if_neg hempty] at hnext
    exact absurd (List.isEmpty_iff.mpr (hnext region rfl)) hempty

end Template

namespace Primary
variable {Cache : Type*} [DecidableEq Cache] {t : DefaultTemplate} {s s' : Primary Cache} {k : Cache} {class_id : ℕ}

/-- The region has no room for the chunks of another population. -/
def Full (t : DefaultTemplate) (s : Primary Cache) (class_id : ℕ) : Prop :=
  t.kRegionSize ≤ ((s.carved class_id).length + t.passes class_id) * (t.map.Size class_id + t.kMetadataSize)

theorem passes_pos (t : DefaultTemplate) (h : class_id < 256) : 0 < t.passes class_id := by
  have hsizes := t.Size_bounds h
  have hpopulate : kPopulateSize = 2^18 := rfl
  exact Nat.div_pos (by omega) (by omega)

theorem refill_room (hl : s.Laid t.toTemplate) (hroom : s.NotExhausted t.toTemplate) (hclass : class_id < 256)
    (he : s.refill t.toTemplate kPopulateSize k class_id = some s') : s'.NotExhausted t.toTemplate := by
  obtain ⟨⟨region,l⟩,hbulk,rfl⟩ := Option.map_eq_some_iff.mp he
  obtain ⟨r,hr,-⟩ := Template.BulkAllocate_eq hbulk
  intro c
  dsimp only [setList, setRegion]
  by_cases hc : c = class_id
  · subst hc
    rw [Function.update_self, List.length_append, carves]
    by_cases hempty : (s.regions c).free_list.isEmpty = true
    · obtain ⟨r',hlength,hpopulate⟩ := DefaultTemplate.PopulateFreeList_room hclass (hl c).1 (hroom c)
      rw [Template.populated, if_pos hempty, hpopulate] at hr
      rw [if_pos hempty, hpopulate]
      split_ifs at hr ⊢ with hfits
      rwa [Option.map_some, Option.getD_some, List.length_reverse, hlength]
    · rw [if_neg hempty, List.length_nil, Nat.add_zero]
      exact hroom c
  · rw [Function.update_of_ne hc]
    exact hroom c

/-- An allocation ends the process only where the region is full. -/
theorem Allocate_none (hl : s.Laid t.toTemplate) (hroom : s.NotExhausted t.toTemplate) (hclass : class_id < 256)
    (he : s.Allocate t.toTemplate kPopulateSize k class_id = none) : s.Full t class_id := by
  have htake : ∀ s₁ : Primary Cache, s₁.free_lists_ k class_id ≠ [] → s₁.take k class_id ≠ none := by
    intro s₁ hne
    rw [take]
    cases hlist : s₁.free_lists_ k class_id with
    | nil => exact absurd hlist hne
    | cons p l => exact Option.some_ne_none _
  have hnum : class_id < kNumClasses := hclass
  rw [Allocate, if_pos hnum] at he
  by_cases hempty : (s.free_lists_ k class_id).isEmpty = true
  · rw [if_pos hempty] at he
    cases hrefill : s.refill t.toTemplate kPopulateSize k class_id with
    | some s₁ =>
      rw [hrefill, Option.bind_some] at he
      obtain ⟨region,l,new,-,-,-,hne,-,rfl⟩ := refill_eq hl hrefill
      refine absurd he (htake _ ?_)
      simpa [setList] using hne
    | none =>
      obtain ⟨r,hlength,hpopulate⟩ := DefaultTemplate.PopulateFreeList_room hclass (hl class_id).1 (hroom class_id)
      have hpasses := passes_pos t hclass
      rw [refill, Option.map_eq_none_iff] at hrefill
      have hlist : ∀ r', t.PopulateFreeList kPopulateSize class_id (s.regions class_id) = some r' →
          r'.free_list ≠ [] := by
        intro r' hr' hnil
        rw [hpopulate] at hr'
        split_ifs at hr' with hfits
        cases hr'
        rw [hnil, List.length_nil] at hlength
        omega
      obtain ⟨-,hnone⟩ := Template.BulkAllocate_none (t.MaxCached_pos hclass) hlist hrefill
      rw [hpopulate] at hnone
      split_ifs at hnone with hfits
      exact not_lt.mp hfits
  · rw [if_neg hempty] at he
    exact absurd he (htake s (mt List.isEmpty_iff.mpr hempty))

/-- The checks keep the regions from being exhausted. -/
theorem step_inv_default {op : Op Cache} (h : s.Inv t.toTemplate)
    (he : s.step t.toTemplate kPopulateSize op = some s') : s'.Inv t.toTemplate := by
  refine step_inv h he ?_
  have hsame : SameLayout s s' → s'.NotExhausted t.toTemplate := by
    intro hsame c
    rw [hsame.carved]
    exact h.room c
  cases op with
  | Allocate k class_id =>
    obtain ⟨⟨p,s₁⟩,hs₁,rfl⟩ := Option.map_eq_some_iff.mp he
    obtain ⟨hclass,⟨-,htake⟩ | ⟨-,s₂,hrefill,htake⟩⟩ := Allocate_eq hs₁
    · exact hsame (sameLayout_take htake)
    · intro c
      rw [(sameLayout_take htake).carved]
      exact refill_room h.laid h.room hclass hrefill c
  | Deallocate k class_id p =>
    rw [step] at he
    split_ifs at he with hp
    exact hsame (sameLayout_Deallocate he)
  | Drain k =>
    cases he
    exact hsame (sameLayout_drain _ s k)

end Primary
end CompilerRt.Sanitizer
