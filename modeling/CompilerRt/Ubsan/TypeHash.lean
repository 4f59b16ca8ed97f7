import CompilerRt.Lib.Transition
import Mathlib

/-! # The cache of dynamic type checks

`lib/ubsan/ubsan_type_hash.cc`. A check that succeeds leaves its hash in a table, and later calls with that
hash succeed at once. The table is found by a short probe sequence; a zero stands for an empty bucket.
-/
namespace CompilerRt.Ubsan

/-- The type of a class with its address; base classes of the general case come with their offset flags. -/
inductive ClassTypeInfo where
  | class_type (addr : ℕ)
  | si_class_type (addr : ℕ) (base_type : ClassTypeInfo)
  | vmi_class_type (addr : ℕ) (base_info : List (ℤ × ClassTypeInfo))

mutual

/-- Whether the class has a `Base` subobject at the offset; a virtual base counts as one. -/
def isDerivedFromAtOffset (Base : ℕ) : ClassTypeInfo → ℤ → Bool
  | .class_type addr, Offset => addr = Base ∧ Offset = 0
  | .si_class_type addr base_type, Offset =>
    if addr = Base then Offset = 0 else isDerivedFromAtOffset Base base_type Offset
  | .vmi_class_type addr base_info, Offset =>
    if addr = Base then Offset = 0 else anyBaseAtOffset Base base_info Offset

def anyBaseAtOffset (Base : ℕ) : List (ℤ × ClassTypeInfo) → ℤ → Bool
  | [], _ => false
  | (offset_flags,base_type) :: rest, Offset =>
    if offset_flags % 2 = 1 then true
    else if isDerivedFromAtOffset Base base_type (Offset - offset_flags / 2^8) then true
    else anyBaseAtOffset Base rest Offset

end

/-- What stands before a vtable; the type is missing when it is not that of a class. -/
structure VtablePrefix where
  Offset : ℤ
  TypeInfo : Option ClassTypeInfo

/-- The uncached check of an object, which has no vtable when its pointer to it is null. -/
def fullCheck (Vtable : Option VtablePrefix) (type : ℕ) : Bool := match Vtable with
  | none => false
  | some Vtable =>
    if Vtable.Offset > 0 then false
    else match Vtable.TypeInfo with
      | none => false
      | some Derived => isDerivedFromAtOffset type Derived (-Vtable.Offset)

/-! ## The cache -/

def HashTableSize : ℕ := 65537
def VptrTypeCacheSize : ℕ := 128

/-- The words from the beginning of the hash table on, of which the first `HashTableSize` are the table, and the
first level of the cache. -/
structure Cache where
  vptr_hash_set : ℕ → ℕ
  vptr_type_cache : ℕ → ℕ

section Bucket
variable (hash_set : ℕ → ℕ) (V : ℕ)

/-- The loop over `Tries` buckets from `Probe` on. -/
def probe : ℕ → ℕ → Option ℕ
  | 0, _ => none
  | Tries + 1, Probe =>
    if hash_set Probe = 0 ∨ hash_set Probe = V then some Probe
    else
      let Probe := Probe + (V / 2^16 % 2^16 + 1)
      probe Tries (if Probe ≥ HashTableSize then Probe - HashTableSize else Probe)

/-- When no bucket is free or that of the hash, the hash itself is the index of the bucket. -/
def getTypeCacheHashTableBucket : ℕ := (probe hash_set V 5 (V % 2^16)).getD V

/-- The buckets that the loop looks at. -/
def probed : ℕ → ℕ → List ℕ
  | 0, _ => []
  | Tries + 1, Probe =>
    Probe :: if hash_set Probe = 0 ∨ hash_set Probe = V then []
    else
      let Probe := Probe + (V / 2^16 % 2^16 + 1)
      probed Tries (if Probe ≥ HashTableSize then Probe - HashTableSize else Probe)

/-- The `i`-th bucket of the probe sequence. -/
def bucketAt (i : ℕ) : ℕ := (V % 2^16 + i * (V / 2^16 % 2^16 + 1)) % HashTableSize

end Bucket

def checkDynamicType (c : Cache) (Object : Option VtablePrefix) (type Hash : ℕ) : Cache × Bool :=
  let Bucket := getTypeCacheHashTableBucket c.vptr_hash_set Hash
  let vptr_type_cache := Function.update c.vptr_type_cache (Hash % VptrTypeCacheSize) Hash
  if c.vptr_hash_set Bucket = Hash then ({ c with vptr_type_cache := vptr_type_cache },true)
  else if fullCheck Object type then
    ({ vptr_type_cache := vptr_type_cache, vptr_hash_set := Function.update c.vptr_hash_set Bucket Hash },true)
  else (c,false)

/-! ## Sequences of checks -/

/-- A check, or somebody else writing to a word that is not in the table. -/
inductive Op where
  | checkDynamicType (Object : Option VtablePrefix) (type Hash : ℕ)
  | store (i v : ℕ)

/-- The cache, and the hashes for which the uncached check was made and succeeded. -/
structure Monitor where
  cache : Cache
  checked : List ℕ

def Monitor.step (M : Monitor) : Op → Option Monitor
  | .checkDynamicType Object type Hash =>
    let Bucket := getTypeCacheHashTableBucket M.cache.vptr_hash_set Hash
    let checked := if M.cache.vptr_hash_set Bucket ≠ Hash ∧ fullCheck Object type = true then Hash :: M.checked
      else M.checked
    some ⟨(Ubsan.checkDynamicType M.cache Object type Hash).1,checked⟩
  | .store i v =>
    if i < HashTableSize then none
    else some { M with cache := { M.cache with vptr_hash_set := Function.update M.cache.vptr_hash_set i v } }

/-- A call that returns true has made the check with success, or an earlier call with its hash has. -/
def Sound (M : Monitor) : Op → Prop
  | .checkDynamicType Object type Hash =>
    (Ubsan.checkDynamicType M.cache Object type Hash).2 = true →
      ∃ M', M.step (.checkDynamicType Object type Hash) = some M' ∧ Hash ∈ M'.checked
  | .store _ _ => True

/-- A hash that was not checked is not taken for one that was: the hash zero for an empty bucket, or a hash beyond
the table for what stands at that distance from it. -/
def NotMistaken (M : Monitor) : Op → Prop
  | .checkDynamicType _ _ Hash =>
    let found := probe M.cache.vptr_hash_set Hash 5 (Hash % 2^16)
    Hash ∉ M.checked →
      ¬ (Hash = 0 ∧ found.isSome = true) ∧
      ¬ (HashTableSize ≤ Hash ∧ found = none ∧ M.cache.vptr_hash_set Hash = Hash)
  | .store _ _ => True

/-- A call reads and writes no word of the hash set but those of the table. -/
def InTable (M : Monitor) : Op → Prop
  | .checkDynamicType _ _ Hash =>
    (∀ i ∈ probed M.cache.vptr_hash_set Hash 5 (Hash % 2^16), i < HashTableSize) ∧
      getTypeCacheHashTableBucket M.cache.vptr_hash_set Hash < HashTableSize
  | .store _ _ => True

/-- The hash is small, or one of its five buckets is free or its own. -/
def HasBucket (M : Monitor) : Op → Prop
  | .checkDynamicType _ _ Hash =>
    Hash < HashTableSize ∨
      ∃ i < 5, M.cache.vptr_hash_set (bucketAt Hash i) = 0 ∨ M.cache.vptr_hash_set (bucketAt Hash i) = Hash
  | .store _ _ => True

/-- The table begins with a one and is zero after it. -/
structure Monitor.Initial (M : Monitor) : Prop where
  hash_set : ∀ i < HashTableSize, M.cache.vptr_hash_set i = if i = 0 then 1 else 0
  type_cache : ∀ i, M.cache.vptr_type_cache i = if i = 0 then 1 else 0
  checked : M.checked = []

/-- What is in the table was checked, but for the one at its beginning. -/
def Monitor.Inv (M : Monitor) : Prop :=
  ∀ i < HashTableSize, M.cache.vptr_hash_set i ≠ 0 →
    M.cache.vptr_hash_set i ∈ M.checked ∨ i = 0 ∧ M.cache.vptr_hash_set i = 1

section Probe
variable {hash_set : ℕ → ℕ} {V : ℕ}

theorem probe_lt {Tries Probe i : ℕ} (hp : Probe < HashTableSize) (h : probe hash_set V Tries Probe = some i) :
    i < HashTableSize := by
  induction Tries generalizing Probe with
  | zero => cases h
  | succ Tries ih =>
    unfold probe at h
    by_cases hb : hash_set Probe = 0 ∨ hash_set Probe = V
    · rw [if_pos hb] at h
      cases h
      exact hp
    · rw [if_neg hb] at h
      refine ih ?_ h
      have hmod := Nat.mod_lt (V / 2^16) (show 0 < 2^16 by decide)
      unfold HashTableSize at hp ⊢
      split_ifs <;> omega

theorem probe_spec {Tries Probe i : ℕ} (h : probe hash_set V Tries Probe = some i) :
    hash_set i = 0 ∨ hash_set i = V := by
  induction Tries generalizing Probe with
  | zero => cases h
  | succ Tries ih =>
    unfold probe at h
    by_cases hb : hash_set Probe = 0 ∨ hash_set Probe = V
    · rw [if_pos hb] at h
      cases h
      exact hb
    · rw [if_neg hb] at h
      exact ih h

theorem probe_none (h : probe hash_set V 5 (V % 2^16) = none) : hash_set (V % 2^16) ≠ 0 ∧ hash_set (V % 2^16) ≠ V := by
  unfold probe at h
  by_cases hb : hash_set (V % 2^16) = 0 ∨ hash_set (V % 2^16) = V
  · rw [if_pos hb] at h
    cases h
  · exact not_or.mp hb

theorem probed_lt {Tries Probe : ℕ} (hp : Probe < HashTableSize) :
    ∀ i ∈ probed hash_set V Tries Probe, i < HashTableSize := by
  induction Tries generalizing Probe with
  | zero => simp [probed]
  | succ Tries ih =>
    intro i hi
    unfold probed at hi
    rcases List.mem_cons.mp hi with rfl | hi
    · exact hp
    by_cases hb : hash_set Probe = 0 ∨ hash_set Probe = V
    · rw [if_pos hb] at hi
      cases hi
    · rw [if_neg hb] at hi
      refine ih ?_ i hi
      have hmod := Nat.mod_lt (V / 2^16) (show 0 < 2^16 by decide)
      unfold HashTableSize at hp ⊢
      split_ifs <;> omega

theorem bucketAt_lt (V i : ℕ) : bucketAt V i < HashTableSize := Nat.mod_lt _ (by decide)

theorem bucketAt_zero (V : ℕ) : bucketAt V 0 = V % 2^16 := by
  have hmod := Nat.mod_lt V (show 0 < 2^16 by decide)
  rw [bucketAt, Nat.zero_mul, Nat.add_zero, Nat.mod_eq_of_lt (by unfold HashTableSize; omega)]

/-- The wrap of the loop is that of the table's length. -/
theorem bucketAt_succ (V i : ℕ) : bucketAt V (i + 1) =
    if bucketAt V i + (V / 2^16 % 2^16 + 1) ≥ HashTableSize then
      bucketAt V i + (V / 2^16 % 2^16 + 1) - HashTableSize
    else bucketAt V i + (V / 2^16 % 2^16 + 1) := by
  have hlt := bucketAt_lt V i
  have hmod := Nat.mod_lt (V / 2^16) (show 0 < 2^16 by decide)
  have hsum : bucketAt V (i + 1) = (bucketAt V i + (V / 2^16 % 2^16 + 1)) % HashTableSize := by
    unfold bucketAt
    rw [Nat.mod_add_mod, Nat.succ_mul, Nat.add_assoc]
  rw [hsum]
  unfold HashTableSize at *
  split_ifs with hge
  · rw [Nat.mod_eq_sub_mod hge, Nat.mod_eq_of_lt (by omega)]
  · exact Nat.mod_eq_of_lt (by omega)

/-- The loop leaves the sequence without a bucket where none is free or that of the hash. -/
theorem probe_eq_none_iff {Tries i : ℕ} : probe hash_set V Tries (bucketAt V i) = none ↔
    ∀ j < Tries, ¬(hash_set (bucketAt V (i + j)) = 0 ∨ hash_set (bucketAt V (i + j)) = V) := by
  induction Tries generalizing i with
  | zero => simp [probe]
  | succ Tries ih =>
    unfold probe
    by_cases hb : hash_set (bucketAt V i) = 0 ∨ hash_set (bucketAt V i) = V
    · rw [if_pos hb]
      exact iff_of_false nofun fun h => h 0 (Nat.succ_pos _) hb
    · rw [if_neg hb]
      dsimp only
      rw [← bucketAt_succ, ih]
      constructor
      · intro h j hj
        cases j with
        | zero => exact hb
        | succ j =>
          rw [← Nat.add_assoc, Nat.add_right_comm]
          exact h j (Nat.lt_of_succ_lt_succ hj)
      · intro h j hj
        rw [Nat.add_right_comm, Nat.add_assoc]
        exact h (j + 1) (Nat.succ_lt_succ hj)

/-- The hash one is not looked for where the table has a one from the start. -/
theorem probe_one {i : ℕ} (h : probe hash_set 1 5 (1 % 2^16) = some i) : i ≠ 0 := by
  simp [probe, HashTableSize] at h
  split_ifs at h <;> cases h <;> decide

end Probe

section Step
variable {M M' : Monitor} {op : Op}

theorem Monitor.Initial.inv (h : M.Initial) : M.Inv := by
  intro i hi hne
  rw [h.hash_set i hi] at hne ⊢
  split_ifs at hne ⊢ with h0
  · exact Or.inr ⟨h0,rfl⟩
  · exact absurd rfl hne

theorem Monitor.Inv.step (h : M.Inv) (he : M.step op = some M') : M'.Inv := by
  intro i hi hne
  cases op with
  | checkDynamicType Object type Hash =>
    cases he
    unfold Ubsan.checkDynamicType at hne ⊢
    dsimp only at hne ⊢
    by_cases hhit : M.cache.vptr_hash_set (getTypeCacheHashTableBucket M.cache.vptr_hash_set Hash) = Hash
    · rw [if_pos hhit] at hne ⊢
      rw [if_neg (fun hc => hc.1 hhit)]
      exact h i hi hne
    rw [if_neg hhit] at hne ⊢
    by_cases hfull : fullCheck Object type = true
    · rw [if_pos hfull] at hne ⊢
      rw [if_pos ⟨hhit,hfull⟩]
      dsimp only at hne ⊢
      rcases eq_or_ne i (getTypeCacheHashTableBucket M.cache.vptr_hash_set Hash) with rfl | hib
      · rw [Function.update_self]
        exact Or.inl List.mem_cons_self
      · rw [Function.update_of_ne hib] at hne ⊢
        exact (h i hi hne).imp_left (List.mem_cons_of_mem Hash)
    · rw [if_neg hfull] at hne ⊢
      rw [if_neg (fun hc => hfull hc.2)]
      exact h i hi hne
  | store j v =>
    rw [Monitor.step] at he
    split_ifs at he with hj
    cases he
    have hij : i ≠ j := by omega
    dsimp only at hne ⊢
    rw [Function.update_of_ne hij] at hne ⊢
    exact h i hi hne

/-- A bucket that holds the hash of the call is that of a hash that was checked, unless it is a mistake. -/
theorem Monitor.Inv.mem_checked (h : M.Inv) {Hash : ℕ}
    (hhit : M.cache.vptr_hash_set (getTypeCacheHashTableBucket M.cache.vptr_hash_set Hash) = Hash)
    (hzero : ¬ (Hash = 0 ∧ (probe M.cache.vptr_hash_set Hash 5 (Hash % 2^16)).isSome = true))
    (hbeyond : ¬ (HashTableSize ≤ Hash ∧ probe M.cache.vptr_hash_set Hash 5 (Hash % 2^16) = none ∧
      M.cache.vptr_hash_set Hash = Hash)) : Hash ∈ M.checked := by
  unfold getTypeCacheHashTableBucket at hhit
  cases hfound : probe M.cache.vptr_hash_set Hash 5 (Hash % 2^16) with
  | some i =>
    rw [hfound, Option.getD_some] at hhit
    have hlt : i < HashTableSize := by
      refine probe_lt ?_ hfound
      have hmod := Nat.mod_lt Hash (show 0 < 2^16 by decide)
      unfold HashTableSize
      omega
    have hne : M.cache.vptr_hash_set i ≠ 0 := fun h0 => hzero ⟨hhit.symm.trans h0,by rw [hfound]; rfl⟩
    rcases h i hlt hne with hmem | ⟨rfl,hone⟩
    · rwa [hhit] at hmem
    · rw [hhit] at hone
      subst hone
      exact absurd rfl (probe_one hfound)
  | none =>
    rw [hfound, Option.getD_none] at hhit
    obtain ⟨h0,hV⟩ := probe_none hfound
    have hlt : Hash < HashTableSize := Nat.not_le.mp fun hle => hbeyond ⟨hle,hfound,hhit⟩
    -- below the last index the hash is the first bucket that was probed
    have hlast : Hash = 2^16 := by
      by_contra hne
      have hmod : Hash % 2^16 = Hash := Nat.mod_eq_of_lt (by unfold HashTableSize at hlt; omega)
      rw [hmod] at hV
      exact hV hhit
    rcases h Hash hlt (by rw [hhit, hlast]; decide) with hmem | ⟨rfl,-⟩
    · rwa [hhit] at hmem
    · cases hlast

theorem sound_iff_notMistaken (h : M.Inv) (op : Op) : Sound M op ↔ NotMistaken M op := by
  cases op with
  | store i v => exact Iff.rfl
  | checkDynamicType Object type Hash =>
    unfold Sound NotMistaken Ubsan.checkDynamicType
    dsimp only
    by_cases hhit : M.cache.vptr_hash_set (getTypeCacheHashTableBucket M.cache.vptr_hash_set Hash) = Hash
    · rw [if_pos hhit]
      constructor
      · intro hs hno
        obtain ⟨M',he,hmem⟩ := hs rfl
        cases he
        rw [if_neg (fun hc => hc.1 hhit)] at hmem
        exact absurd hmem hno
      · intro hn _
        refine ⟨_,rfl,?_⟩
        rw [if_neg (fun hc => hc.1 hhit)]
        by_contra hno
        obtain ⟨hzero,hbeyond⟩ := hn hno
        exact hno (h.mem_checked hhit hzero hbeyond)
    · rw [if_neg hhit]
      refine iff_of_true (fun hres => ⟨_,rfl,?_⟩) fun _ => ⟨?_,?_⟩
      · have hfull : fullCheck Object type = true := by
          by_contra hno
          rw [if_neg hno] at hres
          cases hres
        rw [if_pos ⟨hhit,hfull⟩]
        exact List.mem_cons_self
      · rintro ⟨rfl,hsome⟩
        obtain ⟨i,hfound⟩ := Option.isSome_iff_exists.mp hsome
        refine hhit ?_
        rw [getTypeCacheHashTableBucket, hfound, Option.getD_some]
        exact (probe_spec hfound).elim id id
      · rintro ⟨-,hnone,heq⟩
        refine hhit ?_
        rw [getTypeCacheHashTableBucket, hnone, Option.getD_none]
        exact heq

/-- In a sequence of calls each one that returns true had the check made for its hash, by then, if and only if no
call mistakes its hash for one that was checked. -/
theorem sound_iff (hM : M.Initial) (ops : List Op) :
    Transition.AllSteps Monitor.step Sound M ops ↔ Transition.AllSteps Monitor.step NotMistaken M ops :=
  Transition.allSteps_iff_of_inv (I := Monitor.Inv) (fun _ _ _ h he => h.step he)
    (fun _ op h => sound_iff_notMistaken h op) hM.inv

/-- The state at the start, with zeros after the table. -/
def Monitor.start : Monitor := ⟨⟨fun i => if i = 0 then 1 else 0,fun i => if i = 0 then 1 else 0⟩,[]⟩

theorem Monitor.start_initial : start.Initial := ⟨fun _ _ => rfl,fun _ => rfl,rfl⟩

/-- The hash zero is found in the empty bucket after the first: the first call for it, on no object at all, returns
true. -/
theorem not_sound : Monitor.start.Initial ∧
    ¬ Transition.AllSteps Monitor.step Sound Monitor.start [.checkDynamicType none 0 0] := by
  refine ⟨Monitor.start_initial,fun hall => ?_⟩
  obtain ⟨hs,-⟩ := hall _ rfl
  obtain ⟨M',he,hmem⟩ := hs (by decide)
  cases he
  revert hmem
  decide

theorem sound_iff_start : Transition.AllSteps Monitor.step Sound Monitor.start [.checkDynamicType none 0 0] ↔
    Transition.AllSteps Monitor.step NotMistaken Monitor.start [.checkDynamicType none 0 0] :=
  sound_iff Monitor.start_initial _

/-! ## Where the table is left -/

theorem inTable_iff_hasBucket (M : Monitor) (op : Op) : InTable M op ↔ HasBucket M op := by
  cases op with
  | store i v => exact Iff.rfl
  | checkDynamicType Object type Hash =>
    have hprobe : Hash % 2^16 < HashTableSize := by
      have hmod := Nat.mod_lt Hash (show 0 < 2^16 by decide)
      unfold HashTableSize
      omega
    have hnone := @probe_eq_none_iff M.cache.vptr_hash_set Hash 5 0
    rw [bucketAt_zero] at hnone
    simp only [Nat.zero_add] at hnone
    refine (and_iff_right (probed_lt hprobe)).trans ?_
    unfold getTypeCacheHashTableBucket HasBucket
    cases hfound : probe M.cache.vptr_hash_set Hash 5 (Hash % 2^16) with
    | some i =>
      rw [Option.getD_some]
      refine iff_of_true (probe_lt hprobe hfound) (Or.inr ?_)
      by_contra hno
      push Not at hno
      rw [hnone.mpr fun j hj => not_or.mpr (hno j hj)] at hfound
      cases hfound
    | none =>
      rw [Option.getD_none]
      have hall := hnone.mp hfound
      exact (or_iff_left fun ⟨j,hj,hb⟩ => hall j hj hb).symm

/-- A sequence of calls stays in the table if and only if each finds a bucket, or has a hash that is an index of
the table. -/
theorem inTable_iff (M : Monitor) (ops : List Op) :
    Transition.AllSteps Monitor.step InTable M ops ↔ Transition.AllSteps Monitor.step HasBucket M ops :=
  Transition.allSteps_iff_of_inv (I := fun _ => True) (fun _ _ _ _ _ => trivial)
    (fun M op _ => inTable_iff_hasBucket M op) trivial

/-- A check of an object of the very class that is asked for. -/
def Op.success (Hash : ℕ) : Op := .checkDynamicType (some ⟨0,some (.class_type 1)⟩) 1 Hash

/-- With the buckets 3, 6, 9 and 12 in use, the hash `0x20000` has none, and is itself taken for an index. -/
theorem not_inTable : Monitor.start.Initial ∧
    ¬Transition.AllSteps Monitor.step InTable Monitor.start ([3,6,9,12,0x20000].map Op.success) := by
  refine ⟨Monitor.start_initial,fun hall => ?_⟩
  obtain ⟨-,hall⟩ := hall _ rfl
  obtain ⟨-,hall⟩ := hall _ rfl
  obtain ⟨-,hall⟩ := hall _ rfl
  obtain ⟨-,hall⟩ := hall _ rfl
  obtain ⟨⟨-,hbucket⟩,-⟩ := hall _ rfl
  revert hbucket
  decide

end Step
end CompilerRt.Ubsan
