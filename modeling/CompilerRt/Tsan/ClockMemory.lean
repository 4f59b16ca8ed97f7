import CompilerRt.Lib.Transition
import CompilerRt.Tsan.Clock
import CompilerRt.Tsan.Vector
import CompilerRt.Tsan.Thread
import Mathlib.Order.Lattice

/-! # The clocks as they are stored

`lib/tsan/rtl/tsan_clock.cc` over the array of a thread clock and the growing vector of a sync clock, with the
loops of the source. They are the clocks of `CompilerRt.Tsan.Clock`, and these are total functions from thread
ids to epochs.
-/
namespace CompilerRt.Tsan.Memory
open ArrayLoop

abbrev u64 := BitVec 64

/-- There is room for the bit of freed words. -/
def kMaxTidInClock : ℕ := kMaxTid * 2

structure SyncClock where
  clk_ : Vector u64

structure ThreadClock where
  nclk_ : ℕ
  clk_ : List u64

namespace SyncClock

def empty : SyncClock := ⟨Vector.empty⟩

def size (s : SyncClock) : ℕ := s.clk_.Size

def Reset (s : SyncClock) : SyncClock := ⟨s.clk_.Reset⟩

end SyncClock

namespace ThreadClock
variable (c : ThreadClock) (junk : ℕ → u64)

def empty : ThreadClock := ⟨0,List.replicate kMaxTidInClock 0⟩

def get (tid : ℕ) : Option u64 := if tid < kMaxTidInClock then c.clk_[tid]? else none

/-- The check that the entry does not decrease is left out: nothing depends on it. -/
def set (tid : ℕ) (v : u64) : Option ThreadClock := do
  if tid < kMaxTid then
    let clk ← store c.clk_ tid v
    some ⟨if c.nclk_ ≤ tid then tid + 1 else c.nclk_,clk⟩
  else none

def tick (tid : ℕ) : Option ThreadClock := do
  if tid < kMaxTid then
    let x ← c.clk_[tid]?
    let clk ← store c.clk_ tid (x + 1)
    some ⟨if c.nclk_ ≤ tid then tid + 1 else c.nclk_,clk⟩
  else none

/-- The `DCHECK`s at the head of every operation. -/
def checked (s : SyncClock) : Prop := c.nclk_ ≤ kMaxTid ∧ s.size ≤ kMaxTid

instance (s : SyncClock) : Decidable (c.checked s) := inferInstanceAs (Decidable (_ ∧ _))

/-- The body of the loop in `acquire`. -/
def acquireEntry (src : SyncClock) (i : ℕ) (clk : List u64) : Option (List u64) := do
  let x ← clk[i]?
  let y ← src.clk_.load i
  if x < y then store clk i y else some clk

def acquire (src : SyncClock) : Option ThreadClock :=
  if ¬ c.checked src then none
  else
    let nclk := src.size
    if nclk = 0 then some c
    else do
      let clk ← forLoop (acquireEntry src) 0 nclk c.clk_
      some ⟨max c.nclk_ nclk,clk⟩

/-- `if (dst->clk_.Size() < nclk_) dst->clk_.Resize(nclk_)`. -/
def grow (dst : SyncClock) : Option (Vector u64) :=
  if dst.size < c.nclk_ then dst.clk_.Resize junk c.nclk_ else some dst.clk_

/-- The body of the loop in `release`. -/
def releaseEntry (i : ℕ) (clk : Vector u64) : Option (Vector u64) := do
  let x ← clk.load i
  let y ← c.clk_[i]?
  if x < y then clk.store i y else some clk

def release (dst : SyncClock) : Option SyncClock :=
  if ¬ c.checked dst then none
  else do
    let clk ← c.grow junk dst
    let clk ← forLoop c.releaseEntry 0 c.nclk_ clk
    some ⟨clk⟩

/-- The body of the first loop in `ReleaseStore`. -/
def copyEntry (i : ℕ) (clk : Vector u64) : Option (Vector u64) := do
  let y ← c.clk_[i]?
  clk.store i y

/-- The body of its second loop. -/
def clearEntry (i : ℕ) (clk : Vector u64) : Option (Vector u64) := clk.store i 0

def ReleaseStore (dst : SyncClock) : Option SyncClock :=
  if ¬ c.checked dst then none
  else do
    let clk ← c.grow junk dst
    let clk ← forLoop c.copyEntry 0 c.nclk_ clk
    let clk ← forLoop clearEntry c.nclk_ (clk.Size - c.nclk_) clk
    some ⟨clk⟩

def acq_rel (dst : SyncClock) : Option (ThreadClock × SyncClock) := do
  let c ← c.acquire dst
  let dst ← c.release junk dst
  some (c,dst)

end ThreadClock

/-! ## What is stored -/

/-- The vector is sound and has an entry for no thread that cannot exist. -/
structure SyncClock.Valid (s : SyncClock) : Prop where
  valid : s.clk_.Valid
  size_le : s.size ≤ kMaxTid

structure ThreadClock.Valid (c : ThreadClock) : Prop where
  nclk_le : c.nclk_ ≤ kMaxTid
  length_clk : c.clk_.length = kMaxTidInClock
  zero : ∀ i, c.nclk_ ≤ i → c.clk_.getD i 0 = 0

def SyncClock.entries (s : SyncClock) (i : ℕ) : ℕ := (s.clk_.toList.getD i 0).toNat

def ThreadClock.entries (c : ThreadClock) (i : ℕ) : ℕ := (c.clk_.getD i 0).toNat

/-- The clock that a stored vector is. -/
def SyncClock.toClock (s : SyncClock) : Tsan.SyncClock := ⟨s.clk_.toList.map BitVec.toNat⟩

def ThreadClock.Valid.toClock {c : ThreadClock} (h : c.Valid) : Tsan.ThreadClock where
  nclk_ := c.nclk_
  clk_ := c.entries
  clk_eq_zero i hi := by
    rw [ThreadClock.entries, h.zero i hi]
    rfl

@[simp] theorem SyncClock.get_toClock (s : SyncClock) : s.toClock.get = s.entries := by
  funext i
  simp only [Tsan.SyncClock.get, toClock, entries, List.getD_eq_getElem?_getD, List.getElem?_map]
  cases s.clk_.toList[i]? <;> rfl

@[simp] theorem ThreadClock.Valid.clk_toClock {c : ThreadClock} (h : c.Valid) : h.toClock.clk_ = c.entries := rfl

theorem SyncClock.Valid.size_toClock {s : SyncClock} (h : s.Valid) : s.toClock.size = s.size := by
  rw [Tsan.SyncClock.size, toClock, List.length_map, h.valid.length_toList]
  rfl

theorem kMaxTid_le : kMaxTid ≤ kMaxTidInClock := by decide

theorem getD_replaced (f : ℕ → u64 → u64) (lo n : ℕ) {a : List u64} {i : ℕ} (h : i < a.length) :
    (replaced f lo n a).getD i 0 = if lo ≤ i ∧ i < lo + n then f i (a.getD i 0) else a.getD i 0 := by
  simp only [List.getD_eq_getElem?_getD, getElem?_replaced, List.getElem?_eq_getElem h, Option.map_some,
    Option.getD_some]

theorem toNat_later (x y : u64) :
    (if x < y then y else x).toNat = if x.toNat < y.toNat then y.toNat else x.toNat := by
  simp only [BitVec.lt_def]
  split_ifs <;> rfl

theorem SyncClock.valid_empty : SyncClock.empty.Valid := ⟨Vector.valid_empty,Nat.zero_le _⟩

@[simp] theorem SyncClock.entries_empty : SyncClock.empty.entries = 0 := rfl

theorem SyncClock.Valid.load {s : SyncClock} (h : s.Valid) {i : ℕ} (hi : i < s.size) :
    s.clk_.load i = some (s.clk_.toList.getD i 0) := by
  rw [Vector.load_eq_toList, List.getD_eq_getElem?_getD,
    List.getElem?_eq_getElem (hi.trans_eq h.valid.length_toList.symm), Option.getD_some]

/-- `get` reads the entry, also one past the last thread id. -/
theorem ThreadClock.Valid.get {c : ThreadClock} (h : c.Valid) {tid : ℕ} (ht : tid < kMaxTidInClock) :
    (c.get tid).map BitVec.toNat = some (c.entries tid) := by
  rw [ThreadClock.get, if_pos ht, List.getElem?_eq_getElem (ht.trans_eq h.length_clk.symm), ThreadClock.entries,
    List.getD_eq_getElem?_getD, List.getElem?_eq_getElem (ht.trans_eq h.length_clk.symm)]
  rfl

theorem clock_ext {a b : Tsan.ThreadClock} (hn : a.nclk_ = b.nclk_) (hc : a.clk_ = b.clk_) : a = b := by
  cases a
  cases b
  cases hn
  cases hc
  rfl

namespace ThreadClock
variable {c : ThreadClock} {s : SyncClock} (junk : ℕ → u64)

theorem getD_empty (i : ℕ) : empty.clk_.getD i 0 = 0 := by
  simp only [empty, List.getD_eq_getElem?_getD, List.getElem?_replicate]
  split_ifs <;> rfl

@[simp] theorem entries_empty : empty.entries = 0 := by
  funext i
  rw [entries, getD_empty]
  rfl

theorem valid_empty : empty.Valid where
  nclk_le := Nat.zero_le _
  length_clk := List.length_replicate
  zero i _ := getD_empty i

theorem Valid.checked (h : c.Valid) (hs : s.Valid) : c.checked s := ⟨h.nclk_le,hs.size_le⟩

theorem Valid.length_le (h : c.Valid) : c.nclk_ ≤ c.clk_.length :=
  h.nclk_le.trans (kMaxTid_le.trans_eq h.length_clk.symm)

theorem Valid.getElem? (h : c.Valid) {i : ℕ} (hi : i < c.nclk_) : c.clk_[i]? = some (c.clk_.getD i 0) := by
  rw [List.getD_eq_getElem?_getD, List.getElem?_eq_getElem (hi.trans_le h.length_le), Option.getD_some]

/-! ## One entry -/

/-- `acquire` takes the entry of the sync clock where it is later. -/
theorem acquireEntry_eq (hs : s.Valid) {i : ℕ} {clk : List u64} (hi : i < clk.length) (hn : i < s.size) :
    acquireEntry s i clk = some (clk.set i
      (if clk[i] < s.clk_.toList.getD i 0 then s.clk_.toList.getD i 0 else clk[i])) := by
  rw [acquireEntry, List.getElem?_eq_getElem hi, hs.load hn, Option.bind_eq_bind, Option.bind_some,
    Option.bind_some]
  split_ifs
  · exact store_eq hi _
  · rw [List.set_getElem_self]

theorem releaseEntry_eq (h : c.Valid) {i : ℕ} {clk : Vector u64} (hclk : clk.Valid) {x : u64}
    (hx : clk.load i = some x) (hn : i < c.nclk_) (hi : i < clk.Size) :
    c.releaseEntry i clk = clk.store i (if x < c.clk_.getD i 0 then c.clk_.getD i 0 else x) := by
  rw [releaseEntry, hx, h.getElem? hn, Option.bind_eq_bind, Option.bind_some, Option.bind_some]
  split_ifs
  · rfl
  · rw [hclk.store_eq hi, hclk.set_load hi hx]

theorem copyEntry_eq (h : c.Valid) {i : ℕ} (clk : Vector u64) (hn : i < c.nclk_) :
    c.copyEntry i clk = clk.store i (c.clk_.getD i 0) := by
  rw [copyEntry, h.getElem? hn, Option.bind_eq_bind, Option.bind_some]

/-! ## The operations -/

/-- The entry becomes `v`, all others stay. -/
theorem Valid.set (h : c.Valid) {tid : ℕ} (ht : tid < kMaxTid) (v : u64) : ∃ c' : ThreadClock,
    c.set tid v = some c' ∧ c'.Valid ∧ c'.entries = Function.update c.entries tid v.toNat := by
  have hlt : tid < c.clk_.length := by
    rw [h.length_clk]
    exact ht.trans_le kMaxTid_le
  have hget (i : ℕ) : (c.clk_.set tid v).getD i 0 = if i = tid then v else c.clk_.getD i 0 := by
    simp only [List.getD_eq_getElem?_getD]
    split_ifs with hi
    · rw [hi, List.getElem?_set_self hlt, Option.getD_some]
    · rw [List.getElem?_set_ne (Ne.symm hi)]
  refine ⟨⟨if c.nclk_ ≤ tid then tid + 1 else c.nclk_,c.clk_.set tid v⟩,?_,⟨?_,?_,?_⟩,?_⟩
  · rw [ThreadClock.set, if_pos ht, store_eq hlt]
    rfl
  · have := h.nclk_le
    simp only
    split_ifs <;> omega
  · rw [List.length_set, h.length_clk]
  · intro i hi
    have hne : i ≠ tid := by
      simp only at hi
      split_ifs at hi <;> omega
    rw [hget, if_neg hne]
    refine h.zero i ?_
    simp only at hi
    split_ifs at hi <;> omega
  · funext i
    simp only [entries, hget, Function.update_apply]
    split_ifs <;> rfl

theorem Valid.tick (h : c.Valid) {tid : ℕ} (ht : tid < kMaxTid) : ∃ c' : ThreadClock,
    c.tick tid = some c' ∧ c'.Valid ∧
      c'.entries = Function.update c.entries tid ((c.entries tid + 1) % 2^64) := by
  obtain ⟨c',hc,hv,he⟩ := h.set ht (c.clk_.getD tid 0 + 1)
  have hlt : tid < c.clk_.length := by
    rw [h.length_clk]
    exact ht.trans_le kMaxTid_le
  refine ⟨c',?_,hv,?_⟩
  · rw [ThreadClock.set, if_pos ht] at hc
    rw [ThreadClock.tick, if_pos ht, List.getElem?_eq_getElem hlt, Option.bind_eq_bind, Option.bind_some, ← hc,
      List.getD_eq_getElem?_getD, List.getElem?_eq_getElem hlt, Option.getD_some]
  · rw [he, BitVec.toNat_add]
    rfl

/-- `acquire` is the operation on clocks. -/
theorem Valid.acquire (h : c.Valid) (hs : s.Valid) : ∃ (c' : ThreadClock) (h' : c'.Valid),
    c.acquire s = some c' ∧ h'.toClock = h.toClock.acquire s.toClock := by
  unfold ThreadClock.acquire
  rw [if_neg (not_not_intro (h.checked hs))]
  by_cases h0 : s.size = 0
  · refine ⟨c,h,if_pos h0,?_⟩
    simp only [Valid.toClock, Tsan.ThreadClock.acquire, hs.size_toClock, h0, if_true, Nat.not_lt_zero, if_false]
  · have hrange : 0 + s.size ≤ c.clk_.length := by
      have := hs.size_le
      have := h.length_clk
      have := kMaxTid_le
      omega
    have hloop := @forLoop_replaced _ (acquireEntry s)
      (fun i x => if x < s.clk_.toList.getD i 0 then s.clk_.toList.getD i 0 else x) s.size 0 c.clk_
      (fun i b hi _ hn _ => acquireEntry_eq hs hi (by omega)) hrange
    refine ⟨⟨max c.nclk_ s.size,_⟩,⟨max_le h.nclk_le hs.size_le,?_,?_⟩,
      (if_neg h0).trans (by rw [hloop, Option.bind_eq_bind, Option.bind_some]),?_⟩
    · rw [length_replaced, h.length_clk]
    · intro i hi
      rcases Nat.lt_or_ge i c.clk_.length with hlt | hge
      · have hout : ¬ (0 ≤ i ∧ i < 0 + s.size) := by
          have := (le_max_right c.nclk_ s.size).trans hi
          omega
        rw [getD_replaced _ 0 s.size hlt, if_neg hout]
        exact h.zero i ((le_max_left _ _).trans hi)
      · rw [List.getD_eq_getElem?_getD, List.getElem?_eq_none (by rwa [length_replaced])]
        rfl
    · refine clock_ext ?_ ?_
      · simp only [Valid.toClock, Tsan.ThreadClock.acquire, hs.size_toClock, if_neg h0]
      · funext i
        simp only [Valid.toClock, Tsan.ThreadClock.acquire, hs.size_toClock, SyncClock.get_toClock, entries]
        rcases Nat.lt_or_ge i c.clk_.length with hlt | hge
        · rw [getD_replaced _ 0 s.size hlt]
          simp only [Nat.zero_le, Nat.zero_add, true_and, SyncClock.entries]
          by_cases hi : i < s.size
          · rw [if_pos hi, if_pos hi]
            exact toNat_later _ _
          · rw [if_neg hi, if_neg hi]
        · rw [if_neg (by omega), List.getD_eq_getElem?_getD, List.getD_eq_getElem?_getD,
            List.getElem?_eq_none hge, List.getElem?_eq_none (by rwa [length_replaced])]

/-- The vector that both release operations work on. -/
theorem Valid.grow (h : c.Valid) (hs : s.Valid) : ∃ w, c.grow junk s = some w ∧ w.Valid ∧
    w.Size = max s.size c.nclk_ ∧ w.toList.map BitVec.toNat = (h.toClock.grown s.toClock).clk_ := by
  unfold ThreadClock.grow Tsan.ThreadClock.grown
  rw [hs.size_toClock]
  by_cases hlt : s.size < c.nclk_
  · obtain ⟨w,hw,hv,hsize,hlist⟩ := hs.valid.Resize junk c.nclk_
    refine ⟨w,(if_pos hlt).trans hw,hv,hsize,?_⟩
    rw [hlist, List.map_append, List.map_replicate, if_pos (show s.size < h.toClock.nclk_ from hlt)]
    simp only [Tsan.SyncClock.Resize, hs.size_toClock]
    rfl
  · refine ⟨s.clk_,if_neg hlt,hs.valid,(max_eq_left (Nat.not_lt.mp hlt)).symm,?_⟩
    rw [if_neg (show ¬ s.size < h.toClock.nclk_ from hlt)]
    rfl

theorem toNat_mapIdx {f : ℕ → u64 → u64} {g : ℕ → ℕ → ℕ} (a : List u64)
    (h : ∀ i x, (f i x).toNat = g i x.toNat) :
    (a.mapIdx f).map BitVec.toNat = (a.map BitVec.toNat).mapIdx g := by
  apply List.ext_getElem?
  intro i
  simp only [List.getElem?_map, List.getElem?_mapIdx, Option.map_map]
  cases a[i]? with
  | none => rfl
  | some x => exact congrArg some (h i x)

/-- `release` is the operation on clocks. -/
theorem Valid.release (h : c.Valid) (hs : s.Valid) : ∃ s' : SyncClock, c.release junk s = some s' ∧ s'.Valid ∧
    s'.toClock = h.toClock.release s.toClock := by
  obtain ⟨w,hw,hv,hsize,hlist⟩ := h.grow junk hs
  obtain ⟨w',hloop,hv',hsize',hlist'⟩ := @Vector.Valid.forLoop_replaced _ w c.releaseEntry
    (fun i x => if x < c.clk_.getD i 0 then c.clk_.getD i 0 else x) c.nclk_ 0 hv
    (fun i w' x hw' hs' _ hn hx => releaseEntry_eq h hw' hx (by omega) (by omega)) (by omega)
  refine ⟨⟨w'⟩,?_,⟨hv',?_⟩,?_⟩
  · rw [ThreadClock.release, if_neg (not_not_intro (h.checked hs)), hw, Option.bind_eq_bind, Option.bind_some,
      hloop, Option.bind_some]
  · rw [SyncClock.size, hsize', hsize]
    exact max_le hs.size_le h.nclk_le
  · rw [SyncClock.toClock, hlist', replaced, toNat_mapIdx (g := fun i x => if i < c.nclk_ ∧ x < c.entries i then
      c.entries i else x), hlist]
    · rfl
    · intro i x
      by_cases hi : i < c.nclk_
      · have hin : 0 ≤ i ∧ i < 0 + c.nclk_ := by omega
        rw [if_pos hin, toNat_later]
        simp only [hi, true_and]
        rfl
      · have hout : ¬ (0 ≤ i ∧ i < 0 + c.nclk_) := by omega
        rw [if_neg hout, if_neg fun h => hi h.1]

/-- `ReleaseStore` is the operation on clocks. -/
theorem Valid.ReleaseStore (h : c.Valid) (hs : s.Valid) : ∃ s' : SyncClock, c.ReleaseStore junk s = some s' ∧
    s'.Valid ∧ s'.toClock = h.toClock.ReleaseStore s.toClock := by
  obtain ⟨w,hw,hv,hsize,hlist⟩ := h.grow junk hs
  obtain ⟨w₁,hcopy,hv₁,hsize₁,hlist₁⟩ := @Vector.Valid.forLoop_replaced _ w c.copyEntry
    (fun i _ => c.clk_.getD i 0) c.nclk_ 0 hv (fun i w' x _ _ _ hn _ => copyEntry_eq h w' (by omega)) (by omega)
  obtain ⟨w₂,hclear,hv₂,hsize₂,hlist₂⟩ := @Vector.Valid.forLoop_replaced _ w₁ clearEntry
    (fun _ _ => 0) (w₁.Size - c.nclk_) c.nclk_ hv₁ (fun _ _ _ _ _ _ _ _ => rfl) (by omega)
  refine ⟨⟨w₂⟩,?_,⟨hv₂,?_⟩,?_⟩
  · rw [ThreadClock.ReleaseStore, if_neg (not_not_intro (h.checked hs)), hw, Option.bind_eq_bind,
      Option.bind_some, hcopy, Option.bind_some, hclear, Option.bind_some]
  · rw [SyncClock.size, hsize₂, hsize₁, hsize]
    exact max_le hs.size_le h.nclk_le
  · have hmap : w₂.toList = w.toList.mapIdx fun i _ => if i < c.nclk_ then c.clk_.getD i 0 else 0 := by
      apply List.ext_getElem?
      intro i
      rw [hlist₂, hlist₁, getElem?_replaced, getElem?_replaced, List.getElem?_mapIdx]
      rcases Nat.lt_or_ge i w.Size with hi | hi
      · have hi' : i < c.nclk_ + (w₁.Size - c.nclk_) := by omega
        rw [List.getElem?_eq_getElem (hi.trans_eq hv.length_toList.symm)]
        simp only [Option.map_some, Nat.zero_le, Nat.zero_add, true_and, hi', and_true]
        split_ifs <;> first | rfl | omega
      · rw [List.getElem?_eq_none (hv.length_toList.trans_le hi)]
        rfl
    rw [SyncClock.toClock, hmap, toNat_mapIdx (g := fun i _ => if i < c.nclk_ then c.entries i else 0), hlist]
    · rfl
    · intro i x
      split_ifs <;> rfl

end ThreadClock

namespace ThreadClock
variable {c : ThreadClock} {s : SyncClock} (junk : ℕ → u64)

theorem Valid.acquire_entries (h : c.Valid) (hs : s.Valid) : ∃ c' : ThreadClock, c'.Valid ∧ c.acquire s = some c' ∧
    c'.entries = c.entries ⊔ s.entries := by
  obtain ⟨c',hc',hrun,he⟩ := h.acquire hs
  refine ⟨c',hc',hrun,?_⟩
  rw [← hc'.clk_toClock, he, Tsan.ThreadClock.clk_acquire, SyncClock.get_toClock, h.clk_toClock]

theorem Valid.release_entries (h : c.Valid) (hs : s.Valid) : ∃ s' : SyncClock, s'.Valid ∧
    c.release junk s = some s' ∧ s'.entries = s.entries ⊔ c.entries := by
  obtain ⟨s',hrun,hs',he⟩ := h.release junk hs
  refine ⟨s',hs',hrun,?_⟩
  rw [← SyncClock.get_toClock, he, Tsan.ThreadClock.get_release, SyncClock.get_toClock, h.clk_toClock]

theorem Valid.ReleaseStore_entries (h : c.Valid) (hs : s.Valid) : ∃ s' : SyncClock, s'.Valid ∧
    c.ReleaseStore junk s = some s' ∧ s'.entries = c.entries := by
  obtain ⟨s',hrun,hs',he⟩ := h.ReleaseStore junk hs
  refine ⟨s',hs',hrun,?_⟩
  rw [← SyncClock.get_toClock, he, Tsan.ThreadClock.get_ReleaseStore, h.clk_toClock]

end ThreadClock

/-! ## Runs -/

/-- The operations on the clocks of a program; those that may allocate say what the new memory holds. -/
inductive Op where
  | set (t : ℕ) (tid : Fin kMaxTid) (v : u64)
  | tick (t : ℕ) (tid : Fin kMaxTid)
  | acquire (t k : ℕ)
  | release (t k : ℕ) (junk : ℕ → u64)
  | ReleaseStore (t k : ℕ) (junk : ℕ → u64)
  | acq_rel (t k : ℕ) (junk : ℕ → u64)
  | Reset (k : ℕ)

structure State where
  thread : ℕ → ThreadClock
  sync : ℕ → SyncClock

/-- Total functions from thread ids to epochs. -/
structure View where
  thread : ℕ → ℕ → ℕ
  sync : ℕ → ℕ → ℕ

open Function

def State.init : State := ⟨fun _ => .empty,fun _ => .empty⟩

def State.step (s : State) : Op → Option State
  | .set t tid v => do
    let c ← (s.thread t).set tid v
    some ⟨update s.thread t c,s.sync⟩
  | .tick t tid => do
    let c ← (s.thread t).tick tid
    some ⟨update s.thread t c,s.sync⟩
  | .acquire t k => do
    let c ← (s.thread t).acquire (s.sync k)
    some ⟨update s.thread t c,s.sync⟩
  | .release t k junk => do
    let d ← (s.thread t).release junk (s.sync k)
    some ⟨s.thread,update s.sync k d⟩
  | .ReleaseStore t k junk => do
    let d ← (s.thread t).ReleaseStore junk (s.sync k)
    some ⟨s.thread,update s.sync k d⟩
  | .acq_rel t k junk => do
    let (c,d) ← (s.thread t).acq_rel junk (s.sync k)
    some ⟨update s.thread t c,update s.sync k d⟩
  | .Reset k => some ⟨s.thread,update s.sync k (s.sync k).Reset⟩

def State.view (s : State) : View := ⟨fun t => (s.thread t).entries,fun k => (s.sync k).entries⟩

/-- What the operations are for, in terms of total functions. -/
def View.apply (V : View) : Op → View
  | .set t tid v => ⟨update V.thread t (update (V.thread t) tid v.toNat),V.sync⟩
  | .tick t tid => ⟨update V.thread t (update (V.thread t) tid ((V.thread t tid + 1) % 2^64)),V.sync⟩
  | .acquire t k => ⟨update V.thread t (V.thread t ⊔ V.sync k),V.sync⟩
  | .release t k _ => ⟨V.thread,update V.sync k (V.sync k ⊔ V.thread t)⟩
  | .ReleaseStore t k _ => ⟨V.thread,update V.sync k (V.thread t)⟩
  | .acq_rel t k _ => ⟨update V.thread t (V.thread t ⊔ V.sync k),update V.sync k (V.thread t ⊔ V.sync k)⟩
  | .Reset k => ⟨V.thread,update V.sync k 0⟩

structure State.Valid (s : State) : Prop where
  thread : ∀ t, (s.thread t).Valid
  sync : ∀ k, (s.sync k).Valid

theorem State.valid_init : State.init.Valid := ⟨fun _ => ThreadClock.valid_empty,fun _ => SyncClock.valid_empty⟩

theorem State.view_init : State.init.view = ⟨0,0⟩ := by
  simp only [view, init, ThreadClock.entries_empty, SyncClock.entries_empty]
  rfl

namespace State
variable {s : State}

theorem Valid.update_thread (h : s.Valid) {c : ThreadClock} (hc : c.Valid) (t : ℕ) :
    Valid ⟨update s.thread t c,s.sync⟩ :=
  ⟨(forall_update_iff s.thread fun _ => ThreadClock.Valid).mpr ⟨hc,fun u _ => h.thread u⟩,h.sync⟩

theorem Valid.update_sync (h : s.Valid) {d : SyncClock} (hd : d.Valid) (k : ℕ) :
    Valid ⟨s.thread,update s.sync k d⟩ :=
  ⟨h.thread,(forall_update_iff s.sync fun _ => SyncClock.Valid).mpr ⟨hd,fun j _ => h.sync j⟩⟩

theorem view_update_thread (s : State) (t : ℕ) (c : ThreadClock) :
    view ⟨update s.thread t c,s.sync⟩ = ⟨update s.view.thread t c.entries,s.view.sync⟩ :=
  congrArg (View.mk · _) (comp_update ThreadClock.entries s.thread t c)

theorem view_update_sync (s : State) (k : ℕ) (d : SyncClock) :
    view ⟨s.thread,update s.sync k d⟩ = ⟨s.view.thread,update s.view.sync k d.entries⟩ :=
  congrArg (View.mk _) (comp_update SyncClock.entries s.sync k d)

/-- Every operation has a result, which is the one of the total functions. -/
theorem Valid.step (h : s.Valid) (op : Op) : ∃ s', s.step op = some s' ∧ s'.Valid ∧ s'.view = s.view.apply op := by
  cases op with
  | set t tid v =>
    obtain ⟨c,hc,hv,he⟩ := (h.thread t).set tid.isLt v
    refine ⟨_,?_,h.update_thread hv t,?_⟩
    · rw [State.step, hc]
      rfl
    · rw [view_update_thread, he]
      rfl
  | tick t tid =>
    obtain ⟨c,hc,hv,he⟩ := (h.thread t).tick tid.isLt
    refine ⟨_,?_,h.update_thread hv t,?_⟩
    · rw [State.step, hc]
      rfl
    · rw [view_update_thread, he]
      rfl
  | acquire t k =>
    obtain ⟨c,hv,hc,he⟩ := (h.thread t).acquire_entries (h.sync k)
    refine ⟨_,?_,h.update_thread hv t,?_⟩
    · rw [State.step, hc]
      rfl
    · rw [view_update_thread, he]
      rfl
  | release t k junk =>
    obtain ⟨d,hv,hd,he⟩ := (h.thread t).release_entries junk (h.sync k)
    refine ⟨_,?_,h.update_sync hv k,?_⟩
    · rw [State.step, hd]
      rfl
    · rw [view_update_sync, he]
      rfl
  | ReleaseStore t k junk =>
    obtain ⟨d,hv,hd,he⟩ := (h.thread t).ReleaseStore_entries junk (h.sync k)
    refine ⟨_,?_,h.update_sync hv k,?_⟩
    · rw [State.step, hd]
      rfl
    · rw [view_update_sync, he]
      rfl
  | acq_rel t k junk =>
    obtain ⟨c,hc,hrun,hce⟩ := (h.thread t).acquire_entries (h.sync k)
    obtain ⟨d,hd,hrun',hde⟩ := hc.release_entries junk (h.sync k)
    have hboth : (s.thread t).acq_rel junk (s.sync k) = some (c,d) := by
      rw [ThreadClock.acq_rel, hrun, Option.bind_eq_bind, Option.bind_some, hrun']
      rfl
    refine ⟨⟨update s.thread t c,update s.sync k d⟩,?_,(h.update_thread hc t).update_sync hd k,?_⟩
    · rw [State.step, hboth]
      rfl
    · rw [view_update_sync ⟨update s.thread t c,s.sync⟩, view_update_thread, hde, hce, View.apply]
      have hsup : (s.sync k).entries ⊔ ((s.thread t).entries ⊔ (s.sync k).entries) =
          (s.thread t).entries ⊔ (s.sync k).entries := sup_eq_right.mpr le_sup_right
      rw [hsup]
      rfl
  | Reset k =>
    refine ⟨_,rfl,h.update_sync SyncClock.valid_empty k,?_⟩
    rw [view_update_sync]
    rfl

/-- The run of the operations ends in sound clocks, which are those of the total functions. -/
theorem Valid.run (h : s.Valid) (ops : List Op) : ∃ s', Transition.run State.step s ops = some s' ∧ s'.Valid ∧
    s'.view = ops.foldl View.apply s.view := by
  induction ops generalizing s with
  | nil => exact ⟨s,rfl,h,rfl⟩
  | cons op ops ih =>
    obtain ⟨s₁,hstep,hv,hview⟩ := h.step op
    obtain ⟨s',hrun,hv',hview'⟩ := ih hv
    refine ⟨s',?_,hv',?_⟩
    · rw [Transition.run_cons, hstep, Option.bind_some, hrun]
    · rw [hview', hview, List.foldl_cons]

/-- After every run the stored clocks are the total functions that the operations define, each further operation
does to them what it does to the functions, the entries that a thread clock does not use are zero, and a vector
that grows keeps its entries and has zeros after them. -/
theorem clocks_sparse (ops : List Op) : ∃ s, Transition.run State.step init ops = some s ∧
    s.view = ops.foldl View.apply ⟨0,0⟩ ∧
    (∀ op, ∃ s', s.step op = some s' ∧ s'.view = s.view.apply op) ∧
    (∀ t i, (s.thread t).nclk_ ≤ i → (s.thread t).entries i = 0) ∧
    ∀ k junk n, ∃ w, (s.sync k).clk_.Resize junk n = some w ∧
      w.toList = (s.sync k).clk_.toList ++ List.replicate (n - (s.sync k).size) 0 := by
  obtain ⟨s,hrun,hv,hview⟩ := valid_init.run ops
  rw [view_init] at hview
  refine ⟨s,hrun,hview,fun op => ?_,fun t i hi => ?_,fun k junk n => ?_⟩
  · obtain ⟨s',hstep,_,he⟩ := hv.step op
    exact ⟨s',hstep,he⟩
  · rw [ThreadClock.entries, (hv.thread t).zero i hi]
    rfl
  · obtain ⟨w,hw,_,_,hlist⟩ := (hv.sync k).valid.Resize junk n
    exact ⟨w,hw,hlist⟩

end State
end CompilerRt.Tsan.Memory
