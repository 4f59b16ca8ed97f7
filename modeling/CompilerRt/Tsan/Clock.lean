import Mathlib

/-! # Thread clocks and sync clocks

`lib/tsan/rtl/tsan_clock.h` and `tsan_clock.cc`. A sync clock is a vector that grows on demand, a thread
clock an array with the number of entries in use; each loop of the source touches every entry once.
-/
namespace CompilerRt.Tsan

/-- The clock that lives in sync variables. -/
structure SyncClock where
  clk_ : List ℕ

namespace SyncClock

def empty : SyncClock := ⟨[]⟩

def size (s : SyncClock) : ℕ := s.clk_.length

def Reset (_ : SyncClock) : SyncClock := empty

/-- An entry; beyond the vector there is nothing but zeros. -/
def get (s : SyncClock) (i : ℕ) : ℕ := s.clk_.getD i 0

/-- `Vector::Resize`, which never shrinks. -/
def Resize (s : SyncClock) (n : ℕ) : SyncClock := ⟨s.clk_ ++ List.replicate (n - s.size) 0⟩

@[simp] theorem get_empty : empty.get = 0 := by
  funext i
  simp [get, empty]

@[simp] theorem get_Reset (s : SyncClock) : s.Reset.get = 0 := get_empty

theorem get_eq_zero {s : SyncClock} {i : ℕ} (h : s.size ≤ i) : s.get i = 0 := by
  rw [get, List.getD_eq_getElem?_getD, List.getElem?_eq_none h]
  rfl

@[simp] theorem get_Resize (s : SyncClock) (n : ℕ) : (s.Resize n).get = s.get := by
  funext i
  rcases Nat.lt_or_ge i s.size with h | h
  · simp [get, Resize, List.getElem?_append_left h]
  · rw [get_eq_zero h]
    simp only [get, Resize, List.getD_eq_getElem?_getD, List.getElem?_append_right h, List.getElem?_replicate]
    split_ifs <;> rfl

@[simp] theorem size_Resize (s : SyncClock) (n : ℕ) : (s.Resize n).size = max s.size n := by
  simp only [Resize, size, List.length_append, List.length_replicate]
  omega

end SyncClock

/-- The clock that lives in threads. Entries that are not in use are zero. -/
structure ThreadClock where
  nclk_ : ℕ
  clk_ : ℕ → ℕ
  clk_eq_zero : ∀ i, nclk_ ≤ i → clk_ i = 0

namespace ThreadClock
variable (c : ThreadClock)

def empty : ThreadClock where
  nclk_ := 0
  clk_ _ := 0
  clk_eq_zero _ _ := rfl

def get (tid : ℕ) : ℕ := c.clk_ tid

def set (tid v : ℕ) : ThreadClock where
  nclk_ := if c.nclk_ ≤ tid then tid + 1 else c.nclk_
  clk_ := Function.update c.clk_ tid v
  clk_eq_zero i h := by
    have hne : i ≠ tid := by
      split_ifs at h <;> omega
    rw [Function.update_of_ne hne]
    refine c.clk_eq_zero i ?_
    split_ifs at h <;> omega

def tick (tid : ℕ) : ThreadClock := c.set tid (c.clk_ tid + 1)

def acquire (src : SyncClock) : ThreadClock where
  nclk_ := if src.size = 0 then c.nclk_ else max c.nclk_ src.size
  clk_ i := if i < src.size then (if c.clk_ i < src.get i then src.get i else c.clk_ i) else c.clk_ i
  clk_eq_zero i h := by
    split_ifs at h ⊢ <;> first | omega | exact c.clk_eq_zero i (by omega)

/-- The vector of `dst` after both release operations have resized it. -/
def grown (dst : SyncClock) : SyncClock := if dst.size < c.nclk_ then dst.Resize c.nclk_ else dst

def release (dst : SyncClock) : SyncClock :=
  ⟨(c.grown dst).clk_.mapIdx fun i x => if i < c.nclk_ ∧ x < c.clk_ i then c.clk_ i else x⟩

def ReleaseStore (dst : SyncClock) : SyncClock :=
  ⟨(c.grown dst).clk_.mapIdx fun i _ => if i < c.nclk_ then c.clk_ i else 0⟩

def acq_rel (dst : SyncClock) : ThreadClock × SyncClock := (c.acquire dst, (c.acquire dst).release dst)

/-! ## Entry by entry -/

@[simp] theorem clk_empty : empty.clk_ = 0 := rfl

@[simp] theorem clk_set (tid v : ℕ) : (c.set tid v).clk_ = Function.update c.clk_ tid v := rfl

@[simp] theorem clk_acquire (src : SyncClock) : (c.acquire src).clk_ = c.clk_ ⊔ src.get := by
  funext i
  simp only [acquire, Pi.sup_apply]
  rcases Nat.lt_or_ge i src.size with h | h
  · rw [if_pos h]
    split_ifs <;> omega
  · rw [if_neg (Nat.not_lt.mpr h), SyncClock.get_eq_zero h]
    omega

theorem get_mapIdx (s : SyncClock) (f : ℕ → ℕ → ℕ) (i : ℕ) :
    SyncClock.get ⟨s.clk_.mapIdx f⟩ i = if i < s.size then f i (s.get i) else 0 := by
  simp only [SyncClock.get, List.getD_eq_getElem?_getD, List.getElem?_mapIdx]
  rcases Nat.lt_or_ge i s.size with h | h
  · rw [if_pos h, List.getElem?_eq_getElem h]
    rfl
  · rw [if_neg (Nat.not_lt.mpr h), List.getElem?_eq_none h]
    rfl

@[simp] theorem get_grown (dst : SyncClock) : (c.grown dst).get = dst.get := by
  unfold grown
  split_ifs <;> simp

theorem le_size_grown (dst : SyncClock) : c.nclk_ ≤ (c.grown dst).size := by
  unfold grown
  split_ifs
  · rw [SyncClock.size_Resize]
    exact le_max_right _ _
  · omega

@[simp] theorem get_release (dst : SyncClock) : (c.release dst).get = dst.get ⊔ c.clk_ := by
  have hle := c.le_size_grown dst
  funext i
  simp only [release, get_mapIdx, get_grown, Pi.sup_apply]
  rcases Nat.lt_or_ge i c.nclk_ with h | h
  · rw [if_pos (h.trans_le hle)]
    split_ifs <;> omega
  · have hno : ¬ (i < c.nclk_ ∧ dst.get i < 0) := by omega
    rw [c.clk_eq_zero i h, if_neg hno, Nat.max_zero]
    split_ifs with hs
    · rfl
    · rw [← c.get_grown dst, SyncClock.get_eq_zero (Nat.not_lt.mp hs)]

@[simp] theorem get_ReleaseStore (dst : SyncClock) : (c.ReleaseStore dst).get = c.clk_ := by
  have hle := c.le_size_grown dst
  funext i
  simp only [ReleaseStore, get_mapIdx]
  rcases Nat.lt_or_ge i c.nclk_ with h | h
  · rw [if_pos (h.trans_le hle), if_pos h]
  · rw [c.clk_eq_zero i h, if_neg (Nat.not_lt.mpr h)]
    split_ifs <;> rfl

end ThreadClock
end CompilerRt.Tsan
