import Mathlib.Data.List.Count
import Mathlib.Data.List.Basic

/-! # Locks for readers and writers

A lock has one writer or any number of readers, some of which may be the same. What a thread holds of it is
counted.
-/
namespace CompilerRt

structure RwLock (α : Type*) where
  writer : Option α
  readers : List α

namespace RwLock
variable {α : Type*} [DecidableEq α]

def free : RwLock α := ⟨none,[]⟩

/-- Lock for writing or for reading, when that is possible. -/
def acquire (l : RwLock α) (t : α) (write : Bool) : Option (RwLock α) :=
  if write then
    if l.writer = none ∧ l.readers = [] then some ⟨some t,[]⟩ else none
  else if l.writer = none then some { l with readers := t :: l.readers } else none

def release (l : RwLock α) (t : α) (write : Bool) : Option (RwLock α) :=
  if write then
    if l.writer = some t then some { l with writer := none } else none
  else if t ∈ l.readers then some { l with readers := l.readers.erase t } else none

/-- How often the thread holds the lock. -/
def holds (l : RwLock α) (t : α) (write : Bool) : ℕ :=
  if write then if l.writer = some t then 1 else 0 else l.readers.count t

/-- A writer is alone. -/
def Valid (l : RwLock α) : Prop := l.writer ≠ none → l.readers = []

variable {l l' : RwLock α} {t u : α} {w v : Bool}

@[simp] theorem holds_free : (free : RwLock α).holds t w = 0 := by cases w <;> simp [holds, free]

omit [DecidableEq α] in
theorem valid_free : (free : RwLock α).Valid := fun h => absurd rfl h

theorem acquire_holds (h : l.acquire t w = some l') :
    l'.holds u v = l.holds u v + if u = t ∧ v = w then 1 else 0 := by
  unfold acquire at h
  cases w with
  | true =>
    simp only [↓reduceIte] at h
    split_ifs at h with hfree
    cases h
    cases v <;> simp [holds, hfree, eq_comm]
  | false =>
    simp only [Bool.false_eq_true, ↓reduceIte] at h
    split_ifs at h with hw
    cases h
    cases v
    · rcases eq_or_ne u t with rfl | hut
      · simp [holds]
      · simp [holds, List.count_cons_of_ne hut.symm, hut]
    · simp [holds]

omit [DecidableEq α] in
theorem Valid.acquire (h : l.acquire t w = some l') : l'.Valid := by
  unfold RwLock.acquire at h
  split_ifs at h with hw hfree hfree
  · cases h
    exact fun _ => rfl
  · cases h
    exact fun hne => absurd hfree hne

theorem release_holds (h : l.release t w = some l') :
    l.holds u v = l'.holds u v + if u = t ∧ v = w then 1 else 0 := by
  unfold release at h
  cases w with
  | true =>
    simp only [↓reduceIte] at h
    split_ifs at h with hw
    cases h
    cases v <;> simp [holds, hw, eq_comm]
  | false =>
    simp only [Bool.false_eq_true, ↓reduceIte] at h
    split_ifs at h with hmem
    cases h
    cases v
    · rcases eq_or_ne u t with rfl | hut
      · have hpos := List.count_pos_iff.mpr hmem
        simp only [holds, Bool.false_eq_true, ↓reduceIte, List.count_erase_self, and_self]
        omega
      · simp [holds, List.count_erase_of_ne hut, hut]
    · simp [holds]

theorem Valid.release (hv : l.Valid) (h : l.release t w = some l') : l'.Valid := by
  unfold RwLock.release at h
  split_ifs at h with hw hown hmem
  · cases h
    exact fun hne => absurd rfl hne
  · cases h
    intro hne
    have hnil := hv hne
    rw [hnil] at hmem
    cases hmem

/-- Who holds the lock for writing is its writer. -/
theorem holds_write_pos : 0 < l.holds t true ↔ l.writer = some t := by
  simp only [holds, ↓reduceIte]
  split_ifs with hw <;> simp [hw]

theorem holds_read_pos : 0 < l.holds t false ↔ t ∈ l.readers := by
  simp [holds, List.count_pos_iff]

/-- Where one writes nobody else holds the lock. -/
theorem Valid.alone (hv : l.Valid) (ht : 0 < l.holds t true) (hu : 0 < l.holds u v) : u = t ∧ v = true := by
  rw [holds_write_pos] at ht
  cases v with
  | true =>
    rw [holds_write_pos] at hu
    exact ⟨Option.some.inj (hu.symm.trans ht),rfl⟩
  | false =>
    have hnil := hv (by simp [ht])
    rw [holds_read_pos, hnil] at hu
    cases hu

/-- Nobody holds what a writer has released. -/
theorem Valid.release_write (hv : l.Valid) (h : l.release t true = some l') : l'.holds u v = 0 := by
  unfold RwLock.release at h
  simp only [↓reduceIte] at h
  split_ifs at h with hw
  cases h
  have hnil := hv (by simp [hw])
  cases v <;> simp [holds, hnil]

end RwLock
end CompilerRt
