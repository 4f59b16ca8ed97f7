import CompilerRt.Lib.Interleaving
import Mathlib.Algebra.BigOperators.Ring.Finset
import Mathlib.Data.BitVec

/-! # The reader/writer spin mutex of the run-time library

`Mutex` of `lib/tsan/rtl/tsan_mutex.cc`. A caller locks and unlocks, or read-locks and read-unlocks, again and
again. Each step is one atomic operation on the state word.
-/
namespace CompilerRt.Tsan.Mutex

abbrev uptr := BitVec 64

def kUnlocked : uptr := 0
def kWriteLock : uptr := 1
def kReadLock : uptr := 2

/-- Where a caller is. -/
inductive Pc where
  | idle
  /-- In the loop of `Lock`, before the load. -/
  | lockLoad
  /-- In the loop of `Lock`, after the load has found the mutex unlocked. -/
  | lockCas
  /-- Between a completed `Lock` and its `Unlock`. -/
  | locked
  /-- In the loop of `ReadLock`. -/
  | readLoad
  /-- Between a completed `ReadLock` and its `ReadUnlock`. -/
  | readLocked
  deriving DecidableEq

/-- What the caller does next; a weak exchange may fail although the words are equal. -/
inductive Act where
  | Lock
  | Unlock
  | ReadLock
  | ReadUnlock
  | spin (weakFails : Bool)

/-- One atomic operation of a caller on the state word. -/
def next (act : Act) (state : uptr) : Pc → Option (uptr × Pc)
  | .idle => match act with
    | .Lock => if state = kUnlocked then some (kWriteLock, .locked) else some (state, .lockLoad)
    | .ReadLock =>
      let prev := state
      some (state + kReadLock, if prev &&& kWriteLock = 0 then .readLocked else .readLoad)
    | _ => none
  | .lockLoad => match act with
    | .spin _ => some (state, if state = kUnlocked then .lockCas else .lockLoad)
    | _ => none
  | .lockCas => match act with
    | .spin weakFails =>
      if state = kUnlocked ∧ weakFails = false then some (kWriteLock, .locked) else some (state, .lockLoad)
    | _ => none
  | .locked => match act with
    | .Unlock => some (state - kWriteLock, .idle)
    | _ => none
  | .readLoad => match act with
    | .spin _ => some (state, if state &&& kWriteLock = 0 then .readLocked else .readLoad)
    | _ => none
  | .readLocked => match act with
    | .ReadUnlock => some (state - kReadLock, .idle)
    | _ => none

section Callers
variable {Caller : Type*} [DecidableEq Caller] [Fintype Caller]

def step : Interleaving.Config uptr Pc Caller → Caller × Act → Option (Interleaving.Config uptr Pc Caller) :=
  Interleaving.step fun _ => next

/-- The mutex is unlocked, and nobody uses it. -/
def init : Interleaving.Config uptr Pc Caller := ⟨kUnlocked,fun _ => .idle⟩

/-- The caller has completed `Lock`, and not yet called `Unlock`. -/
def Writes (c : Interleaving.Config uptr Pc Caller) (t : Caller) : Prop := c.threads t = .locked

/-- The caller has completed `ReadLock`, and not yet called `ReadUnlock`. -/
def Reads (c : Interleaving.Config uptr Pc Caller) (t : Caller) : Prop := c.threads t = .readLocked

/-- The caller has added a reader to the state word, and not yet taken it off. -/
def Incremented (c : Interleaving.Config uptr Pc Caller) (t : Caller) : Prop :=
  c.threads t = .readLoad ∨ c.threads t = .readLocked

instance (c : Interleaving.Config uptr Pc Caller) : DecidablePred (Writes c) :=
  fun t => inferInstanceAs (Decidable (c.threads t = .locked))

instance (c : Interleaving.Config uptr Pc Caller) : DecidablePred (Incremented c) :=
  fun t => inferInstanceAs (Decidable (c.threads t = .readLoad ∨ c.threads t = .readLocked))

/-! ## Invariant -/

/-- What a caller has added to the state word. -/
def share : Pc → ℕ
  | .locked => 1
  | .readLoad | .readLocked => 2
  | _ => 0

theorem share_le (x : Pc) : share x ≤ 2 := by cases x <;> decide

/-- The word is the sum of what the callers added, and a writer is alone. -/
structure Sound (c : Interleaving.Config uptr Pc Caller) : Prop where
  word : c.shared.toNat = Interleaving.total share c.threads
  alone : ∀ t u, t ≠ u → Writes c t → ¬ Writes c u ∧ ¬ Reads c u

variable {c c' : Interleaving.Config uptr Pc Caller}

omit [DecidableEq Caller] in
/-- The word counts the writers once and the readers twice. -/
theorem total_share (threads : Caller → Pc) : Interleaving.total share threads =
    (Finset.univ.filter fun t => threads t = .locked).card +
      2 * (Finset.univ.filter fun t => threads t = .readLoad ∨ threads t = .readLocked).card := by
  rw [Finset.card_filter, Finset.card_filter, Finset.mul_sum, ← Finset.sum_add_distrib]
  refine Finset.sum_congr rfl fun t _ => ?_
  cases threads t <;> simp [share]

omit [DecidableEq Caller] in
theorem sound_init : Sound (init : Interleaving.Config uptr Pc Caller) where
  word := by simp [init, Interleaving.total, share, kUnlocked]
  alone t u _ h := by cases h

theorem and_kWriteLock_eq_zero_iff (x : uptr) : x &&& kWriteLock = 0 ↔ x.toNat % 2 = 0 := by
  have hand : (x &&& kWriteLock).toNat = x.toNat % 2 := by
    rw [BitVec.toNat_and]
    exact Nat.and_one_is_mod x.toNat
  rw [← hand]
  constructor
  · intro h
    rw [h]
    rfl
  · intro h
    exact BitVec.eq_of_toNat_eq h

namespace Sound

theorem card_writers_le (h : Sound c) : (Finset.univ.filter fun t => c.threads t = .locked).card ≤ 1 := by
  rw [Finset.card_le_one]
  intro t ht u hu
  by_contra hne
  exact (h.alone t u hne (Finset.mem_filter.mp ht).2).1 (Finset.mem_filter.mp hu).2

/-- While the writer bit is clear there is no writer. -/
theorem no_writer (h : Sound c) (hbit : c.shared &&& kWriteLock = 0) (t : Caller) : ¬ Writes c t := by
  intro ht
  rw [and_kWriteLock_eq_zero_iff, h.word, total_share] at hbit
  have hle := h.card_writers_le
  have hpos : 0 < (Finset.univ.filter fun t => c.threads t = .locked).card :=
    Finset.card_pos.mpr ⟨t,Finset.mem_filter.mpr ⟨Finset.mem_univ t,ht⟩⟩
  omega

omit [DecidableEq Caller] in
/-- When the word is zero nobody holds the mutex. -/
theorem nobody (h : Sound c) (hzero : c.shared = kUnlocked) (t : Caller) : share (c.threads t) = 0 := by
  have hle : share (c.threads t) ≤ Interleaving.total share c.threads := Interleaving.le_total t
  rw [← h.word, hzero] at hle
  exact Nat.le_zero.mp hle

section Move
variable {t : Caller} {g : uptr} {x : Pc}

/-- A move that completes no lock. -/
theorem alone_of_calm (h : Sound c) (hw : x ≠ .locked) (hr : x ≠ .readLocked) (u v : Caller) (huv : u ≠ v)
    (hu : Function.update c.threads t x u = .locked) : Function.update c.threads t x v ≠ .locked ∧
      Function.update c.threads t x v ≠ .readLocked := by
  have hut : u ≠ t := by
    rintro rfl
    rw [Function.update_self] at hu
    exact hw hu
  rw [Function.update_of_ne hut] at hu
  rcases eq_or_ne v t with rfl | hvt
  · rw [Function.update_self]
    exact ⟨hw,hr⟩
  · rw [Function.update_of_ne hvt]
    exact h.alone u v huv hu

omit [Fintype Caller] in
/-- A reader comes in while there is no writer. -/
theorem alone_of_read (hno : ∀ u, ¬ Writes c u) (hw : x ≠ .locked) (u v : Caller)
    (hu : Function.update c.threads t x u = .locked) : Function.update c.threads t x v ≠ .locked ∧
      Function.update c.threads t x v ≠ .readLocked := by
  rcases eq_or_ne u t with rfl | hut
  · rw [Function.update_self] at hu
    exact absurd hu hw
  · rw [Function.update_of_ne hut] at hu
    exact absurd hu (hno u)

omit [Fintype Caller] in
/-- A writer comes in while nobody holds the mutex. -/
theorem alone_of_write (hno : ∀ u, share (c.threads u) = 0) (u v : Caller) (huv : u ≠ v)
    (hu : Function.update c.threads t x u = .locked) : Function.update c.threads t x v ≠ .locked ∧
      Function.update c.threads t x v ≠ .readLocked := by
  have hut : u = t := by
    by_contra hut
    rw [Function.update_of_ne hut] at hu
    have := hno u
    rw [hu] at this
    cases this
  subst hut
  rw [Function.update_of_ne huv.symm]
  have hv := hno v
  constructor <;> intro heq <;> rw [heq] at hv <;> cases hv

end Move

/-- One atomic operation keeps the word and the writer's solitude. -/
theorem step (h : Sound c) (hcard : Fintype.card Caller < 2^63) {e : Caller × Act} (he : step c e = some c') :
    Sound c' := by
  obtain ⟨g,x,hn,rfl⟩ := Interleaving.step_eq_some he
  obtain ⟨t,act⟩ := e
  have htotal : Interleaving.total share (Function.update c.threads t x) + share (c.threads t) =
      Interleaving.total share c.threads + share x := Interleaving.total_update x
  have hbound : Interleaving.total share (Function.update c.threads t x) ≤ Fintype.card Caller * 2 :=
    Interleaving.total_le 2 share_le
  have hle : share (c.threads t) ≤ Interleaving.total share c.threads := Interleaving.le_total t
  have hword := h.word
  have hlt := c.shared.isLt
  change next act c.shared (c.threads t) = some (g,x) at hn
  -- by the caller's place; each operation says what becomes of the word and of its share
  cases hpc : c.threads t with
  | idle =>
    rw [hpc] at hn htotal
    cases act with
    | Lock =>
      simp only [next] at hn
      split_ifs at hn with hzero
      · cases hn
        refine ⟨?_,alone_of_write (h.nobody hzero)⟩
        change 1 = Interleaving.total share (Function.update c.threads t .locked)
        rw [hzero] at hword
        change 0 = _ at hword
        simp only [share] at htotal
        omega
      · cases hn
        refine ⟨?_,h.alone_of_calm (by decide) (by decide)⟩
        simp only [share] at htotal
        dsimp only
        omega
    | ReadLock =>
      simp only [next, Option.some.injEq, Prod.mk.injEq] at hn
      obtain ⟨rfl,rfl⟩ := hn
      have hsum : (c.shared + kReadLock).toNat = (c.shared.toNat + 2) % 2^64 := BitVec.toNat_add ..
      split_ifs at htotal hbound ⊢ with hbit
      · refine ⟨?_,fun u v _ => alone_of_read (h.no_writer hbit) (by decide) u v⟩
        simp only [share] at htotal
        dsimp only
        omega
      · refine ⟨?_,h.alone_of_calm (by decide) (by decide)⟩
        simp only [share] at htotal
        dsimp only
        omega
    | Unlock | ReadUnlock | spin => simp [next] at hn
  | lockLoad =>
    rw [hpc] at hn htotal
    cases act with
    | spin weakFails =>
      simp only [next, Option.some.injEq, Prod.mk.injEq] at hn
      obtain ⟨rfl,rfl⟩ := hn
      split_ifs at htotal hbound ⊢
      all_goals
        refine ⟨?_,h.alone_of_calm (by decide) (by decide)⟩
        simp only [share] at htotal
        dsimp only
        omega
    | Lock | Unlock | ReadLock | ReadUnlock => simp [next] at hn
  | lockCas =>
    rw [hpc] at hn htotal
    cases act with
    | spin weakFails =>
      simp only [next] at hn
      split_ifs at hn with hzero
      · cases hn
        refine ⟨?_,alone_of_write (h.nobody hzero.1)⟩
        change 1 = Interleaving.total share (Function.update c.threads t .locked)
        rw [hzero.1] at hword
        change 0 = _ at hword
        simp only [share] at htotal
        omega
      · cases hn
        refine ⟨?_,h.alone_of_calm (by decide) (by decide)⟩
        simp only [share] at htotal
        dsimp only
        omega
    | Lock | Unlock | ReadLock | ReadUnlock => simp [next] at hn
  | locked =>
    rw [hpc] at hn htotal hle
    cases act with
    | Unlock =>
      simp only [next, Option.some.injEq, Prod.mk.injEq] at hn
      obtain ⟨rfl,rfl⟩ := hn
      have hsub : (c.shared - kWriteLock).toNat = (2^64 - 1 + c.shared.toNat) % 2^64 := BitVec.toNat_sub ..
      refine ⟨?_,h.alone_of_calm (by decide) (by decide)⟩
      simp only [share] at htotal hle
      dsimp only
      omega
    | Lock | ReadLock | ReadUnlock | spin => simp [next] at hn
  | readLoad =>
    rw [hpc] at hn htotal
    cases act with
    | spin weakFails =>
      simp only [next, Option.some.injEq, Prod.mk.injEq] at hn
      obtain ⟨rfl,rfl⟩ := hn
      split_ifs at htotal hbound ⊢ with hbit
      · refine ⟨?_,fun u v _ => alone_of_read (h.no_writer hbit) (by decide) u v⟩
        simp only [share] at htotal
        dsimp only
        omega
      · refine ⟨?_,h.alone_of_calm (by decide) (by decide)⟩
        simp only [share] at htotal
        dsimp only
        omega
    | Lock | Unlock | ReadLock | ReadUnlock => simp [next] at hn
  | readLocked =>
    rw [hpc] at hn htotal hle
    cases act with
    | ReadUnlock =>
      simp only [next, Option.some.injEq, Prod.mk.injEq] at hn
      obtain ⟨rfl,rfl⟩ := hn
      have hsub : (c.shared - kReadLock).toNat = (2^64 - 2 + c.shared.toNat) % 2^64 := BitVec.toNat_sub ..
      refine ⟨?_,h.alone_of_calm (by decide) (by decide)⟩
      simp only [share] at htotal hle
      dsimp only
      omega
    | Lock | Unlock | ReadLock | spin => simp [next] at hn

end Sound

/-- In every state that callers reach by any interleaving of their atomic operations, a writer is alone, and the word
counts the writer once and each reader twice that has added itself, spinning or not. -/
theorem mutual_exclusion (hcard : Fintype.card Caller < 2^63) {es : List (Caller × Act)}
    (hrun : Transition.run step init es = some c) :
    (∀ t u, Writes c t → Writes c u → t = u) ∧ (∀ t u, Writes c t → ¬ Reads c u) ∧
      c.shared.toNat = (if ∃ t, Writes c t then 1 else 0) + 2 * (Finset.univ.filter (Incremented c)).card := by
  have h := Transition.run_inv (I := Sound) (fun _ _ _ hs he => hs.step hcard he) sound_init hrun
  refine ⟨fun t u ht hu => ?_,fun t u ht hu => ?_,?_⟩
  · by_contra hne
    exact (h.alone t u hne ht).1 hu
  · rcases eq_or_ne t u with rfl | hne
    · rw [Writes, hu] at ht
      cases ht
    · exact (h.alone t u hne ht).2 hu
  · rw [h.word, total_share]
    congr 1
    have hle := h.card_writers_le
    split_ifs with hex
    · obtain ⟨t,ht⟩ := hex
      have hpos := Finset.card_pos.mpr ⟨t,Finset.mem_filter.mpr ⟨Finset.mem_univ t,ht⟩⟩
      exact le_antisymm hle hpos
    · rw [Finset.card_eq_zero, Finset.filter_eq_empty_iff]
      exact fun t _ ht => hex ⟨t,ht⟩

end Callers

/-- A writer, two readers that come while it writes, and a second writer that spins. -/
def contended : List (Fin 4 × Act) :=
  [(0,.Lock),(1,.ReadLock),(2,.ReadLock),(3,.Lock),(1,.spin false),(0,.Unlock),(1,.spin false),(3,.spin false)]

theorem mutual_exclusion_contended : ∃ c, Transition.run step init contended = some c ∧
    c.shared.toNat = (if ∃ t, Writes c t then 1 else 0) + 2 * (Finset.univ.filter (Incremented c)).card ∧
    (∀ t u, Writes c t → Writes c u → t = u) := by
  obtain ⟨c,hc⟩ : ∃ c, Transition.run step init contended = some c := Option.isSome_iff_exists.mp (by decide)
  have h := mutual_exclusion (by decide) hc
  exact ⟨c,hc,by convert h.2.2,h.1⟩

end CompilerRt.Tsan.Mutex
