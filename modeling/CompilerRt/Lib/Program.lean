import CompilerRt.Lib.ByteOrder
import Mathlib.Data.List.Basic
import Mathlib.Logic.Function.Basic

/-! # Programs over memory and locks

A program is a tree of single steps: plain loads and stores, atomic operations and locks. It can be run by itself, and
its steps can be interleaved with those of other programs.
-/
namespace CompilerRt
open ByteOrder

/-- Memory and the locks that are held. -/
structure Store where
  bytes : ℕ → Byte
  locked : ℕ → Bool

namespace Store

def readBytes (m : ℕ → Byte) (a n : ℕ) : List Byte := (List.range n).map fun i => m (a + i)

def writeBytes (m : ℕ → Byte) (a : ℕ) (bs : List Byte) : ℕ → Byte :=
  fun x => if a ≤ x ∧ x < a + bs.length then bs.getD (x - a) 0 else m x

def write (s : Store) (a : ℕ) (bs : List Byte) : Store := { s with bytes := writeBytes s.bytes a bs }

def setLock (s : Store) (l : ℕ) (b : Bool) : Store := { s with locked := Function.update s.locked l b }

@[simp] theorem length_readBytes (m : ℕ → Byte) (a n : ℕ) : (readBytes m a n).length = n := by
  simp [readBytes]

theorem readBytes_congr {m m' : ℕ → Byte} {a n : ℕ} (h : ∀ i < n, m (a + i) = m' (a + i)) :
    readBytes m a n = readBytes m' a n :=
  List.map_congr_left fun i hi => h i (List.mem_range.mp hi)

theorem readBytes_ext {m m' : ℕ → Byte} {a a' n : ℕ} (h : readBytes m a n = readBytes m' a' n) {i : ℕ} (hi : i < n) :
    m (a + i) = m' (a' + i) := by
  have hget := congrArg (fun l : List Byte => l[i]?) h
  simpa [readBytes,hi] using hget

theorem getD_readBytes (m : ℕ → Byte) (a : ℕ) {n i : ℕ} (hi : i < n) : (readBytes m a n).getD i 0 = m (a + i) := by
  simp [readBytes,hi]

theorem writeBytes_of_mem {m : ℕ → Byte} {a : ℕ} {bs : List Byte} {i : ℕ} (hi : i < bs.length) :
    writeBytes m a bs (a + i) = bs.getD i 0 := by
  rw [writeBytes,if_pos ⟨Nat.le_add_right a i,Nat.add_lt_add_left hi a⟩,Nat.add_sub_cancel_left]

theorem writeBytes_of_not_mem {m : ℕ → Byte} {a : ℕ} {bs : List Byte} {x : ℕ} (h : x < a ∨ a + bs.length ≤ x) :
    writeBytes m a bs x = m x := if_neg (by omega)

/-- What was written is read back. -/
theorem readBytes_writeBytes (m : ℕ → Byte) (a : ℕ) (bs : List Byte) :
    readBytes (writeBytes m a bs) a bs.length = bs := by
  apply List.ext_getElem?
  intro i
  by_cases hi : i < bs.length
  · have hw := writeBytes_of_mem (m := m) (a := a) hi
    rw [List.getD_eq_getElem?_getD,List.getElem?_eq_getElem hi] at hw
    rw [readBytes,List.getElem?_map,List.getElem?_range hi,Option.map_some,hw,List.getElem?_eq_getElem hi]
    rfl
  · rw [List.getElem?_eq_none (by rw [length_readBytes]; omega),List.getElem?_eq_none (by omega)]

/-- Bytes elsewhere are not changed. -/
theorem readBytes_writeBytes_of_disjoint {m : ℕ → Byte} {a b n : ℕ} {bs : List Byte}
    (h : b + n ≤ a ∨ a + bs.length ≤ b) : readBytes (writeBytes m a bs) b n = readBytes m b n :=
  readBytes_congr fun i hi => writeBytes_of_not_mem (by omega)

theorem writeBytes_readBytes (m : ℕ → Byte) (a n : ℕ) : writeBytes m a (readBytes m a n) = m := by
  funext x
  by_cases hx : a ≤ x ∧ x < a + n
  · obtain ⟨i,rfl⟩ := Nat.exists_eq_add_of_le hx.1
    rw [writeBytes_of_mem (by rw [length_readBytes]; omega),getD_readBytes m a (by omega)]
  · exact writeBytes_of_not_mem (by rw [length_readBytes]; omega)

@[simp] theorem writeBytes_nil (m : ℕ → Byte) (a : ℕ) : writeBytes m a [] = m := by
  funext x
  exact writeBytes_of_not_mem (by simp only [List.length_nil]; omega)

/-- Writing byte by byte. -/
theorem writeBytes_cons (m : ℕ → Byte) (a : ℕ) (b : Byte) (bs : List Byte) :
    writeBytes m a (b :: bs) = writeBytes (writeBytes m a [b]) (a + 1) bs := by
  funext x
  rcases Nat.lt_trichotomy x a with h | rfl | h
  · rw [writeBytes_of_not_mem (Or.inl h),writeBytes_of_not_mem (Or.inl (by omega)),writeBytes_of_not_mem (Or.inl h)]
  · have h₁ : writeBytes m x (b :: bs) (x + 0) = (b :: bs).getD 0 0 := writeBytes_of_mem (Nat.succ_pos _)
    have h₂ : writeBytes m x [b] (x + 0) = [b].getD 0 0 := writeBytes_of_mem (Nat.succ_pos _)
    rw [Nat.add_zero] at h₁ h₂
    rw [h₁,writeBytes_of_not_mem (Or.inl (Nat.lt_succ_self x)),h₂]
    rfl
  · rw [writeBytes,writeBytes,List.length_cons]
    by_cases hx : x < a + (bs.length + 1)
    · rw [if_pos ⟨by omega,hx⟩,if_pos ⟨by omega,by omega⟩,show x - a = (x - (a + 1)) + 1 by omega,List.getD_cons_succ]
    · rw [if_neg (by omega),if_neg (by omega),writeBytes_of_not_mem (Or.inr (by simp only [List.length_singleton]; omega))]

/-- Writing apart, in either order. -/
theorem writeBytes_comm {m : ℕ → Byte} {a b : ℕ} {bs cs : List Byte} (h : a + bs.length ≤ b ∨ b + cs.length ≤ a) :
    writeBytes (writeBytes m a bs) b cs = writeBytes (writeBytes m b cs) a bs := by
  funext x
  by_cases ha : a ≤ x ∧ x < a + bs.length
  · have hb : x < b ∨ b + cs.length ≤ x := by omega
    rw [writeBytes_of_not_mem hb]
    exact (if_pos ha).trans (if_pos ha).symm
  · rw [writeBytes_of_not_mem (m := writeBytes m b cs) (by omega)]
    by_cases hb : b ≤ x ∧ x < b + cs.length
    · exact (if_pos hb).trans (if_pos hb).symm
    · rw [writeBytes_of_not_mem (by omega),writeBytes_of_not_mem (by omega),writeBytes_of_not_mem (by omega)]

/-- The last write counts. -/
theorem writeBytes_writeBytes (m : ℕ → Byte) (a : ℕ) {bs cs : List Byte} (h : bs.length = cs.length) :
    writeBytes (writeBytes m a bs) a cs = writeBytes m a cs := by
  funext x
  by_cases hx : a ≤ x ∧ x < a + cs.length
  · exact (if_pos hx).trans (if_pos hx).symm
  · rw [writeBytes_of_not_mem (by omega),writeBytes_of_not_mem (by omega),writeBytes_of_not_mem (by omega)]

theorem writeBytes_inj {m : ℕ → Byte} {a : ℕ} {bs cs : List Byte} (hlen : bs.length = cs.length)
    (h : writeBytes m a bs = writeBytes m a cs) : bs = cs := by
  have hbs := readBytes_writeBytes m a bs
  rw [h,hlen,readBytes_writeBytes] at hbs
  exact hbs.symm

theorem readBytes_inj {m m' : ℕ → Byte} {a n : ℕ} :
    readBytes m a n = readBytes m' a n ↔ ∀ i < n, m (a + i) = m' (a + i) :=
  ⟨fun h _ hi => readBytes_ext h hi,readBytes_congr⟩

theorem readBytes_succ (m : ℕ → Byte) (a n : ℕ) : readBytes m a (n + 1) = m a :: readBytes m (a + 1) n := by
  simp only [readBytes,List.range_succ_eq_map,List.map_cons,List.map_map,Nat.add_zero]
  congr 1
  refine List.map_congr_left fun i _ => ?_
  change m (a + (i + 1)) = m (a + 1 + i)
  rw [Nat.add_right_comm,Nat.add_assoc]

theorem readBytes_add (m : ℕ → Byte) (a p q : ℕ) :
    readBytes m a (p + q) = readBytes m a p ++ readBytes m (a + p) q := by
  simp only [readBytes,List.range_add,List.map_append,List.map_map,Function.comp_def,Nat.add_assoc]

/-- What is written behind other bytes is read behind them. -/
theorem readBytes_writeBytes_append (m : ℕ → Byte) (a p : ℕ) (bs : List Byte) :
    readBytes (writeBytes m (a + p) bs) a (p + bs.length) = readBytes m a p ++ bs := by
  rw [readBytes_add,readBytes_writeBytes,readBytes_writeBytes_of_disjoint (Or.inl le_rfl)]

end Store

/-- An access to `length` bytes from `offset` on, of what the pointer `base` points to. -/
structure Access where
  base : ℕ
  offset : ℕ
  length : ℕ
  deriving DecidableEq,Repr

inductive Program (α : Type)
  | ret (a : α)
  | load (base offset n : ℕ) (k : List Byte → Program α)
  | store (base offset : ℕ) (bs : List Byte) (k : Program α)
  /-- The bytes are replaced in one step; the program goes on with what they were. -/
  | atomic (base n : ℕ) (f : List Byte → List Byte) (k : List Byte → Program α)
  | acquire (l : ℕ) (k : Program α)
  | release (l : ℕ) (k : Program α)

namespace Program
open Store
variable {α β : Type}

def bind : Program α → (α → Program β) → Program β
  | .ret a, g => g a
  | .load b o n k, g => .load b o n fun bs => (k bs).bind g
  | .store b o bs k, g => .store b o bs (k.bind g)
  | .atomic b n f k, g => .atomic b n f fun bs => (k bs).bind g
  | .acquire l k, g => .acquire l (k.bind g)
  | .release l k, g => .release l (k.bind g)

instance : Monad Program where
  pure := .ret
  bind := bind

/-- The program by itself, with the accesses it makes. Waiting for a lock that is held has no end. -/
def run : Program α → Store → Option (α × Store × List Access)
  | .ret a, s => some (a,s,[])
  | .load b o n k, s =>
    (run (k (readBytes s.bytes (b + o) n)) s).map fun r => (r.1,r.2.1,⟨b,o,n⟩ :: r.2.2)
  | .store b o bs k, s => (run k (s.write (b + o) bs)).map fun r => (r.1,r.2.1,⟨b,o,bs.length⟩ :: r.2.2)
  | .atomic b n f k, s =>
    let old := readBytes s.bytes b n
    (run (k old) (s.write b (f old))).map fun r => (r.1,r.2.1,⟨b,0,n⟩ :: r.2.2)
  | .acquire l k, s => if s.locked l then none else run k (s.setLock l true)
  | .release l k, s => run k (s.setLock l false)

/-- One step, and what is left of the program. -/
def next : Program α → Store → Option (Program α × Store)
  | .ret _, _ => none
  | .load b o n k, s => some (k (readBytes s.bytes (b + o) n),s)
  | .store b o bs k, s => some (k,s.write (b + o) bs)
  | .atomic b n f k, s => some (k (readBytes s.bytes b n),s.write b (f (readBytes s.bytes b n)))
  | .acquire l k, s => if s.locked l then none else some (k,s.setLock l true)
  | .release l k, s => some (k,s.setLock l false)

/-- What the program returns and leaves when it is run by itself. -/
def result (p : Program α) (s : Store) : Option (α × Store) := (run p s).map fun r => (r.1,r.2.1)

theorem result_next {p p' : Program α} {s s' : Store} (h : next p s = some (p',s')) : result p s = result p' s' := by
  unfold result
  cases p with
  | ret a => cases h
  | load b o n k =>
    cases h
    rw [run,Option.map_map]
    rfl
  | store b o bs k =>
    cases h
    rw [run,Option.map_map]
    rfl
  | atomic b n f k =>
    cases h
    rw [run,Option.map_map]
    rfl
  | acquire l k =>
    obtain ⟨hl,heq⟩ := Option.ite_none_left_eq_some.mp h
    cases heq
    rw [run,if_neg hl]
  | release l k =>
    cases h
    rfl

/-- Running one program after the other. -/
theorem run_bind (p : Program α) (g : α → Program β) (s : Store) :
    run (p.bind g) s = (run p s).bind fun r => (run (g r.1) r.2.1).map fun q => (q.1,q.2.1,r.2.2 ++ q.2.2) := by
  induction p generalizing s with
  | ret a => simp [bind,run]
  | load b o n k ih => simp [bind,run,ih,Option.map_bind,Option.bind_map,Function.comp_def]
  | store b o bs k ih => simp [bind,run,ih,Option.map_bind,Option.bind_map,Function.comp_def]
  | atomic b n f k ih => simp [bind,run,ih,Option.map_bind,Option.bind_map,Function.comp_def]
  | acquire l k ih =>
    rw [bind,run,run]
    split
    · rfl
    · exact ih _
  | release l k ih => exact ih _

end Program
end CompilerRt
