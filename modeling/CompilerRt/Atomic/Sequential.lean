import CompilerRt.Atomic.Atomic

/-! # The operations without interference

What each operation does when it runs by itself, and when a generic operation does what the sized one does.
-/
namespace CompilerRt.Atomic
open ByteOrder Store

/-- The program returns `a` and leaves `s'`, and touches no more than `size` bytes of what the pointers point to. -/
def Does {α : Type} (ptrs : List ℕ) (size : ℕ) (p : Program α) (s : Store) (a : α) (s' : Store) : Prop :=
  ∃ accesses, p.run s = some (a,s',accesses) ∧ ∀ x ∈ accesses, x.base ∈ ptrs ∧ x.offset + x.length ≤ size

section Steps
variable {α β : Type} {ptrs : List ℕ} {size : ℕ} {s s₁ s' : Store}

theorem does_ret (a : α) : Does ptrs size (.ret a) s a s := ⟨[],rfl,fun _ hx => absurd hx List.not_mem_nil⟩

theorem Does.bind {p : Program α} {g : α → Program β} {a : α} {b : β} (hp : Does ptrs size p s a s₁)
    (hg : Does ptrs size (g a) s₁ b s') : Does ptrs size (p >>= g) s b s' := by
  obtain ⟨xs,hp,hxs⟩ := hp
  obtain ⟨ys,hg,hys⟩ := hg
  refine ⟨xs ++ ys,?_,fun x hx => (List.mem_append.mp hx).elim (hxs x) (hys x)⟩
  change (p.bind g).run s = _
  rw [Program.run_bind,hp,Option.bind_some,hg]
  rfl

theorem does_load {p offset n : ℕ} (hp : p ∈ ptrs) (h : offset + n ≤ size) :
    Does ptrs size (load p offset n) s (readBytes s.bytes (p + offset) n) s :=
  ⟨[⟨p,offset,n⟩],rfl,fun x hx => by rw [List.mem_singleton.mp hx]; exact ⟨hp,h⟩⟩

theorem does_store {p offset : ℕ} {bs : List Byte} (hp : p ∈ ptrs) (h : offset + bs.length ≤ size) :
    Does ptrs size (store p offset bs) s () (s.write (p + offset) bs) :=
  ⟨[⟨p,offset,bs.length⟩],rfl,fun x hx => by rw [List.mem_singleton.mp hx]; exact ⟨hp,h⟩⟩

theorem does_atomic {p n : ℕ} {f : List Byte → List Byte} {k : List Byte → Program α} {a : α} (hp : p ∈ ptrs)
    (h : n ≤ size) (hk : Does ptrs size (k (readBytes s.bytes p n)) (s.write p (f (readBytes s.bytes p n))) a s') :
    Does ptrs size (.atomic p n f k) s a s' := by
  obtain ⟨xs,hk,hxs⟩ := hk
  refine ⟨⟨p,0,n⟩ :: xs,?_,fun x hx => ?_⟩
  · rw [Program.run,hk]
    rfl
  · rcases List.mem_cons.mp hx with rfl | hx
    · exact ⟨hp,(Nat.zero_add n).le.trans h⟩
    · exact hxs x hx

theorem does_lock {l : ℕ} (h : s.locked l = false) : Does ptrs size (lock l) s () (s.setLock l true) := by
  refine ⟨[],?_,fun _ hx => absurd hx List.not_mem_nil⟩
  rw [lock,Program.run,h]
  rfl

theorem does_unlock (l : ℕ) : Does ptrs size (unlock l) s () (s.setLock l false) :=
  ⟨[],rfl,fun _ hx => absurd hx List.not_mem_nil⟩

/-- Taking a free lock and giving it back changes nothing else. -/
theorem setLock_setLock {l : ℕ} {bytes : ℕ → Byte} (h : s.locked l = false) :
    Store.setLock ⟨bytes,(s.setLock l true).locked⟩ l false = ⟨bytes,s.locked⟩ := by
  have hlocked : Function.update (Function.update s.locked l true) l false = s.locked := by
    rw [Function.update_idem,← h,Function.update_eq_self]
  exact congrArg (Store.mk bytes) hlocked

theorem does_memcpy {dst src : ℕ} (hdst : dst ∈ ptrs) (hsrc : src ∈ ptrs) (offset n : ℕ) (h : offset + n ≤ size)
    (hd : src = dst ∨ src + (offset + n) ≤ dst + offset ∨ dst + (offset + n) ≤ src + offset) (s : Store) :
    Does ptrs size (memcpy dst src offset n) s () (s.write (dst + offset) (readBytes s.bytes (src + offset) n)) := by
  induction n generalizing offset s with
  | zero =>
    have hnil : s.write (dst + offset) (readBytes s.bytes (src + offset) 0) = s := by
      rw [write,readBytes,List.range_zero,List.map_nil,writeBytes_nil]
    rw [hnil]
    exact does_ret ()
  | succ n ih =>
    rw [memcpy]
    have hone : readBytes s.bytes (src + offset) 1 = [s.bytes (src + offset)] := rfl
    refine (does_load hsrc (by omega)).bind ((does_store hdst (by rw [length_readBytes]; omega)).bind ?_)
    have htail := ih (offset + 1) (by omega) (by omega) (s.write (dst + offset) (readBytes s.bytes (src + offset) 1))
    have heq : (s.write (dst + offset) (readBytes s.bytes (src + offset) 1)).write (dst + (offset + 1))
        (readBytes (s.write (dst + offset) (readBytes s.bytes (src + offset) 1)).bytes (src + (offset + 1)) n) =
        s.write (dst + offset) (readBytes s.bytes (src + offset) (n + 1)) := by
      have hrest : readBytes (writeBytes s.bytes (dst + offset) [s.bytes (src + offset)]) (src + (offset + 1)) n =
          readBytes s.bytes (src + (offset + 1)) n :=
        readBytes_congr fun i hi => writeBytes_of_not_mem (by simp only [List.length_singleton]; omega)
      rw [hone,readBytes_succ,write,write,write,hrest,← Nat.add_assoc,← Nat.add_assoc,← writeBytes_cons]
    rwa [heq] at htail

theorem does_memcmp {p q : ℕ} (hp : p ∈ ptrs) (hq : q ∈ ptrs) (offset n : ℕ) (h : offset + n ≤ size) (s : Store) :
    Does ptrs size (memcmp p q offset n) s
      (decide (readBytes s.bytes (p + offset) n = readBytes s.bytes (q + offset) n)) s := by
  induction n generalizing offset with
  | zero =>
    have htrue : decide (readBytes s.bytes (p + offset) 0 = readBytes s.bytes (q + offset) 0) = true :=
      decide_eq_true rfl
    rw [htrue]
    exact does_ret true
  | succ n ih =>
    rw [memcmp]
    refine (does_load hp (by omega)).bind ((does_load hq (by omega)).bind ?_)
    have hp : readBytes s.bytes (p + offset) 1 = [s.bytes (p + offset)] := rfl
    have hq : readBytes s.bytes (q + offset) 1 = [s.bytes (q + offset)] := rfl
    rw [hp,hq,readBytes_succ,readBytes_succ]
    by_cases hb : s.bytes (p + offset) = s.bytes (q + offset)
    · rw [hb,if_pos rfl]
      have htail := ih (offset + 1) (by omega)
      rw [← Nat.add_assoc,← Nat.add_assoc] at htail
      have hcons : ∀ xs ys : List Byte, decide (s.bytes (q + offset) :: xs = s.bytes (q + offset) :: ys) =
          decide (xs = ys) := fun xs ys => decide_eq_decide.mpr (List.cons_eq_cons.trans (and_iff_right rfl))
      rwa [hcons]
    · have hne : [s.bytes (p + offset)] ≠ [s.bytes (q + offset)] := fun he => hb (List.cons.inj he).1
      have hfalse : decide (s.bytes (p + offset) :: readBytes s.bytes (p + offset + 1) n =
          s.bytes (q + offset) :: readBytes s.bytes (q + offset + 1) n) = false :=
        decide_eq_false fun he => hb (List.cons.inj he).1
      rw [if_neg hne,hfalse]
      exact does_ret false

end Steps

/-! ## The operations and their effect -/

/-- An operation with pointers to its operands. -/
inductive Call
  | load (dest : ℕ)
  | store (src : ℕ)
  | exchange (val old : ℕ)
  | compareExchange (expected desired : ℕ)

namespace Call

def operands : Call → List ℕ
  | .load dest => [dest]
  | .store src => [src]
  | .exchange val old => [val,old]
  | .compareExchange expected desired => [expected,desired]

/-- The generic operation. -/
def generic (T : Target) (size ptr : ℕ) : Call → Program Bool
  | .load dest => do
    atomicLoadC T size ptr dest
    return true
  | .store src => do
    atomicStoreC T size ptr src
    return true
  | .exchange val old => do
    atomicExchangeC T size ptr val old
    return true
  | .compareExchange expected desired => atomicCompareExchangeC T size ptr expected desired

/-- The sized operation, with its operands fetched and its result stored. -/
def sized (T : Target) (n ptr : ℕ) : Call → Program Bool
  | .load dest => do
    let v ← atomicLoadN T n ptr
    Atomic.store dest 0 v
    return true
  | .store src => do
    let v ← Atomic.load src 0 n
    atomicStoreN T n ptr v
    return true
  | .exchange val old => do
    let v ← Atomic.load val 0 n
    let o ← atomicExchangeN T n ptr v
    Atomic.store old 0 o
    return true
  | .compareExchange expected desired => do
    let d ← Atomic.load desired 0 n
    atomicCompareExchangeN T n ptr expected d

/-- What an atomic operation on `size` bytes returns and leaves. -/
def effect (size ptr : ℕ) (m : ℕ → Byte) : Call → Bool × (ℕ → Byte)
  | .load dest => (true,writeBytes m dest (readBytes m ptr size))
  | .store src => (true,writeBytes m ptr (readBytes m src size))
  | .exchange val old =>
    (true,writeBytes (writeBytes m ptr (readBytes m val size)) old (readBytes m ptr size))
  | .compareExchange expected desired =>
    if readBytes m ptr size = readBytes m expected size then (true,writeBytes m ptr (readBytes m desired size))
    else (false,writeBytes m expected (readBytes m ptr size))

/-- Each operand lies apart from the object or is the object. -/
def Separate (size ptr : ℕ) (c : Call) : Prop := ∀ p ∈ c.operands, p = ptr ∨ p + size ≤ ptr ∨ ptr + size ≤ p

end Call

/-- The program has the effect of the operation, touches only the object and the operands, and leaves the locks alone. -/
def HasEffect (size ptr : ℕ) (c : Call) (p : Program Bool) (s : Store) : Prop :=
  Does (ptr :: c.operands) size p s (c.effect size ptr s.bytes).1 ⟨(c.effect size ptr s.bytes).2,s.locked⟩

section Hardware
variable {ptrs : List ℕ} {size p : ℕ} {s : Store}

theorem does_c11Load (hp : p ∈ ptrs) : Does ptrs size (c11Load p size) s (readBytes s.bytes p size) s := by
  have h : s.write p (id (readBytes s.bytes p size)) = s := by rw [write,id,writeBytes_readBytes]
  refine does_atomic hp (Nat.le_refl _) ?_
  rw [h]
  exact does_ret _

theorem does_c11Exchange (hp : p ∈ ptrs) (bs : List Byte) :
    Does ptrs size (c11Exchange p size bs) s (readBytes s.bytes p size) (s.write p bs) :=
  does_atomic hp (Nat.le_refl _) (does_ret _)

theorem does_c11Store (hp : p ∈ ptrs) (bs : List Byte) : Does ptrs size (c11Store p size bs) s () (s.write p bs) :=
  does_atomic hp (Nat.le_refl _) (does_ret _)

theorem does_c11CompareExchange {expected desired : ℕ} :
    HasEffect size p (.compareExchange expected desired)
      (c11CompareExchange p size expected (readBytes s.bytes desired size)) s := by
  have hptr : p ∈ p :: (Call.compareExchange expected desired).operands := List.mem_cons_self
  have hexpected : expected ∈ p :: (Call.compareExchange expected desired).operands :=
    List.mem_cons_of_mem _ List.mem_cons_self
  refine (does_load hexpected (Nat.le_of_eq (Nat.zero_add size))).bind ?_
  rw [Nat.add_zero]
  dsimp only [Call.effect]
  by_cases h : readBytes s.bytes p size = readBytes s.bytes expected size
  · rw [if_pos h]
    refine Does.bind (does_atomic hptr (Nat.le_refl _) (does_ret _)) ?_
    rw [if_pos h,if_pos h]
    exact does_ret true
  · rw [if_neg h]
    refine Does.bind (does_atomic hptr (Nat.le_refl _) (does_ret _)) ?_
    have hsame : s.write p (readBytes s.bytes p size) = s := by rw [write,writeBytes_readBytes]
    rw [if_neg h,if_neg h,hsame]
    refine (does_store hexpected (by rw [length_readBytes,Nat.zero_add])).bind ?_
    exact does_ret false

/-- The end of a critical section that took the free lock. -/
theorem does_unlock_ret {α : Type} {l : ℕ} (hl : s.locked l = false) (bytes : ℕ → Byte) (a : α) :
    Does ptrs size (do unlock l; return a) ⟨bytes,(s.setLock l true).locked⟩ a ⟨bytes,s.locked⟩ := by
  refine (does_unlock l).bind ?_
  rw [setLock_setLock hl]
  exact does_ret a

end Hardware

section Sized
variable {T : Target} {size ptr : ℕ} {s : Store}

/-- Each sized operation has the effect, with the hardware or with the lock. -/
theorem sized_hasEffect (hlock : s.locked (lockForPointer T ptr) = false) (c : Call) :
    HasEffect size ptr c (c.sized T size ptr) s := by
  have hptr : ptr ∈ ptr :: c.operands := List.mem_cons_self
  cases c with
  | load dest =>
    have hdest : dest ∈ ptr :: (Call.load dest).operands := List.mem_cons_of_mem _ List.mem_cons_self
    have hload : Does (ptr :: (Call.load dest).operands) size (atomicLoadN T size ptr) s
        (readBytes s.bytes ptr size) s := by
      rw [atomicLoadN]
      split
      · exact does_c11Load hptr
      · exact (does_lock hlock).bind ((does_load hptr (Nat.zero_add size).le).bind (does_unlock_ret hlock _ _))
    exact hload.bind ((does_store hdest (by rw [length_readBytes,Nat.zero_add])).bind (does_ret true))
  | store src =>
    have hsrc : src ∈ ptr :: (Call.store src).operands := List.mem_cons_of_mem _ List.mem_cons_self
    have hstore : Does (ptr :: (Call.store src).operands) size (atomicStoreN T size ptr (readBytes s.bytes src size)) s
        () (s.write ptr (readBytes s.bytes src size)) := by
      rw [atomicStoreN]
      split
      · exact does_c11Store hptr _
      · exact (does_lock hlock).bind ((does_store hptr (by rw [length_readBytes,Nat.zero_add])).bind
          (does_unlock_ret hlock _ ()))
    exact (does_load hsrc (Nat.zero_add size).le).bind (hstore.bind (does_ret true))
  | exchange val old =>
    have hval : val ∈ ptr :: (Call.exchange val old).operands := List.mem_cons_of_mem _ List.mem_cons_self
    have hold : old ∈ ptr :: (Call.exchange val old).operands :=
      List.mem_cons_of_mem _ (List.mem_cons_of_mem _ List.mem_cons_self)
    have hexchange : Does (ptr :: (Call.exchange val old).operands) size
        (atomicExchangeN T size ptr (readBytes s.bytes val size)) s (readBytes s.bytes ptr size)
        (s.write ptr (readBytes s.bytes val size)) := by
      rw [atomicExchangeN]
      split
      · exact does_c11Exchange hptr _
      · exact (does_lock hlock).bind ((does_load hptr (Nat.zero_add size).le).bind
          ((does_store hptr (by rw [length_readBytes,Nat.zero_add])).bind (does_unlock_ret hlock _ _)))
    exact (does_load hval (Nat.zero_add size).le).bind (hexchange.bind
      ((does_store hold (by rw [length_readBytes,Nat.zero_add])).bind (does_ret true)))
  | compareExchange expected desired =>
    have hexpected : expected ∈ ptr :: (Call.compareExchange expected desired).operands :=
      List.mem_cons_of_mem _ List.mem_cons_self
    have hdesired : desired ∈ ptr :: (Call.compareExchange expected desired).operands :=
      List.mem_cons_of_mem _ (List.mem_cons_of_mem _ List.mem_cons_self)
    refine (does_load hdesired (Nat.zero_add size).le).bind ?_
    rw [atomicCompareExchangeN,Nat.add_zero]
    split
    · exact does_c11CompareExchange
    · refine (does_lock hlock).bind ((does_load hptr (Nat.zero_add size).le).bind
        ((does_load hexpected (Nat.zero_add size).le).bind ?_))
      have hv : readBytes (s.setLock (lockForPointer T ptr) true).bytes (ptr + 0) size = readBytes s.bytes ptr size := rfl
      have he : readBytes (s.setLock (lockForPointer T ptr) true).bytes (expected + 0) size =
          readBytes s.bytes expected size := rfl
      simp only [hv,he,Call.effect]
      split
      · exact (does_store hptr (by rw [length_readBytes,Nat.zero_add])).bind (does_unlock_ret hlock _ _)
      · exact (does_load hptr (Nat.zero_add size).le).bind
          ((does_store hexpected (by rw [length_readBytes,Nat.zero_add])).bind (does_unlock_ret hlock _ _))

end Sized
end CompilerRt.Atomic
