import CompilerRt.Atomic.Sequential

/-! # When a generic operation does what the sized one does

With the lock a generic operation works on any size. With the hardware it works when the width is the size of the
object: a size that is not lock-free falls through to a wider one. The lock-free store writes the object to itself.
-/
namespace CompilerRt.Atomic
open ByteOrder Store

section Determinism
variable {α : Type} {ptrs : List ℕ} {size : ℕ} {p : Program α} {s s₁ s₂ : Store} {a b : α}

theorem Does.unique (h₁ : Does ptrs size p s a s₁) (h₂ : Does ptrs size p s b s₂) : a = b ∧ s₁ = s₂ := by
  obtain ⟨xs,h₁,-⟩ := h₁
  obtain ⟨ys,h₂,-⟩ := h₂
  cases h₁.symm.trans h₂
  exact ⟨rfl,rfl⟩

theorem not_does_load {base offset n : ℕ} {k : List Byte → Program α} (h : size < offset + n) :
    ¬Does ptrs size (.load base offset n k) s a s₁ := by
  rintro ⟨xs,hrun,hxs⟩
  obtain ⟨r,-,heq⟩ := Option.map_eq_some_iff.mp hrun
  cases heq
  have hle := (hxs ⟨base,offset,n⟩ List.mem_cons_self).2
  exact absurd hle (Nat.not_le.mpr h)

theorem not_does_atomic {base n : ℕ} {f : List Byte → List Byte} {k : List Byte → Program α} (h : size < n) :
    ¬Does ptrs size (.atomic base n f k) s a s₁ := by
  rintro ⟨xs,hrun,hxs⟩
  obtain ⟨r,-,heq⟩ := Option.map_eq_some_iff.mp hrun
  cases heq
  have hle := (hxs ⟨base,0,n⟩ List.mem_cons_self).2
  exact absurd ((Nat.zero_add n).ge.trans hle) (Nat.not_le.mpr h)

end Determinism

section Generic
variable {T : Target} {size ptr : ℕ} {s : Store}

/-- When a generic operation does what the sized one does, from the given memory. -/
def Meets (T : Target) (size ptr : ℕ) (m : ℕ → Byte) : Call → Prop
  | .load _ | .compareExchange _ _ => lockFreeWidth T size = none ∨ lockFreeWidth T size = some size
  | .store src => lockFreeWidth T size = none ∨
      lockFreeWidth T size = some size ∧ readBytes m src size = readBytes m ptr size
  | .exchange val old => lockFreeWidth T size = some size ∨ lockFreeWidth T size = none ∧
      (old = ptr → readBytes m val size = readBytes m ptr size) ∧
      ∀ i < size, ∀ j < size, val + i = old + j → m (val + i) = m (ptr + j)

/-! ## With the lock -/

theorem load_locked {dest : ℕ} (hw : lockFreeWidth T size = none) (hlock : s.locked (lockForPointer T ptr) = false)
    (hsep : (Call.load dest).Separate size ptr) : HasEffect size ptr (.load dest) ((Call.load dest).generic T size ptr) s := by
  have hptr : ptr ∈ ptr :: (Call.load dest).operands := List.mem_cons_self
  have hdest : dest ∈ ptr :: (Call.load dest).operands := List.mem_cons_of_mem _ List.mem_cons_self
  have hapart := hsep dest List.mem_cons_self
  dsimp only [Call.generic]
  rw [atomicLoadC,lockFreeCases_eq,hw]
  refine Does.bind (a := ()) ?_ (does_ret true)
  exact (does_lock hlock).bind ((does_memcpy hdest hptr 0 size (Nat.zero_add size).le (by omega) _).bind
    (does_unlock_ret hlock _ ()))

theorem store_locked {src : ℕ} (hw : lockFreeWidth T size = none) (hlock : s.locked (lockForPointer T ptr) = false)
    (hsep : (Call.store src).Separate size ptr) : HasEffect size ptr (.store src) ((Call.store src).generic T size ptr) s := by
  have hptr : ptr ∈ ptr :: (Call.store src).operands := List.mem_cons_self
  have hsrc : src ∈ ptr :: (Call.store src).operands := List.mem_cons_of_mem _ List.mem_cons_self
  have hapart := hsep src List.mem_cons_self
  dsimp only [Call.generic]
  rw [atomicStoreC,lockFreeCases_eq,hw]
  refine Does.bind (a := ()) ?_ (does_ret true)
  exact (does_lock hlock).bind ((does_memcpy hptr hsrc 0 size (Nat.zero_add size).le (by omega) _).bind
    (does_unlock_ret hlock _ ()))

theorem compareExchange_locked {expected desired : ℕ} (hw : lockFreeWidth T size = none)
    (hlock : s.locked (lockForPointer T ptr) = false) (hsep : (Call.compareExchange expected desired).Separate size ptr) :
    HasEffect size ptr (.compareExchange expected desired)
      ((Call.compareExchange expected desired).generic T size ptr) s := by
  have hptr : ptr ∈ ptr :: (Call.compareExchange expected desired).operands := List.mem_cons_self
  have hexpected : expected ∈ ptr :: (Call.compareExchange expected desired).operands :=
    List.mem_cons_of_mem _ List.mem_cons_self
  have hdesired : desired ∈ ptr :: (Call.compareExchange expected desired).operands :=
    List.mem_cons_of_mem _ (List.mem_cons_of_mem _ List.mem_cons_self)
  have hapart₁ := hsep expected List.mem_cons_self
  have hapart₂ := hsep desired (List.mem_cons_of_mem _ List.mem_cons_self)
  dsimp only [Call.generic]
  rw [atomicCompareExchangeC,lockFreeCases_eq,hw]
  refine (does_lock hlock).bind ((does_memcmp hptr hexpected 0 size (Nat.zero_add size).le _).bind ?_)
  have hbytes : ∀ p, readBytes (s.setLock (lockForPointer T ptr) true).bytes (p + 0) size = readBytes s.bytes p size :=
    fun _ => rfl
  rw [hbytes,hbytes]
  dsimp only [Call.effect]
  by_cases h : readBytes s.bytes ptr size = readBytes s.bytes expected size
  · rw [if_pos h,if_pos (decide_eq_true h)]
    exact (does_memcpy hptr hdesired 0 size (Nat.zero_add size).le (by omega) _).bind (does_unlock_ret hlock _ _)
  · rw [if_neg h,if_neg (by rw [decide_eq_false h]; exact Bool.false_ne_true)]
    exact (does_memcpy hexpected hptr 0 size (Nat.zero_add size).le (by omega) _).bind (does_unlock_ret hlock _ _)

/-- The old value is copied before the new one is fetched. -/
theorem exchange_locked {val old : ℕ} (hw : lockFreeWidth T size = none)
    (hlock : s.locked (lockForPointer T ptr) = false) (hsep : (Call.exchange val old).Separate size ptr) :
    Does (ptr :: (Call.exchange val old).operands) size ((Call.exchange val old).generic T size ptr) s true
      ⟨writeBytes (writeBytes s.bytes old (readBytes s.bytes ptr size)) ptr
        (readBytes (writeBytes s.bytes old (readBytes s.bytes ptr size)) val size),s.locked⟩ := by
  have hptr : ptr ∈ ptr :: (Call.exchange val old).operands := List.mem_cons_self
  have hval : val ∈ ptr :: (Call.exchange val old).operands := List.mem_cons_of_mem _ List.mem_cons_self
  have hold : old ∈ ptr :: (Call.exchange val old).operands :=
    List.mem_cons_of_mem _ (List.mem_cons_of_mem _ List.mem_cons_self)
  have hapart₁ := hsep val List.mem_cons_self
  have hapart₂ := hsep old (List.mem_cons_of_mem _ List.mem_cons_self)
  dsimp only [Call.generic]
  rw [atomicExchangeC,lockFreeCases_eq,hw]
  refine Does.bind (a := ()) ?_ (does_ret true)
  exact (does_lock hlock).bind ((does_memcpy hold hptr 0 size (Nat.zero_add size).le (by omega) _).bind
    ((does_memcpy hptr hval 0 size (Nat.zero_add size).le (by omega) _).bind (does_unlock_ret hlock _ ())))

theorem exchanged_iff {m : ℕ → Byte} {val old : ℕ} (hsep : (Call.exchange val old).Separate size ptr) :
    writeBytes (writeBytes m old (readBytes m ptr size)) ptr
        (readBytes (writeBytes m old (readBytes m ptr size)) val size) =
      writeBytes (writeBytes m ptr (readBytes m val size)) old (readBytes m ptr size) ↔
    (old = ptr → readBytes m val size = readBytes m ptr size) ∧
      ∀ i < size, ∀ j < size, val + i = old + j → m (val + i) = m (ptr + j) := by
  have hval := hsep val List.mem_cons_self
  have hold := hsep old (List.mem_cons_of_mem _ List.mem_cons_self)
  by_cases h : old = ptr
  · subst h
    have hlen : (readBytes m val size).length = (readBytes m old size).length := by simp only [length_readBytes]
    rw [writeBytes_readBytes,writeBytes_writeBytes m old hlen,writeBytes_readBytes]
    refine ⟨fun heq => ⟨fun _ => ?_,fun i hi j hj hij => ?_⟩,fun hboth => ?_⟩
    · exact writeBytes_inj (m := m) (a := old) hlen (heq.trans (writeBytes_readBytes m old size).symm)
    · rw [hij]
    · rw [hboth.1 rfl,writeBytes_readBytes]
  · -- the two writes are apart, so what counts is whether the copy of the old value has reached the new one
    have hlen : ∀ m', (readBytes m' val size).length = size := fun m' => length_readBytes m' val size
    rw [writeBytes_comm (a := ptr) (b := old) (by simp only [length_readBytes]; omega)]
    refine Iff.trans ⟨fun heq => writeBytes_inj (by rw [hlen,hlen]) heq,fun heq => by rw [heq]⟩ ?_
    rw [readBytes_inj]
    refine ⟨fun hread => ⟨fun he => absurd he h,fun i hi j hj hij => ?_⟩,fun hboth i hi => ?_⟩
    · have hw := hread i hi
      rw [hij,writeBytes_of_mem (by rwa [length_readBytes]),getD_readBytes m ptr hj] at hw
      rw [hij,hw]
    · by_cases hmem : old ≤ val + i ∧ val + i < old + size
      · obtain ⟨j,hj⟩ := Nat.exists_eq_add_of_le hmem.1
        have hlt : j < size := by omega
        rw [hj,writeBytes_of_mem (by rwa [length_readBytes]),getD_readBytes m ptr hlt,← hboth.2 i hi j hlt hj,hj]
      · exact writeBytes_of_not_mem (by rw [length_readBytes]; omega)

/-! ## With the hardware -/

theorem load_hardware {dest : ℕ} (hw : lockFreeWidth T size = some size) :
    HasEffect size ptr (.load dest) ((Call.load dest).generic T size ptr) s := by
  have hdest : dest ∈ ptr :: (Call.load dest).operands := List.mem_cons_of_mem _ List.mem_cons_self
  dsimp only [Call.generic]
  rw [atomicLoadC,lockFreeCases_eq,hw]
  refine Does.bind (a := ()) ?_ (does_ret true)
  exact (does_c11Load List.mem_cons_self).bind (does_store hdest (by rw [length_readBytes,Nat.zero_add]))

/-- The object is stored to itself. -/
theorem store_hardware {src : ℕ} (hw : lockFreeWidth T size = some size) :
    Does (ptr :: (Call.store src).operands) size ((Call.store src).generic T size ptr) s true s := by
  have hptr : ptr ∈ ptr :: (Call.store src).operands := List.mem_cons_self
  dsimp only [Call.generic]
  rw [atomicStoreC,lockFreeCases_eq,hw]
  refine Does.bind (a := ()) ?_ (does_ret true)
  have hstore : Does (ptr :: (Call.store src).operands) size (c11Store ptr size (readBytes s.bytes (ptr + 0) size)) s ()
      (s.write ptr (readBytes s.bytes (ptr + 0) size)) := does_c11Store hptr _
  rw [write,Nat.add_zero,writeBytes_readBytes] at hstore
  exact (does_load hptr (Nat.zero_add size).le).bind hstore

theorem exchange_hardware {val old : ℕ} (hw : lockFreeWidth T size = some size) :
    HasEffect size ptr (.exchange val old) ((Call.exchange val old).generic T size ptr) s := by
  have hval : val ∈ ptr :: (Call.exchange val old).operands := List.mem_cons_of_mem _ List.mem_cons_self
  have hold : old ∈ ptr :: (Call.exchange val old).operands :=
    List.mem_cons_of_mem _ (List.mem_cons_of_mem _ List.mem_cons_self)
  dsimp only [Call.generic]
  rw [atomicExchangeC,lockFreeCases_eq,hw]
  refine Does.bind (a := ()) ?_ (does_ret true)
  exact (does_load hval (Nat.zero_add size).le).bind ((does_c11Exchange List.mem_cons_self _).bind
    (does_store hold (by rw [length_readBytes,Nat.zero_add])))

theorem compareExchange_hardware {expected desired : ℕ} (hw : lockFreeWidth T size = some size) :
    HasEffect size ptr (.compareExchange expected desired)
      ((Call.compareExchange expected desired).generic T size ptr) s := by
  have hdesired : desired ∈ ptr :: (Call.compareExchange expected desired).operands :=
    List.mem_cons_of_mem _ (List.mem_cons_of_mem _ List.mem_cons_self)
  dsimp only [Call.generic]
  rw [atomicCompareExchangeC,lockFreeCases_eq,hw]
  exact (does_load hdesired (Nat.zero_add size).le).bind does_c11CompareExchange

/-- A wider access reaches beyond the object. -/
theorem not_hasEffect_wide {w : ℕ} (hw : lockFreeWidth T size = some w) (hne : w ≠ size) (c : Call) :
    ¬HasEffect size ptr c (c.generic T size ptr) s := by
  have hlt : size < w := Nat.lt_of_le_of_ne (le_lockFreeWidth T hw) hne.symm
  cases c with
  | load dest =>
    dsimp only [Call.generic]
    rw [atomicLoadC,lockFreeCases_eq,hw]
    exact not_does_atomic hlt
  | store src =>
    dsimp only [Call.generic]
    rw [atomicStoreC,lockFreeCases_eq,hw]
    exact not_does_load ((Nat.zero_add w).symm ▸ hlt)
  | exchange val old =>
    dsimp only [Call.generic]
    rw [atomicExchangeC,lockFreeCases_eq,hw]
    exact not_does_load ((Nat.zero_add w).symm ▸ hlt)
  | compareExchange expected desired =>
    dsimp only [Call.generic]
    rw [atomicCompareExchangeC,lockFreeCases_eq,hw]
    exact not_does_load ((Nat.zero_add w).symm ▸ hlt)

/-! ## The condition -/

theorem store_hardware_iff {src : ℕ} (hw : lockFreeWidth T size = some size) :
    HasEffect size ptr (.store src) ((Call.store src).generic T size ptr) s ↔
      readBytes s.bytes src size = readBytes s.bytes ptr size := by
  have hself : Does (ptr :: (Call.store src).operands) size ((Call.store src).generic T size ptr) s true s :=
    store_hardware hw
  constructor
  · intro h
    have hbytes := congrArg Store.bytes (hself.unique h).2
    have hread := readBytes_writeBytes s.bytes ptr (readBytes s.bytes src size)
    rw [length_readBytes] at hread
    exact hread.symm.trans (congrArg (readBytes · ptr size) hbytes.symm)
  · intro h
    have heq : writeBytes s.bytes ptr (readBytes s.bytes src size) = s.bytes := by rw [h,writeBytes_readBytes]
    dsimp only [HasEffect,Call.effect]
    rw [heq]
    exact hself

theorem exchange_locked_iff {val old : ℕ} (hw : lockFreeWidth T size = none)
    (hlock : s.locked (lockForPointer T ptr) = false) (hsep : (Call.exchange val old).Separate size ptr) :
    HasEffect size ptr (.exchange val old) ((Call.exchange val old).generic T size ptr) s ↔
      (old = ptr → readBytes s.bytes val size = readBytes s.bytes ptr size) ∧
        ∀ i < size, ∀ j < size, val + i = old + j → s.bytes (val + i) = s.bytes (ptr + j) := by
  have hdoes := exchange_locked hw hlock hsep
  rw [← exchanged_iff hsep]
  constructor
  · intro h
    exact congrArg Store.bytes (hdoes.unique h).2
  · intro h
    rwa [h] at hdoes

/-- A generic operation has the effect of the sized one exactly when it uses the lock or the width of the object, its
lock-free store stores what is there already, and its locked exchange does not overwrite the new value. -/
theorem generic_hasEffect_iff (T : Target) (size ptr : ℕ) (c : Call) (s : Store)
    (hlock : s.locked (lockForPointer T ptr) = false) (hsep : c.Separate size ptr) :
    HasEffect size ptr c (c.sized T size ptr) s ∧
      (HasEffect size ptr c (c.generic T size ptr) s ↔ Meets T size ptr s.bytes c) := by
  refine ⟨sized_hasEffect hlock c,?_⟩
  cases hw : lockFreeWidth T size with
  | none =>
    cases c with
    | load dest => exact iff_of_true (load_locked hw hlock hsep) (Or.inl hw)
    | store src => exact iff_of_true (store_locked hw hlock hsep) (Or.inl hw)
    | exchange val old =>
      rw [exchange_locked_iff hw hlock hsep]
      refine ⟨fun h => Or.inr ⟨hw,h⟩,fun h => ?_⟩
      rcases h with h | h
      · cases hw.symm.trans h
      · exact h.2
    | compareExchange expected desired => exact iff_of_true (compareExchange_locked hw hlock hsep) (Or.inl hw)
  | some w =>
    have hsome : lockFreeWidth T size ≠ none := by simp only [hw,ne_eq,reduceCtorEq,not_false_eq_true]
    by_cases hne : w = size
    · subst hne
      cases c with
      | load dest => exact iff_of_true (load_hardware hw) (Or.inr hw)
      | store src =>
        rw [store_hardware_iff hw]
        exact ⟨fun h => Or.inr ⟨hw,h⟩,fun h => (h.resolve_left hsome).2⟩
      | exchange val old => exact iff_of_true (exchange_hardware hw) (Or.inl hw)
      | compareExchange expected desired => exact iff_of_true (compareExchange_hardware hw) (Or.inr hw)
    · have hother : lockFreeWidth T size ≠ some size := fun h => hne (Option.some.inj (hw.symm.trans h))
      refine iff_of_false (not_hasEffect_wide hw hne c) fun h => ?_
      cases c with
      | load dest => exact h.elim hsome hother
      | store src => exact h.elim hsome fun h => hother h.1
      | exchange val old => exact h.elim hother fun h => hsome h.1
      | compareExchange expected desired => exact h.elim hsome hother

end Generic

/-- Each of the sizes is lock-free. -/
def allLockFree : Target := ⟨64,.little,fun n => n ∈ [1,2,4,8]⟩

theorem generic_hasEffect_iff_exchange :
    HasEffect 4 16 (.exchange 32 40) ((Call.exchange 32 40).sized allLockFree 4 16) ⟨fun _ => 0,fun _ => false⟩ ∧
      (HasEffect 4 16 (.exchange 32 40) ((Call.exchange 32 40).generic allLockFree 4 16) ⟨fun _ => 0,fun _ => false⟩ ↔
        Meets allLockFree 4 16 (fun _ => 0) (.exchange 32 40)) :=
  generic_hasEffect_iff allLockFree 4 16 (.exchange 32 40) ⟨fun _ => 0,fun _ => false⟩ rfl
    (fun p hp => by simp only [Call.operands,List.mem_cons,List.not_mem_nil,or_false] at hp; omega)

/-- The generic store of four bytes that are not the object's, with the hardware. -/
theorem not_hasEffect_store : (Call.store 32).Separate 4 16 ∧
    ¬HasEffect 4 16 (.store 32) ((Call.store 32).generic allLockFree 4 16)
      ⟨fun a => if a = 32 then 1 else 0,fun _ => false⟩ := by
  constructor
  · intro p hp
    simp only [Call.operands,List.mem_singleton] at hp
    omega
  · rw [store_hardware_iff (by decide)]
    decide

end CompilerRt.Atomic
