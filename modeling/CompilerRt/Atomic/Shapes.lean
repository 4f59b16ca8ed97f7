import CompilerRt.Atomic.Generic
import CompilerRt.Atomic.Threads

/-! # The programs of the operations

A call works on the thread's operands, makes one access to the object, and works on the operands again. The access is a
critical section or an atomic operation, as the mechanism of the entry point has it. Run by itself the program does
what the specification says.
-/
namespace CompilerRt.Atomic
open ByteOrder Store Program

/-! ## Shapes -/

section Shapes
variable {ok : ℕ → Prop} {l p q o : ℕ}

theorem plain_load (n : ℕ) (h : ok (p + o)) : Plain ok (Atomic.load p o n) := ⟨h,fun _ => trivial⟩

theorem plain_store (bs : List Byte) (h : ok (p + o)) : Plain ok (Atomic.store p o bs) := ⟨h,trivial⟩

theorem plain_memcpy (offset n : ℕ) : Plain (fun _ => True) (memcpy p q offset n) := by
  induction n generalizing offset with
  | zero => trivial
  | succ n ih => exact (plain_load 1 trivial).bind fun _ => (plain_store _ trivial).bind fun _ => ih (offset + 1)

theorem plain_memcmp (offset n : ℕ) : Plain (fun _ => True) (memcmp p q offset n) := by
  induction n generalizing offset with
  | zero => trivial
  | succ n ih =>
    refine (plain_load 1 trivial).bind fun a => (plain_load 1 trivial).bind fun b => ?_
    split
    · exact ih (offset + 1)
    · trivial

theorem inside_load {α : Type} {g : List Byte → Program α} (n : ℕ) (hg : ∀ v, Inside ok l (g v)) :
    Inside ok l (Atomic.load p o n >>= g) := hg

theorem inside_store {α : Type} {g : Unit → Program α} (bs : List Byte) (hg : Inside ok l (g ())) :
    Inside ok l (Atomic.store p o bs >>= g) := hg

theorem inside_unlock {α : Type} (a : α) : Inside ok l (do unlock l; return a) := ⟨rfl,trivial⟩

theorem before_c11CompareExchange {n : ℕ} {desired : List Byte} (h : ok (q + 0)) :
    Before ok none (c11CompareExchange p n q desired) := by
  refine (plain_load n h).bind_before fun e => ⟨rfl,fun old => ?_⟩
  change Plain ok (if old = e then pure true else _)
  split
  · trivial
  · exact (plain_store old h).bind fun _ => trivial

variable {T : Target} {size ptr : ℕ}

/-- The lock that is taken, if the mechanism is one. -/
def Mechanism.lock? (l : ℕ) : Mechanism → Option ℕ
  | .lock => some l
  | .hardware _ => none

/-- All but the store, which also reads the object. -/
theorem generic_before {c : Call} (hstore : ∀ src, c ≠ .store src) (hc : ∀ p ∈ c.operands, ok (p + 0)) :
    Before ok (((lockFreeWidth T size).elim Mechanism.lock .hardware).lock? (lockForPointer T ptr))
      (c.generic T size ptr) := by
  cases c with
  | load dest =>
    dsimp only [Call.generic]
    rw [atomicLoadC,lockFreeCases_eq]
    refine Before.bind ?_ fun _ => trivial
    cases lockFreeWidth T size with
    | none => exact ⟨rfl,(plain_memcpy 0 size).bind_inside fun _ => inside_unlock ()⟩
    | some w => exact ⟨rfl,fun v => plain_store v (hc dest List.mem_cons_self)⟩
  | store src => exact absurd rfl (hstore src)
  | exchange val old =>
    dsimp only [Call.generic]
    rw [atomicExchangeC,lockFreeCases_eq]
    refine Before.bind ?_ fun _ => trivial
    cases lockFreeWidth T size with
    | none =>
      exact ⟨rfl,(plain_memcpy 0 size).bind_inside fun _ => (plain_memcpy 0 size).bind_inside fun _ => inside_unlock ()⟩
    | some w =>
      refine (plain_load w (hc val List.mem_cons_self)).bind_before fun v => ⟨rfl,fun o => ?_⟩
      exact plain_store o (hc old (List.mem_cons_of_mem _ List.mem_cons_self))
  | compareExchange expected desired =>
    dsimp only [Call.generic]
    rw [atomicCompareExchangeC,lockFreeCases_eq]
    cases lockFreeWidth T size with
    | none =>
      refine ⟨rfl,(plain_memcmp 0 size).bind_inside fun b => ?_⟩
      split
      · exact (plain_memcpy 0 size).bind_inside fun _ => inside_unlock true
      · exact (plain_memcpy 0 size).bind_inside fun _ => inside_unlock false
    | some w =>
      refine (plain_load w (hc desired (List.mem_cons_of_mem _ List.mem_cons_self))).bind_before fun d => ?_
      exact before_c11CompareExchange (hc expected List.mem_cons_self)

theorem sized_before {c : Call} (hc : ∀ p ∈ c.operands, ok (p + 0)) :
    Before ok ((if T.isLockFree size then Mechanism.hardware size else .lock).lock? (lockForPointer T ptr))
      (c.sized T size ptr) := by
  cases c with
  | load dest =>
    refine Before.bind ?_ fun v => (plain_store v (hc dest List.mem_cons_self)).bind fun _ => trivial
    rw [atomicLoadN]
    split
    · exact ⟨rfl,fun _ => trivial⟩
    · exact ⟨rfl,inside_load size fun v => inside_unlock v⟩
  | store src =>
    refine (plain_load size (hc src List.mem_cons_self)).bind_before fun v => Before.bind ?_ fun _ => trivial
    rw [atomicStoreN]
    split
    · exact ⟨rfl,fun _ => trivial⟩
    · exact ⟨rfl,inside_store v (inside_unlock ())⟩
  | exchange val old =>
    refine (plain_load size (hc val List.mem_cons_self)).bind_before fun v => Before.bind ?_ fun o =>
      (plain_store o (hc old (List.mem_cons_of_mem _ List.mem_cons_self))).bind fun _ => trivial
    rw [atomicExchangeN]
    split
    · exact ⟨rfl,fun _ => trivial⟩
    · exact ⟨rfl,inside_load size fun tmp => inside_store v (inside_unlock tmp)⟩
  | compareExchange expected desired =>
    refine (plain_load size (hc desired (List.mem_cons_of_mem _ List.mem_cons_self))).bind_before fun d => ?_
    rw [atomicCompareExchangeN]
    split
    · exact before_c11CompareExchange (hc expected List.mem_cons_self)
    · refine ⟨rfl,inside_load size fun v => inside_load size fun e => ?_⟩
      split
      · exact inside_store d (inside_unlock true)
      · exact inside_load size fun v => inside_store v (inside_unlock false)

theorem fetch_before (op : FetchOp) (val : List Byte) :
    Before ok ((if T.isLockFree size then Mechanism.hardware size else .lock).lock? (lockForPointer T ptr))
      (atomicFetchN T op size ptr val) := by
  rw [atomicFetchN]
  split
  · exact ⟨rfl,fun _ => trivial⟩
  · exact ⟨rfl,inside_load size fun tmp => inside_store _ (inside_unlock tmp)⟩

end Shapes

section Entries
variable {S : Setting}

/-- The lock of the object. -/
def Setting.lock (S : Setting) : ℕ := lockForPointer S.T S.ptr

theorem first_own : S.stack ≤ S.first + 0 := Nat.le_refl _

theorem second_own : S.stack ≤ S.second + 0 := Nat.le_add_right _ _

/-- The generic store is not among the operations. -/
theorem call_before {e : Entry} {c : Call} (hstore : e = .generic → ∀ src, c ≠ .store src)
    (hc : ∀ p ∈ c.operands, S.stack ≤ p + 0) :
    Before (S.stack ≤ ·) ((e.mechanism S).lock? S.lock) (e.call S c) := by
  cases e with
  | generic => exact generic_before (hstore rfl) hc
  | sized => exact sized_before hc

theorem program_before {e : Entry} {op : Operation S.size} (ho : e.Offers S op) :
    Before (S.stack ≤ ·) ((e.mechanism S).lock? S.lock) (e.program S op) := by
  have hone : ∀ p ∈ [S.first], S.stack ≤ p + 0 := fun p hp => by
    rw [List.mem_singleton.mp hp]
    exact first_own
  have htwo : ∀ p ∈ [S.first,S.second], S.stack ≤ p + 0 := fun p hp => by
    rcases List.mem_cons.mp hp with rfl | hp
    · exact first_own
    · rw [List.mem_singleton.mp hp]
      exact second_own
  cases op with
  | load =>
    refine (call_before (c := .load S.first) (fun _ _ => nofun) hone).bind fun _ => ?_
    exact (plain_load S.size first_own).bind fun _ => trivial
  | store val =>
    have hstore : e = .generic → ∀ src, Call.store S.first ≠ .store src := fun he => by
      subst he
      exact ho.elim
    exact (plain_store val.1 first_own).bind_before fun _ => (call_before hstore hone).bind fun _ => trivial
  | exchange val =>
    refine (plain_store val.1 first_own).bind_before fun _ =>
      (call_before (c := .exchange S.first S.second) (fun _ _ => nofun) htwo).bind fun _ => ?_
    exact (plain_load S.size second_own).bind fun _ => trivial
  | compareExchange expected desired =>
    refine (plain_store expected.1 first_own).bind_before fun _ => (plain_store desired.1 second_own).bind_before fun _ =>
      (call_before (c := .compareExchange S.first S.second) (fun _ _ => nofun) htwo).bind fun _ => ?_
    exact (plain_load S.size first_own).bind fun _ => trivial
  | fetch op val =>
    cases e with
    | generic => exact ho.elim
    | sized => exact (fetch_before op val.1).bind fun _ => trivial

/-! ## The programs by themselves -/

theorem Does.result {α : Type} {ptrs : List ℕ} {size : ℕ} {p : Program α} {s s' : Store} {a : α}
    (h : Does ptrs size p s a s') : p.result s = some (a,s') := by
  obtain ⟨xs,hrun,-⟩ := h
  rw [Program.result,hrun]
  rfl

section Calls
variable {e : Entry} {s : Store} (hm : e.mechanism S = .lock ∨ e.mechanism S = .hardware S.size)
  (hlock : s.locked S.lock = false)
include hm hlock

/-- With the lock or with the object's own width. -/
theorem call_hasEffect {c : Call} (hstore : e = .generic → ∀ src, c ≠ .store src)
    (hc : ∀ p ∈ c.operands, S.stack ≤ p) (hexchange : ∀ val old, c = .exchange val old → val + S.size ≤ old) :
    HasEffect S.size S.ptr c (e.call S c) s := by
  cases e with
  | sized => exact sized_hasEffect hlock c
  | generic =>
    have hsep : c.Separate S.size S.ptr := fun p hp => Or.inr (Or.inr (S.below.trans (hc p hp)))
    have hwidth : lockFreeWidth S.T S.size = none ∨ lockFreeWidth S.T S.size = some S.size := by
      revert hm
      dsimp only [Entry.mechanism]
      cases lockFreeWidth S.T S.size with
      | none => exact fun _ => Or.inl rfl
      | some w => exact fun h => Or.inr (congrArg some (h.elim (fun h => nomatch h) Mechanism.hardware.inj))
    rcases hwidth with hw | hw
    · cases c with
      | load dest => exact load_locked hw hlock hsep
      | store src => exact absurd rfl (hstore rfl src)
      | exchange val old =>
        have hapart := hexchange val old rfl
        have hold := hc old (List.mem_cons_of_mem _ List.mem_cons_self)
        have hbelow := S.below
        refine (exchange_locked_iff hw hlock hsep).mpr ⟨fun he => ?_,fun i hi j _ hij => by omega⟩
        have hsize : S.size = 0 := by omega
        rw [hsize]
        rfl
      | compareExchange expected desired => exact compareExchange_locked hw hlock hsep
    · cases c with
      | load dest => exact load_hardware hw
      | store src => exact absurd rfl (hstore rfl src)
      | exchange val old => exact exchange_hardware hw
      | compareExchange expected desired => exact compareExchange_hardware hw

end Calls

theorem fetch_does {ptrs : List ℕ} {s : Store} (hptr : S.ptr ∈ ptrs) (hlock : s.locked S.lock = false) (op : FetchOp)
    (val : List Byte) : Does ptrs S.size (atomicFetchN S.T op S.size S.ptr val) s (object S s)
      (s.write S.ptr (op.apply S.T S.size (object S s) val)) := by
  rw [atomicFetchN]
  split
  · exact does_atomic hptr (Nat.le_refl _) (does_ret _)
  · have hlen : (op.apply S.T S.size (object S s) val).length = S.size := length_toBytes _ _ _
    exact (does_lock hlock).bind ((does_load hptr (Nat.zero_add _).le).bind
      ((does_store hptr (by rw [Nat.zero_add]; exact hlen.le)).bind (does_unlock_ret hlock _ _)))

section Operands
variable {ptrs : List ℕ} {p size : ℕ}

theorem does_fetch_operand {s : Store} {v : List Byte} (hp : p ∈ ptrs) (hv : readBytes s.bytes p size = v) :
    Does ptrs size (Atomic.load p 0 size) s v s := by
  subst hv
  exact does_load hp (Nat.zero_add _).le

theorem does_fill_operand (hp : p ∈ ptrs) (v : Value size) (s : Store) :
    Does ptrs size (Atomic.store p 0 v.1) s () (s.write p v.1) :=
  does_store hp (by rw [Nat.zero_add]; exact v.2.le)

/-- The operand is read back. -/
theorem readBytes_write (s : Store) (v : Value size) : readBytes (s.write p v.1).bytes p size = v.1 := by
  have h := readBytes_writeBytes s.bytes p v.1
  rwa [v.2] at h

theorem readBytes_write_of_disjoint {s : Store} {q : ℕ} {v : Value size} (h : q + size ≤ p ∨ p + size ≤ q) :
    readBytes (s.write p v.1).bytes q size = readBytes s.bytes q size :=
  readBytes_writeBytes_of_disjoint (by rw [v.2]; exact h)

end Operands

/-- The program by itself does what the specification says. -/
theorem program_result {e : Entry} {op : Operation S.size} {s : Store}
    (hm : e.mechanism S = .lock ∨ e.mechanism S = .hardware S.size) (ho : e.Offers S op)
    (hlock : s.locked S.lock = false) :
    ∃ s', (e.program S op).result s = some ((spec S.T (object S s) op).2,s') ∧
      object S s' = (spec S.T (object S s) op).1 := by
  have hbelow := S.below
  have hone : ∀ p ∈ [S.first], S.stack ≤ p := fun p hp => (List.mem_singleton.mp hp).ge
  have htwo : ∀ p ∈ [S.first,S.second], S.stack ≤ p := fun p hp => by
    rcases List.mem_cons.mp hp with rfl | hp
    · exact Nat.le_refl _
    · exact (Nat.le_add_right _ _).trans (List.mem_singleton.mp hp).ge
  have hnext : ∀ val old, Call.exchange S.first S.second = .exchange val old → val + S.size ≤ old := by
    intro val old he
    cases he
    exact Nat.le_refl _
  have hfirst : S.ptr + S.size ≤ S.first := S.below
  have hsecond : S.first + S.size ≤ S.second := Nat.le_refl _
  let bytesOf : (ℕ → Byte) → ℕ → Value S.size := fun m a => ⟨readBytes m a S.size,length_readBytes m a _⟩
  cases op with
  | load =>
    let s₁ := s.write S.first (bytesOf s.bytes S.ptr).1
    have hcall : Does [S.ptr,S.first] S.size (e.call S (.load S.first)) s true s₁ :=
      call_hasEffect hm hlock (fun _ _ => nofun) hone (fun _ _ => nofun)
    have hload : Does [S.ptr,S.first] S.size (Atomic.load S.first 0 S.size) s₁ (object S s) s₁ :=
      does_fetch_operand (List.mem_cons_of_mem _ List.mem_cons_self) (readBytes_write s _)
    refine ⟨s₁,(hcall.bind (hload.bind (does_ret (Response.value _)))).result,?_⟩
    exact readBytes_write_of_disjoint (Or.inl hfirst)
  | store val =>
    let s₁ := s.write S.first val.1
    have hstore : e = .generic → ∀ src, Call.store S.first ≠ .store src := fun he => by
      subst he
      exact ho.elim
    have hfill : Does [S.ptr,S.first] S.size (Atomic.store S.first 0 val.1) s () s₁ :=
      does_fill_operand (List.mem_cons_of_mem _ List.mem_cons_self) val s
    have hcall : Does [S.ptr,S.first] S.size (e.call S (.store S.first)) s₁ true
        (s₁.write S.ptr (readBytes s₁.bytes S.first S.size)) :=
      call_hasEffect (s := s₁) (c := .store S.first) hm hlock hstore hone (fun _ _ => nofun)
    rw [readBytes_write] at hcall
    exact ⟨_,(hfill.bind (hcall.bind (does_ret Response.stored))).result,readBytes_write s₁ val⟩
  | exchange val =>
    let s₁ := s.write S.first val.1
    let s₂ := (s₁.write S.ptr val.1).write S.second (bytesOf s₁.bytes S.ptr).1
    have hv : readBytes s₁.bytes S.ptr S.size = object S s := readBytes_write_of_disjoint (Or.inl hfirst)
    have hfill : Does [S.ptr,S.first,S.second] S.size (Atomic.store S.first 0 val.1) s () s₁ :=
      does_fill_operand (List.mem_cons_of_mem _ List.mem_cons_self) val s
    have hcall : Does [S.ptr,S.first,S.second] S.size (e.call S (.exchange S.first S.second)) s₁ true
        ((s₁.write S.ptr (readBytes s₁.bytes S.first S.size)).write S.second (readBytes s₁.bytes S.ptr S.size)) :=
      call_hasEffect (s := s₁) (c := .exchange S.first S.second) hm hlock (fun _ _ => nofun) htwo hnext
    rw [readBytes_write] at hcall
    have hload : Does [S.ptr,S.first,S.second] S.size (Atomic.load S.second 0 S.size) s₂ (object S s) s₂ :=
      does_fetch_operand (List.mem_cons_of_mem _ (List.mem_cons_of_mem _ List.mem_cons_self))
        ((readBytes_write _ (bytesOf s₁.bytes S.ptr)).trans hv)
    refine ⟨s₂,(hfill.bind (hcall.bind (hload.bind (does_ret (Response.value _))))).result,?_⟩
    have hkept : object S s₂ = readBytes (s₁.write S.ptr val.1).bytes S.ptr S.size :=
      readBytes_write_of_disjoint (Or.inl (by omega))
    exact hkept.trans (readBytes_write s₁ val)
  | compareExchange expected desired =>
    let s₁ := (s.write S.first expected.1).write S.second desired.1
    have hv : readBytes s₁.bytes S.ptr S.size = object S s :=
      (readBytes_write_of_disjoint (Or.inl (by omega))).trans (readBytes_write_of_disjoint (Or.inl hfirst))
    have hexpected : readBytes s₁.bytes S.first S.size = expected.1 :=
      (readBytes_write_of_disjoint (Or.inl hsecond)).trans (readBytes_write s expected)
    have hdesired : readBytes s₁.bytes S.second S.size = desired.1 := readBytes_write _ desired
    have hmem₁ : S.first ∈ [S.ptr,S.first,S.second] := List.mem_cons_of_mem _ List.mem_cons_self
    have hmem₂ : S.second ∈ [S.ptr,S.first,S.second] :=
      List.mem_cons_of_mem _ (List.mem_cons_of_mem _ List.mem_cons_self)
    have hcall : HasEffect S.size S.ptr (.compareExchange S.first S.second)
        (e.call S (.compareExchange S.first S.second)) s₁ :=
      call_hasEffect (s := s₁) (c := .compareExchange S.first S.second) hm hlock (fun _ _ => nofun) htwo (fun _ _ => nofun)
    have hfill : Does [S.ptr,S.first,S.second] S.size
        (do Atomic.store S.first 0 expected.1; Atomic.store S.second 0 desired.1) s () s₁ :=
      (does_fill_operand hmem₁ expected s).bind (does_fill_operand hmem₂ desired _)
    dsimp only [HasEffect,Call.effect] at hcall
    rw [hv,hexpected,hdesired] at hcall
    dsimp only [spec]
    by_cases heq : object S s = expected.1
    · rw [if_pos heq] at hcall ⊢
      have hdone : Does [S.ptr,S.first,S.second] S.size (e.call S (.compareExchange S.first S.second)) s₁ true
        (s₁.write S.ptr desired.1) := hcall
      have hload : Does [S.ptr,S.first,S.second] S.size (Atomic.load S.first 0 S.size) (s₁.write S.ptr desired.1)
          (object S s) (s₁.write S.ptr desired.1) :=
        does_fetch_operand hmem₁ ((readBytes_write_of_disjoint (Or.inr hfirst)).trans (hexpected.trans heq.symm))
      exact ⟨_,(hfill.bind (hdone.bind (hload.bind (does_ret (Response.compared true _))))).result,
        readBytes_write s₁ desired⟩
    · rw [if_neg heq] at hcall ⊢
      have hdone : Does [S.ptr,S.first,S.second] S.size (e.call S (.compareExchange S.first S.second)) s₁ false
        (s₁.write S.first (bytesOf s.bytes S.ptr).1) := hcall
      have hload : Does [S.ptr,S.first,S.second] S.size (Atomic.load S.first 0 S.size)
          (s₁.write S.first (bytesOf s.bytes S.ptr).1) (object S s) (s₁.write S.first (bytesOf s.bytes S.ptr).1) :=
        does_fetch_operand hmem₁ (readBytes_write s₁ (bytesOf s.bytes S.ptr))
      refine ⟨_,(hfill.bind (hdone.bind (hload.bind (does_ret (Response.compared false _))))).result,?_⟩
      exact (readBytes_write_of_disjoint (v := bytesOf s.bytes S.ptr) (Or.inl hfirst)).trans hv
  | fetch op val =>
    cases e with
    | generic => exact ho.elim
    | sized =>
      have hfetch : Does [S.ptr] S.size (atomicFetchN S.T op S.size S.ptr val.1) s (object S s)
          (s.write S.ptr (op.apply S.T S.size (object S s) val.1)) := fetch_does List.mem_cons_self hlock op val.1
      refine ⟨_,(hfetch.bind (does_ret (Response.value _))).result,?_⟩
      exact readBytes_write s ⟨_,length_toBytes _ _ _⟩

end Entries
end CompilerRt.Atomic
