import CompilerRt.Lib.Transition
import CompilerRt.Tsan.Scan

/-! # Clock entries past the last thread id

A clock has entries for twice as many ids as there are threads, so that the id of a freed word can be looked
up. No operation ever writes these entries, whatever the ignore bits of the threads are.
-/
namespace CompilerRt.Tsan
open FastState

/-- Nothing is known of ids that no thread has. -/
def HighZero (f : ℕ → ℕ) : Prop := ∀ i, kMaxTid ≤ i → f i = 0

namespace HighZero
variable {f g : ℕ → ℕ}

theorem zero : HighZero 0 := fun _ _ => rfl

theorem sup (hf : HighZero f) (hg : HighZero g) : HighZero (f ⊔ g) := by
  intro i hi
  rw [Pi.sup_apply, hf i hi, hg i hi]
  rfl

theorem update (hf : HighZero f) {t : ℕ} (ht : t < kMaxTid) (v : ℕ) : HighZero (Function.update f t v) := by
  intro i hi
  rw [Function.update_of_ne (ht.trans_le hi).ne']
  exact hf i hi

end HighZero

/-- The word of thread `t` at epoch `e`, whether or not the thread ignores accesses. -/
def IsThreadWord (x : u64) (t e : ℕ) : Prop :=
  t < kMaxTid ∧ e < 2^kClkBits ∧ ∃ b ≤ 1, x.toNat = packed t e false 0 0 + b

section Word
variable {x y : u64} {t e : ℕ}

theorem IsFast.isThreadWord (h : IsFast x t e) : IsThreadWord x t e :=
  ⟨h.1,h.2.1,0,Nat.zero_le 1,h.2.2.trans (Nat.add_zero _).symm⟩

theorem IsThreadWord.epoch (h : IsThreadWord x t e) : FastState.epoch x = e := by
  obtain ⟨ht,he,b,hb,hx⟩ := h
  change t < 2^13 at ht
  change e < 2^43 at he
  unfold packed at hx
  simp only [Bool.toNat_false] at hx
  rw [epoch_eq]
  omega

theorem IsThreadWord.isFast (h : IsThreadWord x t e) (hi : GetIgnoreBit x = false) : IsFast x t e := by
  obtain ⟨ht,he,b,hb,hx⟩ := h
  have heven : x.toNat % 2 = 0 := by
    rw [GetIgnoreBit, bne_eq_false_iff_eq] at hi
    have hbit := (and_bit_eq_zero_iff x (n := 0) (by decide)).mp hi
    rwa [Nat.pow_zero, Nat.div_one] at hbit
  have hlow : packed t e false 0 0 % 2 = 0 := by
    unfold packed
    simp only [Bool.toNat_false]
    omega
  have hb0 : b = 0 := by
    generalize packed t e false 0 0 = p at hx hlow
    omega
  exact ⟨ht,he,by rw [hx, hb0, Nat.add_zero]⟩

theorem IsThreadWord.incrementEpoch (h : IsThreadWord x t e) (hi : IncrementEpoch x = some y) :
    IsThreadWord y t (e + 1) := by
  have hep := h.epoch
  obtain ⟨ht,he,b,hb,hx⟩ := h
  change t < 2^13 at ht
  change e < 2^43 at he
  unfold packed at hx
  simp only [Bool.toNat_false] at hx
  have hadd : (x + (1 : u64) <<< kClkShift).toNat = x.toNat + 128 := by
    rw [BitVec.toNat_add]
    exact Nat.mod_eq_of_lt (by change x.toNat + 128 < _; omega)
  unfold IncrementEpoch at hi
  dsimp only at hi
  split_ifs at hi with hc
  cases hi
  refine ⟨ht,?_,b,hb,?_⟩
  · rw [hep] at hc
    rw [hc, epoch_eq]
    change _ < 2^43
    omega
  · rw [hadd, packed]
    simp only [Bool.toNat_false]
    omega

end Word

structure ThreadState.Bounded (thr : ThreadState) (t : ℕ) : Prop where
  tid : thr.tid = t
  word : ∃ e, IsThreadWord thr.fast_state t e
  clock : HighZero thr.clock.clk_

namespace ThreadState.Bounded
variable {thr thr' : ThreadState} {t : ℕ}

theorem lt (h : thr.Bounded t) : t < kMaxTid := by
  obtain ⟨e,he⟩ := h.word
  exact he.1

theorem incrementEpoch (h : thr.Bounded t) (hi : thr.incrementEpoch = some thr') : thr'.Bounded t := by
  obtain ⟨x,hx,rfl⟩ := incrementEpoch_eq_some hi
  obtain ⟨e,he⟩ := h.word
  exact ⟨h.tid,⟨e + 1,he.incrementEpoch hx⟩,h.clock⟩

theorem setClock (h : thr.Bounded t) : thr.setClock.Bounded t := by
  refine ⟨h.tid,h.word,?_⟩
  rw [ThreadState.setClock, ThreadClock.clk_set]
  exact h.clock.update (h.tid ▸ h.lt) _

theorem setSynchEpoch (h : thr.Bounded t) : thr.setSynchEpoch.Bounded t := ⟨h.tid,h.word,h.clock⟩

theorem acquire (h : thr.Bounded t) {c : SyncClock} (hc : HighZero c.get) : (thr.acquire c).Bounded t := by
  refine ⟨h.tid,h.word,?_⟩
  rw [ThreadState.acquire, ThreadClock.clk_acquire]
  exact h.clock.sup hc

theorem release (h : thr.Bounded t) {c : SyncClock} (hc : HighZero c.get) : HighZero (thr.clock.release c).get := by
  rw [ThreadClock.get_release]
  exact hc.sup h.clock

theorem ReleaseStore (h : thr.Bounded t) (c : SyncClock) : HighZero (thr.clock.ReleaseStore c).get := by
  rw [ThreadClock.get_ReleaseStore]
  exact h.clock

end ThreadState.Bounded

structure ThreadContext.Bounded (tctx : ThreadContext) (t : ℕ) : Prop where
  tid : tctx.tid = t
  lt : t < kMaxTid
  sync : HighZero tctx.sync.get
  thr : ∀ thr, tctx.thr = some thr → thr.Bounded t

structure SyncVar.Bounded (v : SyncVar) : Prop where
  clock : HighZero v.clock.get
  read_clock : HighZero v.read_clock.get

structure State.Bounded (s : State) : Prop where
  context : ∀ t tctx, s.core t = some tctx → tctx.Bounded t
  sync : ∀ a, (s.synctab a).Bounded

namespace State.Bounded
variable {cfg : Config} {s s' : State} {t a : ℕ} {thr thr' : ThreadState}

theorem running (h : s.Bounded) (ht : s.thr t = some thr) : thr.Bounded t := by
  rw [State.thr_eq_core, Option.bind_eq_some_iff] at ht
  obtain ⟨tctx,hcore,hthr⟩ := ht
  exact (h.context t tctx hcore).thr thr hthr

theorem setThr (h : s.Bounded) (hthr : thr.Bounded t) : (s.setThr t thr).Bounded where
  context u tctx hu := by
    rcases eq_or_ne u t with rfl | hne
    · rw [State.core_setThr_self, Option.map_eq_some_iff] at hu
      obtain ⟨old,hold,rfl⟩ := hu
      have hb := h.context u old hold
      exact ⟨hb.tid,hb.lt,hb.sync,fun x hx => by cases hx; exact hthr⟩
    · rw [State.core_setThr_of_ne _ _ hne] at hu
      exact h.context u tctx hu
  sync := h.sync

theorem setSync (h : s.Bounded) {v : SyncVar} (hv : v.Bounded) (a : ℕ) : (s.setSync a v).Bounded where
  context := h.context
  sync b := by
    rcases eq_or_ne b a with rfl | hne
    · rw [State.synctab_setSync_self]
      exact hv
    · rw [State.synctab_setSync_of_ne _ _ hne]
      exact h.sync b

theorem setRow (h : s.Bounded) (cell : ℕ) (row : Row) : (s.setRow cell row).Bounded := ⟨h.context,h.sync⟩

/-- Only the context of `t` is another one. -/
theorem replaceContext (h : s.Bounded) {tctx : ThreadContext} (hself : s'.core t = some tctx)
    (hother : ∀ u, u ≠ t → s'.core u = s.core u) (htab : s'.synctab = s.synctab) (htctx : tctx.Bounded t) :
    s'.Bounded where
  context u x hu := by
    rcases eq_or_ne u t with rfl | hne
    · rw [hself, Option.some.injEq] at hu
      exact hu ▸ htctx
    · rw [hother u hne] at hu
      exact h.context u x hu
  sync b := htab ▸ h.sync b

/-! ## The parts of a step -/

theorem access (h : s.Bounded) {n : ℕ} {w : Bool} {race : Option u64}
    (he : MemoryAccess cfg s t a n w = some (s',race)) : s'.Bounded := by
  obtain ⟨thr,hthr,⟨-,rfl,-⟩ | ⟨thr',cur,cur',hi,-,-,rfl,-⟩⟩ := MemoryAccess_eq_some he
  · exact h
  · exact (h.setThr ((h.running hthr).incrementEpoch hi)).setRow _ _

theorem lock (h : s.Bounded) (he : lockSyncVar s t a = some s') : s'.Bounded := by
  obtain ⟨thr,thr',v,hthr,hi,hv,rfl⟩ := lockSyncVar_eq_some he
  obtain ⟨hclock,hread,-⟩ := lockOwner_eq_some hv
  have hb := (h.running hthr).incrementEpoch hi
  have hvar : v.Bounded := ⟨hclock ▸ (h.sync a).clock,hread ▸ (h.sync a).read_clock⟩
  refine setSync (h.setThr ?_) ?_ a
  · split_ifs
    · exact (hb.setClock.acquire hvar.clock).acquire hvar.read_clock
    · exact hb
  · exact ⟨hvar.clock,hvar.read_clock⟩

theorem unlock (h : s.Bounded) (he : unlockSyncVar s t a = some s') : s'.Bounded := by
  obtain ⟨thr,thr',hthr,hi,hcase⟩ := unlockSyncVar_eq_some he
  have hb := (h.running hthr).incrementEpoch hi
  rcases hcase with ⟨-,-,rfl⟩ | ⟨-,v,rfl,hclock,hread,-⟩
  · refine (h.setThr hb.setClock.setSynchEpoch).setSync ?_ a
    exact ⟨hb.setClock.setSynchEpoch.ReleaseStore _,(h.sync a).read_clock⟩
  · refine (h.setThr hb).setSync ?_ a
    exact ⟨hclock ▸ (h.sync a).clock,hread ▸ (h.sync a).read_clock⟩

theorem readLock (h : s.Bounded) (he : readLockSyncVar s t a = some s') : s'.Bounded := by
  obtain ⟨thr,thr',hthr,hi,rfl⟩ := readLockSyncVar_eq_some he
  have hb := (h.running hthr).incrementEpoch hi
  refine (h.setThr (hb.setClock.acquire (h.sync a).clock)).setSync ?_ a
  exact ⟨(h.sync a).clock,(h.sync a).read_clock⟩

theorem readUnlock (h : s.Bounded) (he : readUnlockSyncVar s t a = some s') : s'.Bounded := by
  obtain ⟨thr,thr',hthr,hi,rfl⟩ := readUnlockSyncVar_eq_some he
  have hb := ((h.running hthr).incrementEpoch hi).setClock.setSynchEpoch
  refine (h.setThr hb).setSync ?_ a
  exact ⟨(h.sync a).clock,hb.release (h.sync a).read_clock⟩

theorem readOrWriteUnlock (h : s.Bounded) (he : readOrWriteUnlockSyncVar s t a = some s') : s'.Bounded := by
  obtain ⟨thr,-,⟨-,he⟩ | ⟨-,-,he⟩ | ⟨-,-,v,rfl,hclock,hread,-⟩⟩ := readOrWriteUnlockSyncVar_eq_some he
  · exact h.readUnlock he
  · exact h.unlock he
  · refine h.setSync ?_ a
    exact ⟨hclock ▸ (h.sync a).clock,hread ▸ (h.sync a).read_clock⟩

theorem acquire (h : s.Bounded) (he : Acquire s t a = some s') : s'.Bounded := by
  obtain ⟨thr,hthr,rfl⟩ := Acquire_eq_some he
  exact h.setThr ((h.running hthr).setClock.acquire (h.sync a).clock)

/-- `AcquireGlobal` goes through the ids that threads can have. -/
theorem acquireGlobal (h : s.Bounded) (he : AcquireGlobal s t = some s') : s'.Bounded := by
  obtain ⟨thr,thr',hthr,htid,hfast,hclk,-,rfl⟩ := AcquireGlobal_eq_some he
  have hb := h.running hthr
  refine h.setThr ⟨htid.trans hb.tid,hfast ▸ hb.word,fun i hi => ?_⟩
  rw [hclk, if_neg (Nat.not_lt.mpr hi), Option.getD_none]
  exact hb.clock i hi

theorem release (h : s.Bounded) (he : Release s t a = some s') : s'.Bounded := by
  obtain ⟨thr,hthr,rfl⟩ := Release_eq_some he
  have hb := (h.running hthr).setClock
  refine (h.setThr hb).setSync ?_ a
  exact ⟨hb.release (h.sync a).clock,(h.sync a).read_clock⟩

theorem releaseStore (h : s.Bounded) (he : ReleaseStore s t a = some s') : s'.Bounded := by
  obtain ⟨thr,hthr,rfl⟩ := ReleaseStore_eq_some he
  have hb := (h.running hthr).setClock
  refine (h.setThr hb).setSync ?_ a
  exact ⟨hb.ReleaseStore _,(h.sync a).read_clock⟩

theorem create (h : s.Bounded) {detached : Bool} {tid : ℕ} (he : pthread_create s t detached = some (s',tid)) :
    s'.Bounded := by
  obtain ⟨s₁,tctx,thr,thr',htake,htid,-,hlt,hthr,hi,hself,hother,htab,-⟩ := pthread_create_eq_some he
  obtain ⟨-,-,-,-,hzero,-⟩ := takeContext_eq_some htake
  have hb := ((h.running hthr).incrementEpoch hi).setClock.setSynchEpoch
  refine (h.setThr hb).replaceContext hself hother htab ⟨htid,hlt,hb.release ?_,fun _ hx => nomatch hx⟩
  rw [hzero]
  exact .zero

theorem start (h : s.Bounded) {l : StackAndTls} (he : ThreadStart cfg s t l = some s') : s'.Bounded := by
  obtain ⟨tctx,x,hcore,-,hx,hself,hother,htab,-⟩ := ThreadStart_eq_some he
  have hb := h.context t tctx hcore
  refine h.replaceContext hself hother htab ⟨hb.tid,hb.lt,hb.sync,fun thr hthr => ?_⟩
  cases hthr
  refine ⟨rfl,⟨_,(isFast_mk hb.lt hx).isThreadWord⟩,?_⟩
  rw [ThreadClock.clk_acquire, ThreadClock.clk_set, ThreadClock.clk_empty]
  exact (HighZero.zero.update hb.lt _).sup hb.sync

theorem finish (h : s.Bounded) (he : ThreadFinish cfg s t = some s') : s'.Bounded := by
  obtain ⟨thr,tctx,hthr,hcore,-,himp,htab,-⟩ := ThreadFinish_eq_some he
  have hb := h.context t tctx hcore
  obtain ⟨hother,⟨-,hself⟩ | ⟨-,thr',hi,hself⟩⟩ := himp hb.tid
  · refine h.replaceContext hself hother htab ⟨hb.tid,hb.lt,?_,fun _ hx => nomatch hx⟩
    rw [SyncClock.get_empty]
    exact .zero
  · have hbt := ((h.running hthr).incrementEpoch hi).setClock.setSynchEpoch
    exact h.replaceContext hself hother htab ⟨hb.tid,hb.lt,hbt.release hb.sync,fun _ hx => nomatch hx⟩

/-- The context of a thread that has been joined or detached at its end. -/
theorem dead {tctx : ThreadContext} (hb : tctx.Bounded t) :
    ThreadContext.Bounded { tctx with status := .Dead, sync := .empty } t := by
  refine ⟨hb.tid,hb.lt,?_,hb.thr⟩
  rw [SyncClock.get_empty]
  exact .zero

theorem join (h : s.Bounded) {tid : ℕ} (he : ThreadJoin s t tid = some s') : s'.Bounded := by
  obtain ⟨thr,tctx,hthr,-,hcore,⟨-,rfl⟩ | ⟨-,-,himp⟩⟩ := ThreadJoin_eq_some he
  · exact h
  · have hb := h.context tid tctx hcore
    obtain ⟨hself,hother,htab,-⟩ := himp hb.tid
    exact (h.setThr ((h.running hthr).acquire hb.sync)).replaceContext hself hother htab (dead hb)

theorem detach (h : s.Bounded) {tid : ℕ} (he : ThreadDetach s t tid = some s') : s'.Bounded := by
  obtain ⟨thr,tctx,-,-,hcore,⟨-,rfl⟩ | ⟨-,himp⟩ | ⟨-,hself,hother,htab,-⟩⟩ := ThreadDetach_eq_some he
  · exact h
  · have hb := h.context tid tctx hcore
    obtain ⟨hself,hother,htab,-⟩ := himp hb.tid
    exact h.replaceContext hself hother htab (dead hb)
  · have hb := h.context tid tctx hcore
    exact h.replaceContext hself hother htab ⟨hb.tid,hb.lt,hb.sync,hb.thr⟩

theorem exec (h : s.Bounded) {a : Act} (he : a.exec cfg s t = some s') : s'.Bounded := by
  cases a with
  | access addr n w =>
    simp only [Act.exec, Option.pure_def, Option.bind_eq_bind, Option.bind_eq_some_iff] at he
    obtain ⟨⟨s₁,race⟩,he,h₁⟩ := he
    cases h₁
    exact h.access he
  | lock addr => exact h.lock he
  | unlock addr => exact h.unlock he
  | readLock addr => exact h.readLock he
  | readUnlock addr => exact h.readUnlock he
  | readOrWriteUnlock addr => exact h.readOrWriteUnlock he
  | acquire addr => exact h.acquire he
  | acquireGlobal => exact h.acquireGlobal he
  | release addr => exact h.release he
  | releaseStore addr => exact h.releaseStore he
  | create detached =>
    simp only [Act.exec, Option.pure_def, Option.bind_eq_bind, Option.bind_eq_some_iff] at he
    obtain ⟨⟨s₁,tid⟩,he,h₁⟩ := he
    cases h₁
    exact h.create he
  | start l => exact h.start he
  | finish => exact h.finish he
  | join tid => exact h.join he
  | detach tid => exact h.detach he

/-- The steps of the detector keep the entries zero. -/
theorem step (h : s.Bounded) {op : Op} (he : op.step cfg s t = some s') : s'.Bounded := by
  rw [step_eq_execs] at he
  exact Transition.run_inv (fun _ _ _ h he => h.exec he) h he

end State.Bounded
end CompilerRt.Tsan
