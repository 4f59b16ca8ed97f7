import CompilerRt.Tsan.Rtl
import Mathlib.Data.Finset.Card
import Mathlib.Data.Finset.Range

/-! # What the thread registry is for

A thread id goes to a new thread. When that thread is dead its id waits in a queue, and the first id of the
queue may go to another thread. The queue is a list here and no contexts are linked.
-/
namespace CompilerRt.Tsan

/-- What the registry knows of a thread id: the latest thread that has it, and how often it went to another. -/
structure Standing where
  status : ThreadStatus
  unique_id : ℕ
  reuse_count : ℕ

def Standing.isAlive (x : Standing) : Bool := x.status = .Created || x.status = .Running

structure Registry where
  standing : ℕ → Option Standing
  dead : List ℕ
  thread_seq : ℕ
  unique_thread_seq : ℕ
  alive_threads : ℕ

namespace Registry

def empty : Registry := ⟨fun _ => none,[],0,0,0⟩

def set (r : Registry) (u : ℕ) (x : Standing) : Registry :=
  { r with standing := Function.update r.standing u (some x) }

/-- A thread with the id comes to life. -/
def born (r : Registry) (u reuse_count : ℕ) : Registry :=
  { r.set u ⟨.Created,r.unique_thread_seq,reuse_count⟩ with
    unique_thread_seq := r.unique_thread_seq + 1, alive_threads := r.alive_threads + 1 }

/-- The thread with the id dies, and the id waits. -/
def die (r : Registry) (u : ℕ) (x : Standing) : Registry :=
  { r.set u { x with status := .Dead } with dead := r.dead ++ [u] }

/-- A step, with the id that a new thread gets in it. -/
inductive Step : Registry → Option ℕ → Registry → Prop
  | stay (r) : Step r none r
  | fresh (r) (h : r.standing r.thread_seq = none) (hlt : r.thread_seq < kMaxTid) :
      Step r (some r.thread_seq) { r.born r.thread_seq 0 with thread_seq := r.thread_seq + 1 }
  | reuse (r) {u l x} (h : r.dead = u :: l) (hx : r.standing u = some x) :
      Step r (some u) { r.born u (x.reuse_count + 1) with dead := l }
  | start (r) {u x} (hx : r.standing u = some x) (h : x.status = .Created) :
      Step r none (r.set u { x with status := .Running })
  | finish (r) {u x} (hx : r.standing u = some x) (h : x.status = .Running) :
      Step r none { r.set u { x with status := .Finished } with alive_threads := r.alive_threads - 1 }
  | finishDetached (r) {u x} (hx : r.standing u = some x) (h : x.status = .Running) :
      Step r none { r.die u x with alive_threads := r.alive_threads - 1 }
  | bury (r) {u x} (hx : r.standing u = some x) (h : x.status = .Finished) : Step r none (r.die u x)

/-- The ids whose threads are created or running. -/
def aliveTids (r : Registry) : Finset ℕ := {u ∈ Finset.range kMaxTid | (r.standing u).any (·.isAlive)}

/-- The ids that wait are those of dead threads. -/
def QueueOfDead (r : Registry) : Prop := ∀ u, u ∈ r.dead ↔ ∃ x, r.standing u = some x ∧ x.status = .Dead

structure Valid (r : Registry) : Prop where
  mem_dead : r.QueueOfDead
  nodup : r.dead.Nodup
  fresh : ∀ u, r.thread_seq ≤ u → r.standing u = none
  seq : r.thread_seq ≤ kMaxTid
  alive : r.alive_threads = r.aliveTids.card

theorem valid_empty : empty.Valid where
  mem_dead := by simp [QueueOfDead, empty]
  nodup := List.nodup_nil
  fresh _ _ := rfl
  seq := Nat.zero_le _
  alive := by simp [empty, aliveTids]

section Set
variable {r : Registry} {u v : ℕ} {x : Standing}

@[simp] theorem standing_set_self : (r.set u x).standing u = some x := by simp [set]

@[simp] theorem standing_set_of_ne (h : v ≠ u) : (r.set u x).standing v = r.standing v := by simp [set, h]

theorem lt_of_standing (h : r.Valid) (hx : r.standing u = some x) : u < r.thread_seq := by
  by_contra hle
  have hnone := h.fresh u (Nat.le_of_not_lt hle)
  rw [hx] at hnone
  cases hnone

theorem aliveTids_insert (hu : u < kMaxTid) (hx : x.isAlive = true) :
    (r.set u x).aliveTids = insert u r.aliveTids := by
  ext v
  rcases eq_or_ne v u with rfl | hv
  · simp [aliveTids, hu, hx]
  · simp [aliveTids, hv]

theorem aliveTids_erase (hx : x.isAlive = false) : (r.set u x).aliveTids = r.aliveTids.erase u := by
  ext v
  rcases eq_or_ne v u with rfl | hv
  · simp [aliveTids, hx]
  · simp [aliveTids, hv]

theorem card_insert (h : r.Valid) (hu : u < kMaxTid) (hout : u ∉ r.aliveTids) (hx : x.isAlive = true) :
    r.alive_threads + 1 = (r.set u x).aliveTids.card := by
  rw [aliveTids_insert hu hx, Finset.card_insert_of_notMem hout, h.alive]

theorem card_erase (h : r.Valid) (hin : u ∈ r.aliveTids) (hx : x.isAlive = false) :
    r.alive_threads - 1 = (r.set u x).aliveTids.card := by
  rw [aliveTids_erase hx, Finset.card_erase_of_mem hin, h.alive]

theorem mem_aliveTids (h : r.Valid) (hx : r.standing u = some x) : u ∈ r.aliveTids ↔ x.isAlive = true := by
  have hlt := (lt_of_standing h hx).trans_le h.seq
  simp [aliveTids, hx, hlt]

/-- A status other than dead keeps the queue what it is. -/
theorem mem_dead_set (h : r.Valid) {y : Standing} (hx : ∀ x, r.standing u = some x → x.status ≠ .Dead)
    (hy : y.status ≠ .Dead) (v : ℕ) : v ∈ r.dead ↔ ∃ x, (r.set u y).standing v = some x ∧ x.status = .Dead := by
  rw [h.mem_dead v]
  rcases eq_or_ne v u with rfl | hv
  · rw [standing_set_self]
    constructor
    · rintro ⟨x,hxv,hdead⟩
      exact absurd hdead (hx x hxv)
    · rintro ⟨x,hxv,hdead⟩
      cases hxv
      exact absurd hdead hy
  · rw [standing_set_of_ne hv]

theorem mem_dead_die (h : r.Valid) (v : ℕ) :
    v ∈ r.dead ++ [u] ↔ ∃ y, (r.die u x).standing v = some y ∧ y.status = .Dead := by
  rw [List.mem_append, List.mem_singleton, h.mem_dead v]
  rcases eq_or_ne v u with rfl | hv
  · constructor
    · intro _
      exact ⟨_,standing_set_self,rfl⟩
    · intro _
      exact Or.inr rfl
  · simp [die, hv]

theorem fresh_set (h : r.Valid) (hx : r.standing u = some x) {y : Standing} (v : ℕ) (hv : r.thread_seq ≤ v) :
    (r.set u y).standing v = none := by
  have hne : v ≠ u := (lt_of_standing h hx).trans_le hv |>.ne'
  rw [standing_set_of_ne hne]
  exact h.fresh v hv

end Set

theorem nodup_concat {r : Registry} (h : r.Valid) {u : ℕ} {x : Standing} (hx : r.standing u = some x)
    (hdead : x.status ≠ .Dead) : (r.dead ++ [u]).Nodup := by
  have hu : u ∉ r.dead := by
    intro hmem
    obtain ⟨y,hy,hst⟩ := (h.mem_dead u).mp hmem
    cases hx.symm.trans hy
    exact hdead hst
  simpa using List.Nodup.append h.nodup (List.nodup_singleton u) (by simpa using hu)

/-- A step keeps the registry valid. -/
theorem Valid.step {r r' : Registry} {b : Option ℕ} (h : r.Valid) (hs : Step r b r') : r'.Valid := by
  cases hs with
  | stay => exact h
  | fresh hnone hlt =>
    have hout : r.thread_seq ∉ r.aliveTids := by simp [aliveTids, hnone]
    constructor
    · exact mem_dead_set h (by simp [hnone]) (by simp)
    · exact h.nodup
    · intro v hv
      have hne : v ≠ r.thread_seq := Nat.ne_of_gt hv
      exact (standing_set_of_ne hne).trans (h.fresh v (Nat.le_of_succ_le hv))
    · exact hlt
    · exact card_insert h hlt hout rfl
  | @reuse u l x hd hx =>
    have hst : x.status = .Dead := by
      obtain ⟨y,hy,hst⟩ := (h.mem_dead u).mp (hd ▸ List.mem_cons_self)
      cases hx.symm.trans hy
      exact hst
    have hnd : u ∉ l ∧ l.Nodup := List.nodup_cons.mp (hd ▸ h.nodup)
    have hlt := lt_of_standing h hx
    have hout : u ∉ r.aliveTids := by simp [mem_aliveTids h hx, Standing.isAlive, hst]
    constructor
    · intro v
      change v ∈ l ↔ ∃ y, (r.set u ⟨.Created,r.unique_thread_seq,x.reuse_count + 1⟩).standing v = some y ∧ _
      rcases eq_or_ne v u with rfl | hv
      · rw [standing_set_self]
        constructor
        · intro hmem
          exact absurd hmem hnd.1
        · rintro ⟨y,hy,hdead⟩
          cases hy
          cases hdead
      · rw [standing_set_of_ne hv, ← h.mem_dead v, hd]
        simp [hv]
    · exact hnd.2
    · exact fresh_set h hx
    · exact h.seq
    · exact card_insert h (hlt.trans_le h.seq) hout rfl
  | @start u x hx hst =>
    have halive : u ∈ r.aliveTids := by simp [mem_aliveTids h hx, Standing.isAlive, hst]
    have hlt := lt_of_standing h hx
    constructor
    · refine mem_dead_set h (fun y hy => ?_) (by simp)
      cases hx.symm.trans hy
      simp [hst]
    · exact h.nodup
    · exact fresh_set h hx
    · exact h.seq
    · rw [aliveTids_insert (hlt.trans_le h.seq) rfl, Finset.insert_eq_of_mem halive]
      exact h.alive
  | @finish u x hx hst =>
    have halive : u ∈ r.aliveTids := by simp [mem_aliveTids h hx, Standing.isAlive, hst]
    constructor
    · refine mem_dead_set h (fun y hy => ?_) (by simp)
      cases hx.symm.trans hy
      simp [hst]
    · exact h.nodup
    · exact fresh_set h hx
    · exact h.seq
    · exact card_erase h halive rfl
  | @finishDetached u x hx hst =>
    have halive : u ∈ r.aliveTids := by simp [mem_aliveTids h hx, Standing.isAlive, hst]
    constructor
    · exact mem_dead_die h
    · exact nodup_concat h hx (by simp [hst])
    · exact fresh_set h hx
    · exact h.seq
    · exact card_erase h halive rfl
  | @bury u x hx hst =>
    have hout : u ∉ r.aliveTids := by simp [mem_aliveTids h hx, Standing.isAlive, hst]
    constructor
    · exact mem_dead_die h
    · exact nodup_concat h hx (by simp [hst])
    · exact fresh_set h hx
    · exact h.seq
    · have hsame : (r.set u { x with status := .Dead }).aliveTids = r.aliveTids := by
        rw [aliveTids_erase rfl, Finset.erase_eq_of_notMem hout]
      exact h.alive.trans (congrArg Finset.card hsame.symm)

/-! ## Who has an id -/

section Lives
variable {r r' : Registry} {b : Option ℕ} {u : ℕ}

/-- A new thread gets an id that no thread had, or the first one that waits. -/
theorem Step.born (h : r.Valid) (hs : Step r (some u) r') :
    r.standing u = none ∧ r'.dead = r.dead ∧ r'.standing u = some ⟨.Created,r.unique_thread_seq,0⟩ ∨
      ∃ x, r.standing u = some x ∧ x.status = .Dead ∧ r.dead = u :: r'.dead ∧
        r'.standing u = some ⟨.Created,r.unique_thread_seq,x.reuse_count + 1⟩ := by
  cases hs with
  | fresh hnone hlt => exact Or.inl ⟨hnone,rfl,standing_set_self⟩
  | @reuse u l x hd hx =>
    obtain ⟨y,hy,hst⟩ := (h.mem_dead u).mp (hd ▸ List.mem_cons_self)
    cases hx.symm.trans hy
    exact Or.inr ⟨x,hx,hst,hd,standing_set_self⟩

/-- Elsewhere the same thread keeps the id, and a dead one stays dead. -/
def Keeps (x y : Option Standing) : Prop := x = y ∨
  ∃ a b, x = some a ∧ y = some b ∧ a.unique_id = b.unique_id ∧ a.status ≠ .Dead

theorem Step.keeps (hs : Step r b r') (hu : b ≠ some u) : Keeps (r.standing u) (r'.standing u) := by
  have hset : ∀ {v : ℕ} {x y : Standing}, r.standing v = some x → x.unique_id = y.unique_id → x.status ≠ .Dead →
      Keeps (r.standing u) ((r.set v y).standing u) := by
    intro v x y hx hid hst
    rcases eq_or_ne u v with rfl | huv
    · exact Or.inr ⟨x,y,hx,standing_set_self,hid,hst⟩
    · exact Or.inl (standing_set_of_ne huv).symm
  have hborn : ∀ {v n : ℕ}, some v ≠ some u → Keeps (r.standing u) ((r.born v n).standing u) := by
    intro v n hv
    have huv : u ≠ v := fun h => hv (congrArg some h.symm)
    exact Or.inl (standing_set_of_ne huv).symm
  cases hs with
  | stay => exact Or.inl rfl
  | fresh hnone hlt => exact hborn hu
  | reuse hd hx => exact hborn hu
  | start hx hst => exact hset hx rfl (by simp [hst])
  | finish hx hst => exact hset hx rfl (by simp [hst])
  | finishDetached hx hst => exact hset hx rfl (by simp [hst])
  | bury hx hst => exact hset hx rfl (by simp [hst])

end Lives

/-- The thread, given by its id and its unique id, dies between the two. -/
def died (f g : ℕ → Option Standing) (p : ℕ × ℕ) : Bool := match f p.1, g p.1 with
  | some x, some y => x.unique_id = p.2 && x.status ≠ .Dead && y.status = .Dead
  | _, _ => false

/-- The threads that are not dead, from those that were not and the one that is new. -/
def living (f g : ℕ → Option Standing) (b : Option (ℕ × ℕ)) (ps : List (ℕ × ℕ)) : List (ℕ × ℕ) :=
  b.toList ++ ps.filter fun p => !died f g p

/-- The list has the threads that are not dead. -/
structure Census (f : ℕ → Option Standing) (ps : List (ℕ × ℕ)) : Prop where
  mem : ∀ p, p ∈ ps ↔ ∃ x, f p.1 = some x ∧ x.status ≠ .Dead ∧ x.unique_id = p.2
  nodup : (ps.map Prod.fst).Nodup

theorem census_empty : Census empty.standing [] := ⟨by simp [empty],List.nodup_nil⟩

theorem Census.mem_filter {f g : ℕ → Option Standing} {ps : List (ℕ × ℕ)} (h : Census f ps) {p : ℕ × ℕ}
    (hk : Keeps (f p.1) (g p.1)) : p ∈ ps.filter (fun p => !died f g p) ↔
      ∃ x, g p.1 = some x ∧ x.status ≠ .Dead ∧ x.unique_id = p.2 := by
  rw [List.mem_filter, h.mem]
  rcases hk with heq | ⟨x,y,hx,hy,hid,hst⟩
  · rw [← heq]
    constructor
    · rintro ⟨hmem,-⟩
      exact hmem
    · rintro ⟨x,hx,hst,hid⟩
      exact ⟨⟨x,hx,hst,hid⟩,by simp [died, ← heq, hx, hst]⟩
  · constructor
    · rintro ⟨⟨x',hx',-,hid'⟩,hdied⟩
      cases hx.symm.trans hx'
      refine ⟨y,hy,?_,hid.symm.trans hid'⟩
      simpa [died, hx, hy, hid', hst] using hdied
    · rintro ⟨y',hy',hst',hid'⟩
      cases hy.symm.trans hy'
      exact ⟨⟨x,hx,hst,hid.trans hid'⟩,by simp [died, hx, hy, hst']⟩

/-- The threads that are not dead have different ids, step after step. -/
theorem Census.step {r r' : Registry} {b : Option ℕ} {ps : List (ℕ × ℕ)} (hv : r.Valid) (h : Census r.standing ps)
    (hs : Step r b r') : Census r'.standing (living r.standing r'.standing (b.map (·,r.unique_thread_seq)) ps) := by
  have hsub : ((ps.filter fun p => !died r.standing r'.standing p).map Prod.fst).Nodup :=
    h.nodup.sublist (List.filter_sublist.map Prod.fst)
  cases b with
  | none =>
    constructor
    · intro p
      exact h.mem_filter (hs.keeps (by simp))
    · exact hsub
  | some u =>
    -- the new thread's id belongs to none of the others
    have hout : ∀ p ∈ ps, p.1 ≠ u := by
      rintro p hp rfl
      obtain ⟨x,hx,hst,-⟩ := (h.mem p).mp hp
      rcases hs.born hv with ⟨hnone,-,-⟩ | ⟨y,hy,hdead,-⟩
      · cases hx.symm.trans hnone
      · cases hx.symm.trans hy
        exact hst hdead
    obtain ⟨n,hn⟩ : ∃ n, r'.standing u = some ⟨.Created,r.unique_thread_seq,n⟩ := by
      rcases hs.born hv with ⟨-,-,hn⟩ | ⟨x,-,-,-,hn⟩
      · exact ⟨0,hn⟩
      · exact ⟨x.reuse_count + 1,hn⟩
    constructor
    · intro p
      simp only [living, Option.map_some, Option.toList_some, List.singleton_append, List.mem_cons]
      by_cases hp : p.1 = u
      · have hnot : p ∉ ps := fun hmem => hout p hmem hp
        simp only [List.mem_filter, hnot, false_and, or_false, hp, hn]
        constructor
        · rintro rfl
          exact ⟨_,rfl,by simp,rfl⟩
        · rintro ⟨x,hx,-,hid⟩
          cases hx
          exact Prod.ext hp hid.symm
      · rw [← h.mem_filter (hs.keeps fun heq => hp (Option.some.inj heq).symm)]
        constructor
        · rintro (rfl | hmem)
          · exact absurd rfl hp
          · exact hmem
        · exact Or.inr
    · simp only [living, Option.map_some, Option.toList_some, List.singleton_append, List.map_cons, List.nodup_cons]
      refine ⟨fun hmem => ?_,hsub⟩
      obtain ⟨p,hp,hpu⟩ := List.mem_map.mp hmem
      exact hout p (List.mem_of_mem_filter hp) hpu

end Registry
end CompilerRt.Tsan
