import CompilerRt.Lib.ArrayLoop
import Mathlib.Order.Lattice.Nat

/-! # The growing vector

`lib/tsan/rtl/tsan_vector.h`. The memory from `begin_` to `last_` is a list of its own, of which the vector
uses a first part up to `end_`: the rest holds whatever was there. Memory from `internal_alloc` has arbitrary
contents.
-/
namespace CompilerRt.Tsan.Memory
open ArrayLoop

def internal_alloc {T : Type*} (junk : ℕ → T) (cap : ℕ) : List T := (List.range cap).map junk

def internal_memcpy {T : Type*} (p q : List T) (n : ℕ) : List T := q.take n ++ p.drop n

/-- `Vector<T>`: the cells from `begin_` to `last_`, and `end_ - begin_`. -/
structure Vector (T : Type*) where
  begin_ : List T
  Size : ℕ
deriving DecidableEq

namespace Vector
variable {T : Type*} (v : Vector T) (junk : ℕ → T)

/-- The constructor. -/
def empty : Vector T := ⟨[],0⟩

def Reset (_ : Vector T) : Vector T := empty

/-- `operator[]` and its `DCHECK_LT`. -/
def load (i : ℕ) : Option T := if i < v.Size then v.begin_[i]? else none

/-- An assignment through `operator[]`. -/
def store (i : ℕ) (x : T) : Option (Vector T) :=
  if i < v.Size then (ArrayLoop.store v.begin_ i x).map (⟨·,v.Size⟩) else none

def EnsureSize (size : ℕ) : Vector T :=
  if size ≤ v.Size then v
  else if size ≤ v.begin_.length then ⟨v.begin_,size⟩
  else
    let cap0 := v.begin_.length
    let cap := 2 * cap0
    let cap := if cap = 0 then 16 else cap
    let cap := if cap < size then size else cap
    let p := internal_alloc junk cap
    let p := if cap0 ≠ 0 then internal_memcpy p v.begin_ cap0 else p
    ⟨p,size⟩

variable [Inhabited T]

def PushBack (x : T) : Option (Vector T) :=
  let v := v.EnsureSize junk (v.Size + 1)
  (ArrayLoop.store v.begin_ (v.Size - 1) x).map (⟨·,v.Size⟩)

def Resize (size : ℕ) : Option (Vector T) :=
  let old_size := v.Size
  let v := v.EnsureSize junk size
  if old_size < size then
    (forLoop (fun i p => ArrayLoop.store p i default) old_size (size - old_size) v.begin_).map (⟨·,v.Size⟩)
  else some v

/-! ## The entries in use -/

omit [Inhabited T]

/-- The used part lies inside the memory. -/
def Valid : Prop := v.Size ≤ v.begin_.length

def toList : List T := v.begin_.take v.Size

variable {v}

@[simp] theorem valid_empty : (empty : Vector T).Valid := le_rfl

@[simp] theorem toList_empty : (empty : Vector T).toList = [] := rfl

theorem Valid.length_toList (h : v.Valid) : v.toList.length = v.Size := by
  rw [toList, List.length_take, min_eq_left h]

theorem getElem?_toList (i : ℕ) : v.toList[i]? = if i < v.Size then v.begin_[i]? else none := List.getElem?_take

theorem load_eq_toList (i : ℕ) : v.load i = v.toList[i]? := (getElem?_toList i).symm

theorem Valid.store_eq (h : v.Valid) {i : ℕ} (hi : i < v.Size) (x : T) :
    v.store i x = some ⟨v.begin_.set i x,v.Size⟩ := by
  rw [store, if_pos hi, ArrayLoop.store_eq (hi.trans_le h), Option.map_some]

theorem Valid.set (h : v.Valid) (i : ℕ) (x : T) : Valid ⟨v.begin_.set i x,v.Size⟩ :=
  h.trans_eq List.length_set.symm

theorem Valid.set_load (h : v.Valid) {i : ℕ} (hi : i < v.Size) {x : T} (hx : v.load i = some x) :
    (some ⟨v.begin_.set i x,v.Size⟩ : Option (Vector T)) = some v := by
  rw [load, if_pos hi, List.getElem?_eq_getElem (hi.trans_le h), Option.some_inj] at hx
  rw [← hx, List.set_getElem_self]

theorem toList_set (i : ℕ) (x : T) : toList ⟨v.begin_.set i x,v.Size⟩ = v.toList.set i x := List.take_set

@[simp] theorem Size_EnsureSize (size : ℕ) : (v.EnsureSize junk size).Size = max v.Size size := by
  unfold EnsureSize
  split_ifs with h h'
  · omega
  · exact (max_eq_right (Nat.le_of_not_le h)).symm
  · exact (max_eq_right (Nat.le_of_not_le h)).symm

theorem length_internal_alloc (cap : ℕ) : (internal_alloc junk cap).length = cap := by
  rw [internal_alloc, List.length_map, List.length_range]

theorem Valid.EnsureSize (h : v.Valid) (size : ℕ) : (v.EnsureSize junk size).Valid := by
  unfold Vector.EnsureSize
  split_ifs with h₁ h₂
  · exact h
  · exact h₂
  · simp only [Valid]
    split_ifs <;>
      simp only [internal_memcpy, List.length_append, List.length_take, List.length_drop, length_internal_alloc] <;>
      omega

/-- The memory that is there keeps its contents, with or without a new block. -/
theorem getElem?_EnsureSize {i : ℕ} (h : v.Valid) (hi : i < v.Size) (size : ℕ) :
    (v.EnsureSize junk size).begin_[i]? = v.begin_[i]? := by
  have hlen : i < v.begin_.length := hi.trans_le h
  have hcap : v.begin_.length ≠ 0 := by omega
  unfold EnsureSize
  split_ifs with h₁ h₂
  · rfl
  · rfl
  · simp only [if_pos hcap, internal_memcpy, List.take_length]
    exact List.getElem?_append_left hlen

/-- Growing keeps the entries that are there and fills the new ones with `T()`. -/
theorem Valid.Resize [Inhabited T] (h : v.Valid) (size : ℕ) : ∃ w, v.Resize junk size = some w ∧ w.Valid ∧
    w.Size = max v.Size size ∧ w.toList = v.toList ++ List.replicate (size - v.Size) default := by
  have hgrown := h.EnsureSize junk size
  have hsize := v.Size_EnsureSize junk size
  unfold Vector.Resize
  by_cases hlt : v.Size < size
  · have hrange : v.Size + (size - v.Size) ≤ (v.EnsureSize junk size).begin_.length := by
      have : (v.EnsureSize junk size).Size ≤ (v.EnsureSize junk size).begin_.length := hgrown
      omega
    have hloop := forLoop_replaced (f := fun _ _ => (default : T)) (size - v.Size)
      (fun i b hi _ _ _ => ArrayLoop.store_eq hi default) hrange
    refine ⟨⟨replaced (fun _ _ => default) v.Size (size - v.Size) (v.EnsureSize junk size).begin_,
      (v.EnsureSize junk size).Size⟩,?_,?_,hsize,?_⟩
    · rw [if_pos hlt, hloop, Option.map_some]
    · exact le_of_le_of_eq hgrown (length_replaced _ _ _ _).symm
    · apply List.ext_getElem?
      intro i
      rw [getElem?_toList, getElem?_replaced, hsize, max_eq_right hlt.le]
      rcases Nat.lt_or_ge i v.Size with hi | hi
      · have hout : ¬ (v.Size ≤ i ∧ i < v.Size + (size - v.Size)) := by omega
        rw [if_pos (hi.trans hlt), getElem?_EnsureSize junk h hi, List.getElem?_append_left (hi.trans_eq
          h.length_toList.symm), getElem?_toList, if_pos hi]
        simp only [if_neg hout, Option.map_id']
      · rw [List.getElem?_append_right (h.length_toList.trans_le hi), h.length_toList, List.getElem?_replicate]
        by_cases hs : i < size
        · have hin : v.Size ≤ i ∧ i < v.Size + (size - v.Size) := by omega
          rw [if_pos hs, if_pos (by omega), List.getElem?_eq_getElem (by omega), Option.map_some, if_pos hin]
        · rw [if_neg hs, if_neg (by omega)]
  · refine ⟨v.EnsureSize junk size,if_neg hlt,hgrown,hsize,?_⟩
    have hno : size ≤ v.Size := by omega
    rw [Nat.sub_eq_zero_of_le hno, List.replicate_zero, List.append_nil, Vector.EnsureSize, if_pos hno]

theorem Valid.PushBack [Inhabited T] (h : v.Valid) (x : T) : ∃ w, v.PushBack junk x = some w ∧ w.Valid ∧
    w.toList = v.toList ++ [x] := by
  have hgrown := h.EnsureSize junk (v.Size + 1)
  have hsize : (v.EnsureSize junk (v.Size + 1)).Size = v.Size + 1 := by
    rw [Size_EnsureSize]
    omega
  have hin : v.Size < (v.EnsureSize junk (v.Size + 1)).begin_.length := by
    have : (v.EnsureSize junk (v.Size + 1)).Size ≤ (v.EnsureSize junk (v.Size + 1)).begin_.length := hgrown
    omega
  refine ⟨⟨(v.EnsureSize junk (v.Size + 1)).begin_.set v.Size x,v.Size + 1⟩,?_,?_,?_⟩
  · simp only [Vector.PushBack, hsize, Nat.add_sub_cancel, ArrayLoop.store_eq hin, Option.map_some]
  · rw [Valid, List.length_set]
    exact hin
  · apply List.ext_getElem?
    intro i
    rw [getElem?_toList]
    rcases Nat.lt_trichotomy i v.Size with hi | rfl | hi
    · rw [if_pos (by simp only; omega), List.getElem?_set_ne (by omega), getElem?_EnsureSize junk h hi,
        List.getElem?_append_left (hi.trans_eq h.length_toList.symm), getElem?_toList, if_pos hi]
    · rw [if_pos (Nat.lt_succ_self _), List.getElem?_set_self hin,
        List.getElem?_append_right (Nat.le_of_eq h.length_toList), h.length_toList, Nat.sub_self]
      rfl
    · rw [if_neg (by simp only; omega), List.getElem?_eq_none]
      rw [List.length_append, h.length_toList, List.length_singleton]
      exact hi

/-- A loop over entries in use, each of which it replaces. -/
theorem Valid.forLoop_replaced {body : ℕ → Vector T → Option (Vector T)} {f : ℕ → T → T} (n : ℕ) {lo : ℕ}
    (h : v.Valid)
    (hbody : ∀ i w x, w.Valid → w.Size = v.Size → lo ≤ i → i < lo + n → w.load i = some x →
      body i w = w.store i (f i x))
    (hn : lo + n ≤ v.Size) : ∃ w, forLoop body lo n v = some w ∧ w.Valid ∧ w.Size = v.Size ∧
      w.toList = replaced f lo n v.toList := by
  induction n generalizing lo v with
  | zero => exact ⟨v,rfl,h,rfl,(replaced_zero f lo _).symm⟩
  | succ n ih =>
    have hlo : lo < v.Size := by omega
    have hlen : lo < v.toList.length := hlo.trans_eq h.length_toList.symm
    have hload : v.load lo = some v.toList[lo] := (load_eq_toList lo).trans (List.getElem?_eq_getElem hlen)
    have hstep := (hbody lo v _ h rfl le_rfl (by omega) hload).trans (h.store_eq hlo _)
    obtain ⟨w,hrun,hw,hsize,hlist⟩ := @ih ⟨v.begin_.set lo (f lo v.toList[lo]),v.Size⟩ (lo + 1) (h.set lo (f lo v.toList[lo]))
      (fun i w x hw hs h₁ h₂ hx => hbody i w x hw hs (by omega) (by omega) hx) (by simp only; omega)
    refine ⟨w,(forLoop_succ n hstep).trans hrun,hw,hsize,?_⟩
    rw [hlist, toList_set, replaced_succ f n hlen]

end Vector
end CompilerRt.Tsan.Memory
