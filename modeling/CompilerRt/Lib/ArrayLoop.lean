import Mathlib.Data.List.Basic

/-! # Counting loops over checked arrays

An array is the list of its entries, an access outside of it has no result. A loop whose body only replaces
the entry it stands at replaces every entry of its range once.
-/
namespace CompilerRt.ArrayLoop
variable {α σ : Type*}

def store (a : List α) (i : ℕ) (x : α) : Option (List α) := if i < a.length then some (a.set i x) else none

/-- `for (i = lo; i < lo + n; i++)`, which ends without a result where a body has none. -/
def forLoop (body : ℕ → σ → Option σ) (lo : ℕ) : ℕ → σ → Option σ
  | 0, s => some s
  | n + 1, s => (body lo s).bind (forLoop body (lo + 1) n)

theorem store_eq {a : List α} {i : ℕ} (h : i < a.length) (x : α) : store a i x = some (a.set i x) := if_pos h

theorem forLoop_zero (body : ℕ → σ → Option σ) (lo : ℕ) (s : σ) : forLoop body lo 0 s = some s := rfl

theorem forLoop_succ {body : ℕ → σ → Option σ} {lo : ℕ} {s s' : σ} (n : ℕ) (h : body lo s = some s') :
    forLoop body lo (n + 1) s = forLoop body (lo + 1) n s' := by
  rw [forLoop, h, Option.bind_some]

/-- The entries of the range replaced by a function of their place and value. -/
def replaced (f : ℕ → α → α) (lo n : ℕ) (a : List α) : List α :=
  a.mapIdx fun i x => if lo ≤ i ∧ i < lo + n then f i x else x

@[simp] theorem length_replaced (f : ℕ → α → α) (lo n : ℕ) (a : List α) :
    (replaced f lo n a).length = a.length := List.length_mapIdx

theorem getElem?_replaced (f : ℕ → α → α) (lo n : ℕ) (a : List α) (i : ℕ) :
    (replaced f lo n a)[i]? = a[i]?.map fun x => if lo ≤ i ∧ i < lo + n then f i x else x :=
  List.getElem?_mapIdx

theorem replaced_zero (f : ℕ → α → α) (lo : ℕ) (a : List α) : replaced f lo 0 a = a := by
  apply List.ext_getElem?
  intro i
  have hno : ¬ (lo ≤ i ∧ i < lo + 0) := by omega
  simp only [getElem?_replaced, if_neg hno, Option.map_id']

theorem replaced_succ (f : ℕ → α → α) {lo : ℕ} (n : ℕ) {a : List α} (h : lo < a.length) :
    replaced f lo (n + 1) a = replaced f (lo + 1) n (a.set lo (f lo a[lo])) := by
  apply List.ext_getElem?
  intro i
  rw [getElem?_replaced, getElem?_replaced]
  by_cases hi : i = lo
  · subst hi
    have hin : i ≤ i ∧ i < i + (n + 1) := by omega
    have hout : ¬ (i + 1 ≤ i ∧ i < i + 1 + n) := by omega
    rw [List.getElem?_set_self h, List.getElem?_eq_getElem h, Option.map_some, Option.map_some,
      if_pos hin, if_neg hout]
  · have hiff : lo ≤ i ∧ i < lo + (n + 1) ↔ lo + 1 ≤ i ∧ i < lo + 1 + n := by omega
    simp only [List.getElem?_set_ne (Ne.symm hi), hiff]

/-- A loop whose body replaces the entry it stands at. -/
theorem forLoop_replaced {body : ℕ → List α → Option (List α)} {f : ℕ → α → α} (n : ℕ) {lo : ℕ} {a : List α}
    (hbody : ∀ i b, (hi : i < b.length) → lo ≤ i → i < lo + n → b.length = a.length →
      body i b = some (b.set i (f i b[i])))
    (hn : lo + n ≤ a.length) : forLoop body lo n a = some (replaced f lo n a) := by
  induction n generalizing lo a with
  | zero => rw [forLoop_zero, replaced_zero]
  | succ n ih =>
    have hlo : lo < a.length := by omega
    have hlen : (a.set lo (f lo a[lo])).length = a.length := List.length_set
    rw [forLoop_succ n (hbody lo a hlo (Nat.le_refl lo) (by omega) rfl), replaced_succ f n hlo]
    apply ih
    · intro i b hi h₁ h₂ hb
      exact hbody i b hi (by omega) (by omega) (hb.trans hlen)
    · omega

end CompilerRt.ArrayLoop
