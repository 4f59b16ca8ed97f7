import CompilerRt.Tsan.Platform
import CompilerRt.Tsan.Shadow
import Mathlib

/-! # Accesses to ranges

`MemoryAccessRange` of `lib/tsan/rtl/tsan_rtl_thread.cc`: bytes up to the first cell, whole cells, and the bytes behind
the last one. The shadow pointer goes on from cell to cell, so it is the one of the cell only where the mapping goes on
as well.
-/
namespace CompilerRt.Tsan.Platform

/-- The layouts with the COMPAT one, which maps addresses as that of C and C++ does. -/
inductive Mapping where
  | of (l : Layout)
  | compat
  deriving DecidableEq

namespace Mapping

def kLinuxAppMemBeg : Mapping → uptr
  | of l => l.kLinuxAppMemBeg
  | compat => 0x290000000000

def kLinuxAppMemEnd : Mapping → uptr
  | of l => l.kLinuxAppMemEnd
  | compat => 0x7fffffffffff

def MemToShadow (n : ShadowCount) (addr : uptr) : Mapping → uptr
  | of l => l.MemToShadow n addr
  | compat => (addr &&& ~~~(kLinuxAppMemMsk ||| (kShadowCell - 1))) * n.kShadowCnt

def IsAppMem (m : Mapping) (mem : uptr) : Bool := m.kLinuxAppMemBeg ≤ mem && mem ≤ m.kLinuxAppMemEnd

end Mapping

/-- A call of `MemoryAccessImpl`, with the offset that the shadow word of the access gets. -/
structure Piece where
  addr : uptr
  addr0 : ℕ
  kAccessSizeLog : ℕ
  shadow_mem : uptr

def byteAt (addr shadow_mem : uptr) : Piece := ⟨addr,(addr &&& (kShadowCell - 1)).toNat,0,shadow_mem⟩
def cellAt (addr shadow_mem : uptr) : Piece := ⟨addr,0,3,shadow_mem⟩

/-- Handle unaligned beginning, if any. -/
def beginning (shadow_mem : uptr) : uptr → ℕ → List Piece × uptr × ℕ
  | addr, 0 => ([],addr,0)
  | addr, size + 1 =>
    if addr % kShadowCell ≠ 0 then
      let r := beginning shadow_mem (addr + 1) size
      (byteAt addr shadow_mem :: r.1,r.2)
    else ([],addr,size + 1)

/-- Handle middle part, if any; the pointer is to words. -/
def middle (n : ShadowCount) (shadow_mem addr : uptr) (size : ℕ) : List Piece × uptr × uptr × ℕ :=
  if kShadowCell.toNat ≤ size then
    let r := middle n (shadow_mem + n.kShadowCnt * kShadowSize) (addr + kShadowCell) (size - kShadowCell.toNat)
    (cellAt addr shadow_mem :: r.1,r.2)
  else ([],shadow_mem,addr,size)
termination_by size
decreasing_by
  have hcell : kShadowCell.toNat = 8 := rfl
  omega

/-- Handle ending, if any. -/
def ending (shadow_mem : uptr) : uptr → ℕ → List Piece
  | _, 0 => []
  | addr, size + 1 => byteAt addr shadow_mem :: ending shadow_mem (addr + 1) size

section Range
variable (m : Mapping) (n : ShadowCount) (addr size : uptr)

def pieces : List Piece :=
  let shadow_mem := m.MemToShadow n addr
  let b := beginning shadow_mem addr size.toNat
  let shadow_mem := if addr % kShadowCell ≠ 0 then shadow_mem + n.kShadowCnt * kShadowSize else shadow_mem
  let r := middle n shadow_mem b.2.1 b.2.2
  b.1 ++ r.1 ++ ending r.2.1 r.2.2.1 r.2.2.2

/-- The word of the thread and the calls, which all get that word; none where the epoch overflows. -/
def MemoryAccessRange (fast_state : u64) : Option (u64 × List Piece) :=
  if size = 0 then some (fast_state,[])
  else if FastState.GetIgnoreBit fast_state then some (fast_state,[])
  else (FastState.IncrementEpoch fast_state).map fun fast_state => (fast_state,pieces m n addr size)

end Range

/-! ## What the range is split for -/

def Piece.bytes (p : Piece) : List uptr := (List.range (2^p.kAccessSizeLog)).map fun i => p.addr + BitVec.ofNat 64 i

/-- Each byte of the range is accessed once, in order, no piece crosses its cell, and each has the shadow of its cell. -/
structure Covered (m : Mapping) (n : ShadowCount) (addr size : uptr) (ps : List Piece) : Prop where
  bytes : ps.flatMap Piece.bytes = (List.range size.toNat).map fun i => addr + BitVec.ofNat 64 i
  nodup : (ps.flatMap Piece.bytes).Nodup
  inCell : ∀ p ∈ ps, p.addr0 = p.addr.toNat % 8 ∧ p.addr0 + 2^p.kAccessSizeLog ≤ 8
  shadow : ∀ p ∈ ps, p.shadow_mem = m.MemToShadow n p.addr

/-- The size of the blocks in which the mapping goes on from cell to cell. -/
def Mapping.block (n : ShadowCount) : Mapping → Option ℕ
  | of .cpp => none
  | of (.go false) => none
  | of (.go true) => some (2^40 / n.cnt)
  | compat => some (2^42)

/-- The range is in one block. -/
def OneBlock (m : Mapping) (n : ShadowCount) (addr size : uptr) : Prop :=
  ∀ B, m.block n = some B → size = 0 ∨ addr.toNat / B = (addr.toNat + size.toNat - 1) / B

/-! ## The pieces -/

variable {m : Mapping} {n : ShadowCount} {addr size a b shadow_mem : uptr} {k s : ℕ}

theorem toNat_add_ofNat (h : a.toNat + k < 2^64) : (a + BitVec.ofNat 64 k).toNat = a.toNat + k := by
  rw [BitVec.toNat_add, BitVec.toNat_ofNat, Nat.mod_eq_of_lt (a := k) (by omega), Nat.mod_eq_of_lt h]

theorem add_ofNat_add (a : uptr) (i j : ℕ) : a + BitVec.ofNat 64 i + BitVec.ofNat 64 j = a + BitVec.ofNat 64 (i + j) := by
  rw [BitVec.add_assoc, BitVec.ofNat_add]

theorem mod_kShadowCell (a : uptr) : a % kShadowCell = 0 ↔ a.toNat % 8 = 0 := by
  rw [← BitVec.toNat_inj, BitVec.toNat_umod]
  rfl

theorem beginning_eq (shadow_mem : uptr) (h : a.toNat + s < 2^64) :
    beginning shadow_mem a s = ((List.range (min s ((8 - a.toNat % 8) % 8))).map fun i =>
        byteAt (a + BitVec.ofNat 64 i) shadow_mem,
      a + BitVec.ofNat 64 (min s ((8 - a.toNat % 8) % 8)),s - min s ((8 - a.toNat % 8) % 8)) := by
  induction s generalizing a with
  | zero => simp [beginning]
  | succ s ih =>
    rw [beginning]
    by_cases hmod : a.toNat % 8 = 0
    · rw [if_neg (not_not_intro ((mod_kShadowCell a).mpr hmod)), hmod]
      simp
    · have hone : (a + 1).toNat = a.toNat + 1 := toNat_add_ofNat (k := 1) (by omega)
      have hcount : min (s + 1) ((8 - a.toNat % 8) % 8) = min s ((8 - (a.toNat + 1) % 8) % 8) + 1 := by omega
      have hnext := ih (a := a + 1) (by omega)
      rw [hone] at hnext
      rw [if_pos (mt (mod_kShadowCell a).mp hmod), hcount, List.range_succ_eq_map, List.map_cons, List.map_map]
      dsimp only
      rw [hnext]
      refine Prod.ext_iff.mpr ⟨?_,Prod.ext_iff.mpr ⟨?_,?_⟩⟩
      · dsimp only
        congr 1
        · simp
        · refine List.map_congr_left fun i _ => ?_
          rw [Function.comp_apply, Nat.succ_eq_add_one, Nat.add_comm i 1]
          exact congrArg (byteAt · shadow_mem) (add_ofNat_add a 1 i)
      · dsimp only
        rw [Nat.add_comm (min s _) 1]
        exact add_ofNat_add a 1 _
      · dsimp only
        omega

theorem middle_eq (n : ShadowCount) (shadow_mem a : uptr) (s : ℕ) :
    middle n shadow_mem a s = ((List.range (s / 8)).map fun i =>
        cellAt (a + BitVec.ofNat 64 (8 * i)) (shadow_mem + BitVec.ofNat 64 (n.cnt * 8 * i)),
      shadow_mem + BitVec.ofNat 64 (n.cnt * 8 * (s / 8)),a + BitVec.ofNat 64 (8 * (s / 8)),s % 8) := by
  induction s using Nat.strong_induction_on generalizing shadow_mem a with
  | _ s ih =>
    have hcell : kShadowCell.toNat = 8 := rfl
    have hwords : n.kShadowCnt * kShadowSize = BitVec.ofNat 64 (n.cnt * 8) := by cases n <;> rfl
    rw [middle, hcell, hwords]
    by_cases hle : 8 ≤ s
    · have hdiv : s / 8 = (s - 8) / 8 + 1 := by omega
      have hmod : (s - 8) % 8 = s % 8 := by omega
      have hnext := ih (s - 8) (by omega) (shadow_mem + BitVec.ofNat 64 (n.cnt * 8)) (a + BitVec.ofNat 64 8)
      have hcell' : kShadowCell = BitVec.ofNat 64 8 := rfl
      have hstep : ∀ i : ℕ, 8 * (i + 1) = 8 + 8 * i := fun i => by rw [Nat.mul_add, Nat.mul_one, Nat.add_comm]
      have hstep' : ∀ i : ℕ, n.cnt * 8 * (i + 1) = n.cnt * 8 + n.cnt * 8 * i := fun i => by
        rw [Nat.mul_add, Nat.mul_one, Nat.add_comm]
      rw [if_pos hle, hcell']
      dsimp only
      rw [hnext, hdiv, hmod, List.range_succ_eq_map, List.map_cons, List.map_map]
      refine Prod.ext_iff.mpr ⟨?_,Prod.ext_iff.mpr ⟨?_,Prod.ext_iff.mpr ⟨?_,rfl⟩⟩⟩
      · dsimp only
        congr 1
        · simp
        · refine List.map_congr_left fun i _ => ?_
          rw [Function.comp_apply, Nat.succ_eq_add_one, add_ofNat_add, add_ofNat_add, hstep, hstep']
      · dsimp only
        rw [add_ofNat_add, hstep']
      · dsimp only
        rw [add_ofNat_add, hstep]
    · have hzero : s / 8 = 0 := Nat.div_eq_of_lt (by omega)
      have hmod : s % 8 = s := Nat.mod_eq_of_lt (by omega)
      rw [if_neg hle, hzero, hmod]
      simp

theorem ending_eq (shadow_mem a : uptr) (s : ℕ) :
    ending shadow_mem a s = (List.range s).map fun i => byteAt (a + BitVec.ofNat 64 i) shadow_mem := by
  induction s generalizing a with
  | zero => rfl
  | succ s ih =>
    rw [ending, ih, List.range_succ_eq_map, List.map_cons, List.map_map, BitVec.add_zero]
    congr 1
    refine List.map_congr_left fun i _ => ?_
    rw [Function.comp_apply, Nat.succ_eq_add_one, Nat.add_comm i 1]
    exact congrArg (byteAt · shadow_mem) (add_ofNat_add a 1 i)

theorem flatMap_byteAt (a shadow_mem : uptr) (k : ℕ) :
    ((List.range k).map fun i => byteAt (a + BitVec.ofNat 64 i) shadow_mem).flatMap Piece.bytes =
      (List.range k).map fun i => a + BitVec.ofNat 64 i := by
  have hone : ∀ b, (byteAt b shadow_mem).bytes = [b] := by
    intro b
    rw [Piece.bytes, byteAt]
    simp
  rw [List.flatMap_map]
  simp only [hone]
  exact List.flatMap_pure_eq_map ..

theorem flatMap_cellAt (a : uptr) (f : ℕ → uptr) (k : ℕ) :
    ((List.range k).map fun i => cellAt (a + BitVec.ofNat 64 (8 * i)) (f i)).flatMap Piece.bytes =
      (List.range (8 * k)).map fun i => a + BitVec.ofNat 64 i := by
  induction k with
  | zero => rfl
  | succ k ih =>
    rw [List.range_succ, List.map_append, List.flatMap_append, ih, Nat.mul_succ, List.range_add, List.map_append,
      List.map_map, List.map_singleton, List.flatMap_singleton]
    congr 1
    refine List.map_congr_left fun i _ => ?_
    rw [Function.comp_apply, cellAt, add_ofNat_add]

/-- The place of a piece in the range, and its shadow pointer, which went on from that of the first cell. -/
structure Follows (m : Mapping) (n : ShadowCount) (addr size : uptr) (p : Piece) : Prop where
  inside : ∃ i < size.toNat, p.addr = addr + BitVec.ofNat 64 i
  offset : p.addr0 = p.addr.toNat % 8
  inCell : p.addr0 + 2^p.kAccessSizeLog ≤ 8
  shadow : p.shadow_mem = m.MemToShadow n addr + BitVec.ofNat 64 (n.cnt * 8 * (cell p.addr - cell addr))

theorem byteAt_offset (a shadow_mem : uptr) : (byteAt a shadow_mem).addr0 = a.toNat % 8 :=
  BitMask.toNat_and_low (k := 3) a (by decide)

theorem follows_byteAt {i j : ℕ} (h : addr.toNat + size.toNat ≤ 2^47) (hi : i < size.toNat)
    (hcell : (addr.toNat + i) / 8 = addr.toNat / 8 + j) (hshadow : shadow_mem = m.MemToShadow n addr +
      BitVec.ofNat 64 (n.cnt * 8 * j)) : Follows m n addr size (byteAt (addr + BitVec.ofNat 64 i) shadow_mem) := by
  have haddr : (addr + BitVec.ofNat 64 i).toNat = addr.toNat + i := toNat_add_ofNat (by omega)
  refine ⟨⟨i,hi,rfl⟩,byteAt_offset _ _,?_,?_⟩
  · rw [byteAt_offset]
    have hmod := Nat.mod_lt (addr + BitVec.ofNat 64 i).toNat (by decide : 8 > 0)
    exact hmod
  · have hj : cell (addr + BitVec.ofNat 64 i) - cell addr = j := by
      rw [cell, cell, haddr, hcell, Nat.add_sub_cancel_left]
    exact hshadow.trans (by rw [← hj]; rfl)

theorem follows_cellAt {i j : ℕ} (h : addr.toNat + size.toNat ≤ 2^47) (hi : i < size.toNat)
    (hmod : (addr.toNat + i) % 8 = 0) (hcell : (addr.toNat + i) / 8 = addr.toNat / 8 + j)
    (hshadow : shadow_mem = m.MemToShadow n addr + BitVec.ofNat 64 (n.cnt * 8 * j)) :
    Follows m n addr size (cellAt (addr + BitVec.ofNat 64 i) shadow_mem) := by
  have haddr : (addr + BitVec.ofNat 64 i).toNat = addr.toNat + i := toNat_add_ofNat (by omega)
  refine ⟨⟨i,hi,rfl⟩,?_,le_rfl,?_⟩
  · rw [cellAt, haddr, hmod]
  · have hj : cell (addr + BitVec.ofNat 64 i) - cell addr = j := by
      rw [cell, cell, haddr, hcell, Nat.add_sub_cancel_left]
    exact hshadow.trans (by rw [← hj]; rfl)

/-- The three loops share out the range. -/
theorem pieces_spec (m : Mapping) (n : ShadowCount) (h : addr.toNat + size.toNat ≤ 2^47) :
    ((pieces m n addr size).flatMap Piece.bytes = (List.range size.toNat).map fun i => addr + BitVec.ofNat 64 i) ∧
    ∀ p ∈ pieces m n addr size, Follows m n addr size p := by
  obtain ⟨k,hk⟩ : ∃ k, k = min size.toNat ((8 - addr.toNat % 8) % 8) := ⟨_,rfl⟩
  obtain ⟨u,hu⟩ : ∃ u, u = if addr.toNat % 8 = 0 then 0 else 1 := ⟨_,rfl⟩
  have hbeginning := beginning_eq (m.MemToShadow n addr) (a := addr) (s := size.toNat) (by omega)
  rw [← hk] at hbeginning
  have hwords : n.kShadowCnt * kShadowSize = BitVec.ofNat 64 (n.cnt * 8) := by cases n <;> rfl
  have hnext : (if addr % kShadowCell ≠ 0 then m.MemToShadow n addr + n.kShadowCnt * kShadowSize
      else m.MemToShadow n addr) = m.MemToShadow n addr + BitVec.ofNat 64 (n.cnt * 8 * u) := by
    rw [hwords, hu]
    by_cases hmod : addr.toNat % 8 = 0
    · rw [if_neg (not_not_intro ((mod_kShadowCell addr).mpr hmod)), if_pos hmod]
      simp
    · rw [if_pos (mt (mod_kShadowCell addr).mp hmod), if_neg hmod, Nat.mul_one]
  have hu' : addr.toNat % 8 = 0 ∧ u = 0 ∨ addr.toNat % 8 ≠ 0 ∧ u = 1 := by
    rw [hu]
    split_ifs with hmod
    · exact .inl ⟨hmod,rfl⟩
    · exact .inr ⟨hmod,rfl⟩
  rw [pieces, hbeginning, hnext, middle_eq, ending_eq]
  dsimp only
  obtain ⟨c,hc⟩ : ∃ c, c = (size.toNat - k) / 8 := ⟨_,rfl⟩
  obtain ⟨e,he⟩ : ∃ e, e = (size.toNat - k) % 8 := ⟨_,rfl⟩
  rw [← hc, ← he]
  constructor
  · have hsize : size.toNat = k + 8 * c + e := by omega
    rw [List.flatMap_append, List.flatMap_append, flatMap_byteAt, flatMap_cellAt, flatMap_byteAt, hsize,
      List.range_add, List.map_append, List.range_add, List.map_append, List.map_map, List.map_map]
    congr 1
    · congr 1
      refine List.map_congr_left fun i _ => ?_
      rw [Function.comp_apply, add_ofNat_add]
    · refine List.map_congr_left fun i _ => ?_
      rw [Function.comp_apply, add_ofNat_add, add_ofNat_add, Nat.add_assoc]
  · intro p hp
    rw [List.mem_append, List.mem_append, List.mem_map, List.mem_map, List.mem_map] at hp
    obtain (⟨i,hi,rfl⟩ | ⟨i,hi,rfl⟩) | ⟨i,hi,rfl⟩ := hp
    · rw [List.mem_range] at hi
      refine follows_byteAt (j := 0) h (by omega) (by omega) ?_
      simp
    · rw [List.mem_range] at hi
      rw [add_ofNat_add]
      refine follows_cellAt (j := u + i) h (by omega) (by omega) (by omega) ?_
      rw [add_ofNat_add, Nat.mul_add]
    · rw [List.mem_range] at hi
      rw [add_ofNat_add, add_ofNat_add]
      refine follows_byteAt (j := u + c) h (by omega) (by omega) ?_
      rw [add_ofNat_add, Nat.mul_add]

/-! ## Where the mapping goes on -/

/-- The shadow of `b` is as far behind that of `a` as their cells are apart. -/
def GoesOn (m : Mapping) (n : ShadowCount) (a b : uptr) : Prop :=
  m.MemToShadow n b = m.MemToShadow n a + BitVec.ofNat 64 (n.cnt * 8 * (cell b - cell a))

theorem memToShadow_congr (m : Mapping) (n : ShadowCount) (h : cell a = cell b) :
    m.MemToShadow n a = m.MemToShadow n b := by
  have hlow : a &&& ~~~(kShadowCell - 1) = b &&& ~~~(kShadowCell - 1) := by
    have htoNat : ∀ x : uptr, (x &&& ~~~(kShadowCell - 1)).toNat = cell x * 8 := fun x => BitMask.toNat_and_not_low x 3
    rw [← BitVec.toNat_inj, htoNat, htoNat, h]
  have hmasked : a &&& ~~~(kLinuxAppMemMsk ||| (kShadowCell - 1)) =
      b &&& ~~~(kLinuxAppMemMsk ||| (kShadowCell - 1)) := by
    have hsplit : ∀ x : uptr, x &&& ~~~(kLinuxAppMemMsk ||| (kShadowCell - 1)) =
        x &&& ~~~(kShadowCell - 1) &&& ~~~kLinuxAppMemMsk := fun x => by
      rw [BitVec.not_or, BitVec.and_assoc, BitVec.and_comm (~~~(kShadowCell - 1))]
    rw [hsplit, hsplit, hlow]
  match m with
  | .of .cpp => exact congrArg (· * n.kShadowCnt) hmasked
  | .of (.go w) => exact congrArg (fun x => x * n.kShadowCnt ||| kLinuxShadowMsk w) hlow
  | .compat => exact congrArg (· * n.kShadowCnt) hmasked

theorem toNat_masked (n : ShadowCount) (ha : a.toNat < 2^47) :
    ((a &&& ~~~(kLinuxAppMemMsk ||| (kShadowCell - 1))) * n.kShadowCnt).toNat = a.toNat % 2^42 / 8 * 8 * n.cnt := by
  have hhigh : (a &&& ~~~kLinuxAppMemMsk).toNat = a.toNat % 2^42 := by
    have hmask : kLinuxAppMemMsk = BitVec.ofNat 64 ((2^5 - 1) * 2^42) := by decide
    rw [hmask]
    exact BitMask.toNat_and_not_field ha
  have hscale := toNat_scale (x := a &&& ~~~kLinuxAppMemMsk) n (by rw [hhigh]; omega)
  rwa [cell, hhigh, BitVec.and_assoc, ← BitVec.not_or] at hscale

theorem goesOn_iff_toNat (hlt : (m.MemToShadow n a).toNat + n.cnt * 8 * (cell b - cell a) < 2^64) :
    GoesOn m n a b ↔ (m.MemToShadow n b).toNat = (m.MemToShadow n a).toNat + n.cnt * 8 * (cell b - cell a) := by
  rw [GoesOn, ← BitVec.toNat_inj, toNat_add_ofNat hlt]

theorem cnt_le (n : ShadowCount) : 0 < n.cnt ∧ n.cnt ≤ 8 := by
  cases n <;> decide

/-- Both layouts without an own bit of shadow memory go on inside of a block of 2^42 bytes. -/
theorem goesOn_masked (hm : ∀ x, m.MemToShadow n x = (x &&& ~~~(kLinuxAppMemMsk ||| (kShadowCell - 1))) * n.kShadowCnt)
    (hab : a.toNat ≤ b.toNat) (hb : b.toNat < 2^47) :
    (a.toNat / 2^42 = b.toNat / 2^42 → GoesOn m n a b) ∧
    (b.toNat = (a.toNat / 2^42 + 1) * 2^42 → ¬GoesOn m n a b) := by
  have hcnt := cnt_le n
  have hva : (m.MemToShadow n a).toNat = a.toNat % 2^42 / 8 * 8 * n.cnt := by rw [hm, toNat_masked n (by omega)]
  have hvb : (m.MemToShadow n b).toNat = b.toNat % 2^42 / 8 * 8 * n.cnt := by rw [hm, toNat_masked n hb]
  have hcells : cell b - cell a ≤ 2^44 := by
    rw [cell, cell]
    omega
  have hbound : n.cnt * 8 * (cell b - cell a) ≤ 8 * 8 * 2^44 :=
    Nat.mul_le_mul (Nat.mul_le_mul_right 8 hcnt.2) hcells
  have hbelow : a.toNat % 2^42 / 8 * 8 * n.cnt ≤ 2^42 * 8 := Nat.mul_le_mul (by omega) hcnt.2
  have hiff := goesOn_iff_toNat (m := m) (n := n) (a := a) (b := b) (by omega)
  have hcommon : n.cnt * 8 * (cell b - cell a) = (cell b - cell a) * 8 * n.cnt := by ring
  rw [hiff, hva, hvb, hcommon, ← Nat.add_mul]
  constructor
  · intro heq
    congr 1
    rw [cell, cell]
    omega
  · intro hnext heq
    have hcells := Nat.eq_of_mul_eq_mul_right hcnt.1 heq
    rw [cell, cell] at hcells
    omega

/-- The layouts of Go go on just where their bit is that of the scaled address or not for both. -/
theorem goesOn_go {w : Bool} (ha : (Layout.go w).IsAppMem a) (hb : (Layout.go w).IsAppMem b) (hab : a.toNat ≤ b.toNat) :
    GoesOn (.of (.go w)) n a b ↔
      (scaled n a).getLsbD (shadowBit w) = (scaled n b).getLsbD (shadowBit w) := by
  have hcnt := cnt_le n
  have hval : ∀ x, (Layout.go w).IsAppMem x → ((Layout.go w).MemToShadow n x).toNat =
      cell x * 8 * n.cnt + if (scaled n x).getLsbD (shadowBit w) then 0 else 2^shadowBit w := by
    intro x hx
    cases hbit : (scaled n x).getLsbD (shadowBit w) with
    | false => exact toNat_memToShadow_go hx hbit
    | true => rw [memToShadow_go, BitMask.or_twoPow_of_set hbit, toNat_scaled hx, if_pos rfl, Nat.add_zero]
  have hva := hval a ha
  have hvb := hval b hb
  rw [isAppMem_go] at ha hb
  have hpow : 0 < 2^shadowBit w ∧ 2^shadowBit w ≤ 2^44 := by
    cases w <;> decide
  have hscaled : ∀ x : uptr, x.toNat ≤ 0xfcffffffff → cell x * 8 * n.cnt ≤ 2^40 * 8 := by
    intro x hx
    refine Nat.mul_le_mul ?_ hcnt.2
    rw [cell]
    omega
  have hsa := hscaled a ha
  have hsb := hscaled b hb
  have hcells : cell a * 8 * n.cnt + n.cnt * 8 * (cell b - cell a) = cell b * 8 * n.cnt := by
    have hle : cell a ≤ cell b := Nat.div_le_div_right hab
    obtain ⟨d,hd⟩ := Nat.exists_eq_add_of_le hle
    rw [hd, Nat.add_sub_cancel_left]
    ring
  have hM : ∀ x, (Mapping.of (.go w)).MemToShadow n x = (Layout.go w).MemToShadow n x := fun _ => rfl
  have hlt : ((Mapping.of (.go w)).MemToShadow n a).toNat + n.cnt * 8 * (cell b - cell a) < 2^64 := by
    rw [hM, hva]
    split_ifs <;> omega
  rw [goesOn_iff_toNat hlt, hM, hM, hva, hvb]
  cases (scaled n a).getLsbD (shadowBit w) <;> cases (scaled n b).getLsbD (shadowBit w) <;>
    simp only [if_true, Bool.false_eq_true, if_false, iff_true, iff_false, reduceCtorEq] <;> omega

/-- In a range, what holds in one block and fails where the next one begins, holds if there is no next one. -/
theorem forall_block {B a s : ℕ} {P : ℕ → Prop} (hB : 0 < B)
    (hsame : ∀ i < s, a / B = (a + i) / B → P i) (hnext : ∀ i < s, a + i = (a / B + 1) * B → ¬P i) :
    (∀ i < s, P i) ↔ s = 0 ∨ a / B = (a + s - 1) / B := by
  constructor
  · intro hall
    by_contra hnot
    rw [not_or] at hnot
    obtain ⟨hs,hne⟩ := hnot
    have hlow := Nat.div_mul_le_self (a + s - 1) B
    have hhigh : a < (a / B + 1) * B := Nat.lt_mul_of_div_lt (Nat.lt_succ_self _) hB
    have hle : a / B ≤ (a + s - 1) / B := Nat.div_le_div_right (by omega)
    have hstep : (a / B + 1) * B ≤ (a + s - 1) / B * B := Nat.mul_le_mul_right B (by omega)
    exact hnext ((a / B + 1) * B - a) (by omega) (by omega) (hall _ (by omega))
  · rintro (rfl | heq) i hi
    · exact absurd hi (Nat.not_lt_zero i)
    · refine hsame i hi (le_antisymm (Nat.div_le_div_right (by omega)) ?_)
      rw [heq]
      exact Nat.div_le_div_right (by omega)

/-! ## Ranges of application memory -/

def InAppMem (m : Mapping) (addr size : uptr) : Prop := ∀ i < size.toNat, m.IsAppMem (addr + BitVec.ofNat 64 i)

theorem isAppMem_lt (h : m.IsAppMem a) : a.toNat < 2^47 := by
  rw [Mapping.IsAppMem, Bool.and_eq_true, decide_eq_true_iff, decide_eq_true_iff, BitVec.le_def] at h
  have hend : m.kLinuxAppMemEnd.toNat < 2^47 := by
    match m with
    | .of .cpp => decide
    | .of (.go true) => decide
    | .of (.go false) => decide
    | .compat => decide
  exact h.2.trans_lt hend

theorem InAppMem.end_le (h : InAppMem m addr size) (hsize : size.toNat ≠ 0) : addr.toNat + size.toNat ≤ 2^47 := by
  have hfirst := isAppMem_lt (h 0 (by omega))
  rw [BitVec.add_zero] at hfirst
  by_contra hlong
  have hlast := isAppMem_lt (h (2^47 - addr.toNat) (by omega))
  rw [toNat_add_ofNat (by omega)] at hlast
  omega

/-- The mapping goes on over the whole range just where the range is in one block. -/
theorem goesOn_range (h : InAppMem m addr size) :
    (∀ i < size.toNat, GoesOn m n addr (addr + BitVec.ofNat 64 i)) ↔ OneBlock m n addr size := by
  by_cases hsize : size.toNat = 0
  · have hzero : size = 0 := BitVec.eq_of_toNat_eq hsize
    rw [hsize]
    exact ⟨fun _ B _ => .inl hzero,fun _ i hi => absurd hi (Nat.not_lt_zero i)⟩
  have hend := h.end_le hsize
  have hne : size ≠ 0 := fun hzero => hsize (congrArg BitVec.toNat hzero)
  have haddr : ∀ i < size.toNat, (addr + BitVec.ofNat 64 i).toNat = addr.toNat + i := fun i hi =>
    toNat_add_ofNat (by omega)
  have hfirst : m.IsAppMem addr := by
    have h0 := h 0 (by omega)
    rwa [BitVec.add_zero] at h0
  have hblock : ∀ B, m.block n = some B → (OneBlock m n addr size ↔ size.toNat = 0 ∨
      addr.toNat / B = (addr.toNat + size.toNat - 1) / B) := by
    intro B hB
    refine ⟨fun hone => .inr ((hone B hB).resolve_left hne),fun hor B' hB' => .inr ?_⟩
    rw [hB] at hB'
    cases hB'
    exact hor.resolve_left hsize
  match m with
  | .of .cpp =>
    refine ⟨fun _ B hB => (nomatch hB),fun _ i hi => ?_⟩
    refine (goesOn_masked (fun _ => rfl) ?_ (isAppMem_lt (h i hi))).1 ?_
    · rw [haddr i hi]
      exact Nat.le_add_right ..
    · have hlow := isAppMem_cpp.mp hfirst
      have hlast := isAppMem_cpp.mp (h i hi)
      omega
  | .of (.go false) =>
    refine ⟨fun _ B hB => (nomatch hB),fun _ i hi => ?_⟩
    refine (goesOn_go hfirst (h i hi) ?_).mpr ?_
    · rw [haddr i hi]
      exact Nat.le_add_right ..
    · rw [scaled_clear_linux hfirst, scaled_clear_linux (h i hi)]
  | .of (.go true) =>
    have hcnt := cnt_le n
    have hpos : 0 < 2^40 / n.cnt := Nat.div_pos (by omega) hcnt.1
    have hiff : ∀ i < size.toNat, GoesOn (.of (.go true)) n addr (addr + BitVec.ofNat 64 i) ↔
        (addr.toNat / (2^40 / n.cnt) % 2 = 1 ↔ (addr.toNat + i) / (2^40 / n.cnt) % 2 = 1) := by
      intro i hi
      have hle : addr.toNat ≤ (addr + BitVec.ofNat 64 i).toNat := by
        rw [haddr i hi]
        exact Nat.le_add_right ..
      rw [goesOn_go hfirst (h i hi) hle, scaled_bit_windows hfirst, scaled_bit_windows (h i hi), haddr i hi,
        decide_eq_decide]
    rw [hblock _ rfl]
    refine forall_block hpos (fun i hi hsame => ?_) fun i hi hnext => ?_
    · rw [hiff i hi, hsame]
    · rw [hiff i hi, hnext, Nat.mul_div_cancel _ hpos]
      omega
  | .compat =>
    rw [hblock _ rfl]
    have hmasked := fun i hi => goesOn_masked (m := .compat) (n := n) (a := addr) (b := addr + BitVec.ofNat 64 i)
      (fun _ => rfl) (by rw [haddr i hi]; exact Nat.le_add_right ..) (isAppMem_lt (h i hi))
    refine forall_block (by decide) (fun i hi hsame => (hmasked i hi).1 ?_) fun i hi hnext => (hmasked i hi).2 ?_
    · rwa [haddr i hi]
    · rwa [haddr i hi]

/-- The pieces cover the range just where it is in one block of the mapping. -/
theorem pieces_covered (h : InAppMem m addr size) (hsize : size.toNat ≠ 0) :
    Covered m n addr size (pieces m n addr size) ↔ OneBlock m n addr size := by
  have hend := h.end_le hsize
  obtain ⟨hbytes,hfollows⟩ := pieces_spec m n hend
  rw [← goesOn_range h]
  constructor
  · intro hcovered i hi
    have hmem : addr + BitVec.ofNat 64 i ∈ (pieces m n addr size).flatMap Piece.bytes := by
      rw [hbytes]
      exact List.mem_map_of_mem (List.mem_range.mpr hi)
    obtain ⟨p,hp,hbyte⟩ := List.mem_flatMap.mp hmem
    obtain ⟨j,hj,heq⟩ := List.mem_map.mp hbyte
    rw [List.mem_range] at hj
    obtain ⟨⟨l,hl,haddr⟩,hoffset,hin,hshadow⟩ := hfollows p hp
    have hp47 : p.addr.toNat < 2^47 := by
      rw [haddr]
      exact isAppMem_lt (h l hl)
    have hcell : cell (addr + BitVec.ofNat 64 i) = cell p.addr := by
      have htoNat : (p.addr + BitVec.ofNat 64 j).toNat = p.addr.toNat + j := toNat_add_ofNat (by omega)
      rw [← heq, cell, cell, htoNat]
      omega
    rw [GoesOn, memToShadow_congr m n hcell, hcell, ← hcovered.shadow p hp]
    exact hshadow
  · intro hgoes
    refine ⟨hbytes,?_,fun p hp => ⟨(hfollows p hp).offset,(hfollows p hp).inCell⟩,fun p hp => ?_⟩
    · rw [hbytes]
      refine List.Nodup.map_on (fun i hi j hj heq => ?_) List.nodup_range
      rw [List.mem_range] at hi hj
      have htoNat := congrArg BitVec.toNat heq
      rw [toNat_add_ofNat (by omega), toNat_add_ofNat (by omega)] at htoNat
      omega
    · obtain ⟨⟨i,hi,haddr⟩,-,-,hshadow⟩ := hfollows p hp
      rw [hshadow, haddr]
      exact (hgoes i hi).symm

/-- An access to a range of application memory covers it with the right shadow if and only if the range is in one block
of the mapping, as it always is for C and C++ and for Go on Linux. -/
theorem memoryAccessRange_covered {fast_state fast_state' : u64} {ps : List Piece} (h : InAppMem m addr size)
    (hignore : FastState.GetIgnoreBit fast_state = false)
    (he : MemoryAccessRange m n addr size fast_state = some (fast_state',ps)) :
    Covered m n addr size ps ↔ OneBlock m n addr size := by
  rw [MemoryAccessRange, hignore] at he
  by_cases hsize : size = 0
  · rw [if_pos hsize] at he
    cases he
    have hrange : size.toNat = 0 := congrArg BitVec.toNat hsize
    refine ⟨fun _ B _ => .inl hsize,fun _ => ⟨?_,List.nodup_nil,?_,?_⟩⟩
    · rw [hrange]
      rfl
    · exact fun p hp => absurd hp List.not_mem_nil
    · exact fun p hp => absurd hp List.not_mem_nil
  · rw [if_neg hsize, if_neg Bool.false_ne_true, Option.map_eq_some_iff] at he
    obtain ⟨x,-,heq⟩ := he
    cases heq
    exact pieces_covered h fun hzero => hsize (BitVec.eq_of_toNat_eq hzero)

/-- Two bytes of the heap of C, and their offsets. -/
theorem memoryAccessRange_covered_heap : ∃ x ps,
    MemoryAccessRange (.of .cpp) .four 0x7d0000000007 2 0 = some (x,ps) ∧
      (Covered (.of .cpp) .four 0x7d0000000007 2 ps ↔ OneBlock (.of .cpp) .four 0x7d0000000007 2) := by
  have happ : InAppMem (.of .cpp) 0x7d0000000007 2 := by
    have hall : ∀ i < 2, (Mapping.of .cpp).IsAppMem (0x7d0000000007 + BitVec.ofNat 64 i) := by decide
    exact hall
  have hstep : (FastState.IncrementEpoch 0).isSome := by decide
  obtain ⟨x,hx⟩ := Option.isSome_iff_exists.mp hstep
  have he : MemoryAccessRange (.of .cpp) .four 0x7d0000000007 2 0 =
      some (x,pieces (.of .cpp) .four 0x7d0000000007 2) := by
    rw [MemoryAccessRange, if_neg (by decide), if_neg (by decide), hx]
    rfl
  exact ⟨x,_,he,memoryAccessRange_covered happ (by decide) he⟩

/-- On Windows the second of two cells of Go gets a shadow that is not its own. -/
theorem memoryAccessRange_next_block : ∃ x ps,
    InAppMem (.of (.go true)) 0x3ffffffff8 16 ∧
      MemoryAccessRange (.of (.go true)) .four 0x3ffffffff8 16 0 = some (x,ps) ∧
      ¬Covered (.of (.go true)) .four 0x3ffffffff8 16 ps := by
  have happ : InAppMem (.of (.go true)) 0x3ffffffff8 16 := by
    have hall : ∀ i < 16, (Mapping.of (.go true)).IsAppMem (0x3ffffffff8 + BitVec.ofNat 64 i) := by decide
    exact hall
  have hstep : (FastState.IncrementEpoch 0).isSome := by decide
  obtain ⟨x,hx⟩ := Option.isSome_iff_exists.mp hstep
  have he : MemoryAccessRange (.of (.go true)) .four 0x3ffffffff8 16 0 =
      some (x,pieces (.of (.go true)) .four 0x3ffffffff8 16) := by
    rw [MemoryAccessRange, if_neg (by decide), if_neg (by decide), hx]
    rfl
  refine ⟨x,_,happ,he,fun hcovered => ?_⟩
  have hone := (pieces_covered happ (by decide)).mp hcovered
  exact absurd (hone _ rfl) (by decide)

end CompilerRt.Tsan.Platform
