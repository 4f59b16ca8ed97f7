import CompilerRt.Asan.PoisonShadow
import CompilerRt.Lib.Transition
import Mathlib

/-! # Global variables

`lib/asan/asan_globals.cc`. The compiler lays a redzone behind every global; while the initializers of one translation
unit run, the dynamically initialized globals of the others are poisoned as a whole. A failed `CHECK` has no result.
-/
namespace CompilerRt.AsanMapping

def kGlobalAndStackRedzone : ℕ := if SHADOW_GRANULARITY < 32 then 32 else SHADOW_GRANULARITY
def kAsanInitializationOrderMagic : BitVec 8 := 0xf6
def kAsanGlobalRedzoneMagic : BitVec 8 := 0xf9

def GetAlignedSize (size : ℕ) : ℕ :=
  (size + kGlobalAndStackRedzone - 1) / kGlobalAndStackRedzone * kGlobalAndStackRedzone

/-- A global as the compiler describes it, in memory and with room for its redzone. -/
structure Global (w : WordSize) where
  beg : ℕ
  size : ℕ
  size_with_redzone : ℕ
  has_dynamic_init : Bool
  beg_aligned : beg % 8 = 0
  size_aligned : size_with_redzone % 8 = 0
  room : GetAlignedSize size + kGlobalAndStackRedzone ≤ size_with_redzone
  inRange : w.InOneRange beg (beg + size_with_redzone)

structure GlobalFlags where
  report_globals : ℕ
  check_initialization_order : Bool

/-- `unregistered` is not in the source: it keeps what the lists do not tell. -/
structure Globals (w : WordSize) where
  shadow : Shadow
  list_of_all_globals : List (Global w)
  list_of_dynamic_init_globals : List (Global w)
  unregistered : List (Global w)

section Code
variable {w : WordSize} (flags : GlobalFlags)

def PoisonRedZones (sh : Shadow) (g : Global w) : Option Shadow :=
  let shadow_rz_size := kGlobalAndStackRedzone >>> SHADOW_SCALE
  if shadow_rz_size = 1 ∨ shadow_rz_size = 2 ∨ shadow_rz_size = 4 then
    let g_aligned_size :=
      kGlobalAndStackRedzone * ((g.size + kGlobalAndStackRedzone - 1) / kGlobalAndStackRedzone)
    (PoisonShadow w sh (g.beg + g_aligned_size) kGlobalAndStackRedzone kAsanGlobalRedzoneMagic).bind fun sh =>
      if g.size % kGlobalAndStackRedzone ≠ 0 then
        let g_aligned_down_size := kGlobalAndStackRedzone * (g.size / kGlobalAndStackRedzone)
        if g_aligned_down_size = g_aligned_size - kGlobalAndStackRedzone then
          PoisonShadowPartialRightRedzone w sh (g.beg + g_aligned_down_size) (g.size % kGlobalAndStackRedzone)
            kGlobalAndStackRedzone kAsanGlobalRedzoneMagic
        else none
      else some sh
  else none

/-- The checks that all functions on a global begin with. -/
def checked (g : Global w) : Bool :=
  w.AddrIsInMem g.beg && AddrIsAlignedByGranularity g.beg && AddrIsAlignedByGranularity g.size_with_redzone

def RegisterGlobal (s : Globals w) (g : Global w) : Option (Globals w) :=
  if flags.report_globals ≠ 0 ∧ checked g then
    (PoisonRedZones s.shadow g).map fun shadow =>
      { s with
        shadow := shadow
        list_of_all_globals := g :: s.list_of_all_globals
        list_of_dynamic_init_globals :=
          if g.has_dynamic_init then g :: s.list_of_dynamic_init_globals else s.list_of_dynamic_init_globals }
  else none

/-- The global stays on the lists. -/
def UnregisterGlobal (s : Globals w) (g : Global w) : Option (Globals w) :=
  if flags.report_globals ≠ 0 ∧ checked g then
    (PoisonShadow w s.shadow g.beg g.size_with_redzone 0).map fun shadow =>
      { s with shadow := shadow, unregistered := g :: s.unregistered }
  else none

def PoisonGlobalAndRedzones (sh : Shadow) (g : Global w) : Option Shadow :=
  if flags.check_initialization_order ∧ checked g then
    PoisonShadow w sh g.beg g.size_with_redzone kAsanInitializationOrderMagic
  else none

def UnpoisonGlobal (sh : Shadow) (g : Global w) : Option Shadow :=
  if flags.check_initialization_order ∧ checked g then
    (PoisonShadow w sh g.beg g.size_with_redzone 0).bind fun sh => PoisonRedZones sh g
  else none

def asan_register_globals (s : Globals w) (globals : List (Global w)) : Option (Globals w) :=
  if flags.report_globals = 0 then some s else globals.foldlM (RegisterGlobal flags) s

def asan_unregister_globals (s : Globals w) (globals : List (Global w)) : Option (Globals w) :=
  if flags.report_globals = 0 then some s else globals.foldlM (UnregisterGlobal flags) s

/-- The loop of `__asan_before_dynamic_init`, with `from_current_tu` at its end. -/
def beforeLoop (first_addr last_addr : ℕ) : List (Global w) → Bool → Shadow → Option (Bool × Shadow)
  | [], from_current_tu, sh => some (from_current_tu,sh)
  | g :: l, from_current_tu, sh =>
    let from_current_tu := if g.beg = last_addr then true else from_current_tu
    (if !from_current_tu then PoisonGlobalAndRedzones flags sh g else some sh).bind fun sh =>
      beforeLoop first_addr last_addr l (if g.beg = first_addr then false else from_current_tu) sh

def asan_before_dynamic_init (s : Globals w) (first_addr last_addr : ℕ) : Option (Globals w) :=
  if !flags.check_initialization_order then some s
  else if s.list_of_dynamic_init_globals = [] then none
  else
    (beforeLoop flags first_addr last_addr s.list_of_dynamic_init_globals false s.shadow).bind
      fun (from_current_tu,shadow) => if !from_current_tu then some { s with shadow := shadow } else none

def asan_after_dynamic_init (s : Globals w) : Option (Globals w) :=
  if !flags.check_initialization_order then some s
  else (s.list_of_dynamic_init_globals.foldlM (UnpoisonGlobal flags) s.shadow).map fun shadow =>
    { s with shadow := shadow }

end Code

/-! ## The shadow of a global -/

namespace Global
variable {w : WordSize} (g : Global w)

/-- Its first shadow byte, and their number. -/
def cell : ℕ := w.SHADOW_OFFSET + g.beg / 8
def granules : ℕ := g.size_with_redzone / 8

def Covers (c : ℕ) : Prop := g.cell ≤ c ∧ c < g.cell + g.granules

/-- What a registration should make of its granules: the object, a granule that it ends in, and the redzone. -/
def registeredShadow (k : ℕ) : BitVec 8 :=
  if 8 * k + 8 ≤ g.size then 0
  else if 8 * k < g.size then BitVec.ofNat 8 (g.size - 8 * k)
  else if 8 * k < GetAlignedSize g.size + kGlobalAndStackRedzone then kAsanGlobalRedzoneMagic
  else 0

/-- The two do not overlap, with their redzones. -/
def Apart (h : Global w) : Prop := g.beg + g.size_with_redzone ≤ h.beg ∨ h.beg + h.size_with_redzone ≤ g.beg

variable {g} {h : Global w}

theorem room' (g : Global w) : (g.size + 31) / 32 * 32 + 32 ≤ g.size_with_redzone := g.room

theorem granules_pos (g : Global w) : 4 ≤ g.granules := by
  have hroom := g.room'
  rw [granules]
  omega

theorem Apart.not_covers (hapart : g.Apart h) {k : ℕ} (hk : k < g.granules) : ¬h.Covers (g.cell + k) := by
  have hg := g.beg_aligned
  have hgs := g.size_aligned
  have hh := h.beg_aligned
  have hhs := h.size_aligned
  rw [granules] at hk
  rw [Covers, cell, cell, granules]
  rcases hapart with hle | hle <;> omega

theorem Apart.symm (hapart : g.Apart h) : h.Apart g := Or.symm hapart

instance : Std.Symm (Apart (w := w)) := ⟨fun _ _ => Apart.symm⟩

theorem not_apart_self (g : Global w) : ¬g.Apart g := by
  have hroom := g.room'
  rw [Apart]
  omega

end Global

/-! ## What each function does to the shadow -/

section Shadows
variable {w : WordSize} {flags : GlobalFlags} {sh : Shadow} {g : Global w} {gs : List (Global w)}

theorem WordSize.InOneRange.sub {a b p q : ℕ} (h : w.InOneRange p q) (ha : p ≤ a) (hab : a ≤ b) (hb : b ≤ q) :
    w.InOneRange a b := by
  refine h.imp (fun hlow => ?_) (fun hhigh => ?_)
  · have hright := (test_iff w q .lowMem).mp hlow.2
    refine ⟨(test_iff w a .lowMem).mpr ?_,(test_iff w b .lowMem).mpr ?_⟩ <;> dsimp only at hright ⊢ <;> omega
  · have hleft := (test_iff w p .highMem).mp hhigh.1
    have hright := (test_iff w q .highMem).mp hhigh.2
    refine ⟨(test_iff w a .highMem).mpr ?_,(test_iff w b .highMem).mpr ?_⟩ <;> dsimp only at hleft hright ⊢ <;> omega

theorem checked_eq (g : Global w) : checked g = true := by
  rw [checked, g.inRange.left, aligned_of_mod g.beg_aligned, aligned_of_mod g.size_aligned]
  rfl

theorem poisonShadow_global (sh : Shadow) (g : Global w) (value : BitVec 8) :
    PoisonShadow w sh g.beg g.size_with_redzone value = some (sh.fill g.cell g.granules fun _ => value) :=
  poisonShadow_eq g.beg_aligned g.size_aligned g.inRange

theorem registeredShadow_redzone {k : ℕ} (h : g.size ≤ 8 * k) (hk : 8 * k < (g.size + 31) / 32 * 32 + 32) :
    g.registeredShadow k = kAsanGlobalRedzoneMagic := by
  have haligned : GetAlignedSize g.size + kGlobalAndStackRedzone = (g.size + 31) / 32 * 32 + 32 := rfl
  rw [Global.registeredShadow, if_neg (by omega), if_neg (by omega), haligned, if_pos hk]

theorem redzoneValue_eq (g : Global w) (k : ℕ) (hk : k < 4) :
    redzoneValue (g.size % 32) (8 * k) kAsanGlobalRedzoneMagic = g.registeredShadow (g.size / 32 * 4 + k) := by
  have hgranularity : SHADOW_GRANULARITY = 8 := rfl
  rw [redzoneValue, hgranularity]
  by_cases hfull : 8 * k + 8 ≤ g.size % 32
  · rw [if_pos hfull, Global.registeredShadow, if_pos (by omega)]
  rw [if_neg hfull]
  by_cases hbehind : 8 * k ≥ g.size % 32
  · rw [if_pos hbehind, registeredShadow_redzone (by omega) (by omega)]
  · rw [if_neg hbehind, Global.registeredShadow, if_neg (by omega), if_pos (by omega)]
    congr 1
    omega

/-- The redzone, and the 32 bytes before it if the object ends in them. -/
theorem poisonRedZones_eq (sh : Shadow) (g : Global w) :
    PoisonRedZones sh g = some (sh.fill (g.cell + g.size / 32 * 4)
      ((g.size + 31) / 32 * 4 + 4 - g.size / 32 * 4) fun k => g.registeredShadow (g.size / 32 * 4 + k)) := by
  have hbeg := g.beg_aligned
  have hroom := g.room'
  have hredzone : kGlobalAndStackRedzone = 32 := rfl
  have hright : PoisonShadow w sh (g.beg + 32 * ((g.size + 31) / 32)) 32 kAsanGlobalRedzoneMagic =
      some (sh.fill (g.cell + (g.size + 31) / 32 * 4) 4 fun _ => kAsanGlobalRedzoneMagic) := by
    have hcell : w.SHADOW_OFFSET + (g.beg + 32 * ((g.size + 31) / 32)) / 8 = g.cell + (g.size + 31) / 32 * 4 := by
      rw [Global.cell]
      omega
    rw [poisonShadow_eq (by omega) (by decide) (g.inRange.sub (by omega) (by omega) (by omega)), hcell]
    rfl
  rw [PoisonRedZones]
  dsimp only
  rw [if_pos (by decide), hredzone, Nat.add_sub_assoc (by decide), hright, Option.bind_some]
  by_cases hpartial : g.size % 32 ≠ 0
  · have hcell : w.SHADOW_OFFSET + (g.beg + 32 * (g.size / 32)) / 8 = g.cell + g.size / 32 * 4 := by
      rw [Global.cell]
      omega
    rw [if_pos hpartial, if_pos (by omega), poisonShadowPartialRightRedzone_eq (by omega) (by decide)
      (g.inRange.between (by omega) (by omega)), hcell]
    congr 1
    funext c
    by_cases hc : g.cell + g.size / 32 * 4 ≤ c ∧ c < g.cell + g.size / 32 * 4 + 32 / 8
    · rw [Shadow.fill, if_pos hc, Shadow.fill, if_pos (by omega), redzoneValue_eq g _ (by omega)]
    · rw [Shadow.fill, if_neg hc]
      by_cases hc' : g.cell + (g.size + 31) / 32 * 4 ≤ c ∧ c < g.cell + (g.size + 31) / 32 * 4 + 4
      · rw [Shadow.fill, if_pos hc', Shadow.fill, if_pos (by omega), registeredShadow_redzone (by omega) (by omega)]
      · rw [Shadow.fill, if_neg hc', Shadow.fill, if_neg (by omega)]
  · rw [if_neg hpartial]
    congr 1
    funext c
    by_cases hc : g.cell + (g.size + 31) / 32 * 4 ≤ c ∧ c < g.cell + (g.size + 31) / 32 * 4 + 4
    · rw [Shadow.fill, if_pos hc, Shadow.fill, if_pos (by omega), registeredShadow_redzone (by omega) (by omega)]
    · rw [Shadow.fill, if_neg hc, Shadow.fill, if_neg (by omega)]

theorem registeredShadow_outside {k : ℕ} (h : 8 * k + 8 ≤ g.size / 32 * 32 ∨ (g.size + 31) / 32 * 32 + 32 ≤ 8 * k) :
    g.registeredShadow k = 0 := by
  have haligned : GetAlignedSize g.size + kGlobalAndStackRedzone = (g.size + 31) / 32 * 32 + 32 := rfl
  rw [Global.registeredShadow]
  by_cases hfull : 8 * k + 8 ≤ g.size
  · rw [if_pos hfull]
  · rw [if_neg hfull, if_neg (by omega), haligned, if_neg (by omega)]

theorem poisonRedZones_zero (hzero : ∀ k < g.granules, sh (g.cell + k) = 0) :
    PoisonRedZones sh g = some (sh.fill g.cell g.granules g.registeredShadow) := by
  have hroom := g.room'
  have hsize := g.size_aligned
  have hgranules : g.granules = g.size_with_redzone / 8 := rfl
  rw [poisonRedZones_eq]
  congr 1
  funext c
  by_cases hc : g.cell + g.size / 32 * 4 ≤ c ∧
      c < g.cell + g.size / 32 * 4 + ((g.size + 31) / 32 * 4 + 4 - g.size / 32 * 4)
  · rw [Shadow.fill, if_pos hc, Shadow.fill, if_pos (by omega)]
    congr 1
    omega
  · rw [Shadow.fill, if_neg hc]
    by_cases hc' : g.cell ≤ c ∧ c < g.cell + g.granules
    · have hzero_c := hzero (c - g.cell) (by omega)
      rw [Nat.add_sub_cancel' hc'.1] at hzero_c
      rw [Shadow.fill, if_pos hc', hzero_c, registeredShadow_outside (by omega)]
    · rw [Shadow.fill, if_neg hc']

theorem Shadow.fill_fill (sh : Shadow) (chunk n : ℕ) (u v : ℕ → BitVec 8) :
    (sh.fill chunk n u).fill chunk n v = sh.fill chunk n v := by
  funext c
  by_cases hc : chunk ≤ c ∧ c < chunk + n
  · rw [Shadow.fill, if_pos hc, Shadow.fill, if_pos hc]
  · rw [Shadow.fill, if_neg hc, Shadow.fill, if_neg hc, Shadow.fill, if_neg hc]

theorem poisonGlobalAndRedzones_eq (hflag : flags.check_initialization_order = true) (sh : Shadow) (g : Global w) :
    PoisonGlobalAndRedzones flags sh g = some (sh.fill g.cell g.granules fun _ => kAsanInitializationOrderMagic) := by
  rw [PoisonGlobalAndRedzones, if_pos ⟨hflag,checked_eq g⟩, poisonShadow_global]

theorem unpoisonGlobal_eq (hflag : flags.check_initialization_order = true) (sh : Shadow) (g : Global w) :
    UnpoisonGlobal flags sh g = some (sh.fill g.cell g.granules g.registeredShadow) := by
  rw [UnpoisonGlobal, if_pos ⟨hflag,checked_eq g⟩, poisonShadow_global, Option.bind_some,
    poisonRedZones_zero fun k hk => Shadow.fill_inside hk, Shadow.fill_fill]

/-- The shadow of all these globals. -/
def fillAll (values : Global w → ℕ → BitVec 8) (gs : List (Global w)) (sh : Shadow) : Shadow :=
  gs.foldl (fun sh g => sh.fill g.cell g.granules (values g)) sh

theorem foldlM_fill {f : Shadow → Global w → Option Shadow} {values : Global w → ℕ → BitVec 8}
    (hf : ∀ sh g, f sh g = some (sh.fill g.cell g.granules (values g))) (gs : List (Global w)) (sh : Shadow) :
    gs.foldlM f sh = some (fillAll values gs sh) := by
  induction gs generalizing sh with
  | nil => rfl
  | cons g gs ih =>
    rw [List.foldlM_cons, hf]
    exact ih _

theorem fillAll_outside {values : Global w → ℕ → BitVec 8} {c : ℕ} (h : ∀ g ∈ gs, ¬g.Covers c) :
    fillAll values gs sh c = sh c := by
  induction gs generalizing sh with
  | nil => rfl
  | cons g gs ih =>
    obtain ⟨hg,hgs⟩ := List.forall_mem_cons.mp h
    rw [fillAll, List.foldl_cons]
    exact (ih hgs).trans (if_neg hg)

theorem fillAll_inside {values : Global w → ℕ → BitVec 8} {k : ℕ} (hgs : gs.Pairwise Global.Apart) (hg : g ∈ gs)
    (hk : k < g.granules) : fillAll values gs sh (g.cell + k) = values g k := by
  induction gs generalizing sh with
  | nil => cases hg
  | cons h gs ih =>
    obtain ⟨hhead,htail⟩ := List.pairwise_cons.mp hgs
    rw [fillAll, List.foldl_cons]
    rcases List.mem_cons.mp hg with rfl | hg
    · exact (fillAll_outside fun h hh => (hhead h hh).not_covers hk).trans (Shadow.fill_inside hk)
    · exact ih htail hg

end Shadows

/-! ## The two walks over the list -/

/-- The globals of the unit lie between these two on the list. -/
def Segment {w : WordSize} (l : List (Global w)) (first_addr last_addr : ℕ) (pre seg post : List (Global w)) : Prop :=
  l = pre ++ seg ++ post ∧ seg.head?.map Global.beg = some last_addr ∧ seg.getLast?.map Global.beg = some first_addr

section Walks
variable {w : WordSize} {flags : GlobalFlags} {s : Globals w} {first_addr last_addr : ℕ}
  {l pre seg post : List (Global w)}

/-- Outside of the segment all are poisoned. -/
theorem beforeLoop_outside (hflag : flags.check_initialization_order = true) (rest : List (Global w))
    (h : ∀ g ∈ l, g.beg ≠ last_addr) (sh : Shadow) :
    beforeLoop flags first_addr last_addr (l ++ rest) false sh =
      beforeLoop flags first_addr last_addr rest false (fillAll (fun _ _ => kAsanInitializationOrderMagic) l sh) := by
  induction l generalizing sh with
  | nil => rfl
  | cons g l ih =>
    obtain ⟨hg,hl⟩ := List.forall_mem_cons.mp h
    rw [List.cons_append, beforeLoop, if_neg hg, Bool.not_false, if_pos rfl, poisonGlobalAndRedzones_eq hflag, Option.bind_some, ite_self, ih hl]
    rfl

/-- In the segment nothing is, up to its last. -/
theorem beforeLoop_inside (rest : List (Global w)) (hlast : seg.getLast?.map Global.beg = some first_addr)
    (hone : ∀ g ∈ seg.dropLast, g.beg ≠ first_addr) (sh : Shadow) :
    beforeLoop flags first_addr last_addr (seg ++ rest) true sh =
      beforeLoop flags first_addr last_addr rest false sh := by
  induction seg with
  | nil => cases hlast
  | cons g seg ih =>
    rw [List.cons_append, beforeLoop, ite_self, Bool.not_true, if_neg Bool.false_ne_true, Option.bind_some]
    cases seg with
    | nil =>
      have hg : g.beg = first_addr := Option.some.inj hlast
      rw [if_pos hg]
      rfl
    | cons h seg =>
      rw [List.dropLast_cons_cons, List.forall_mem_cons] at hone
      rw [List.getLast?_cons_cons] at hlast
      rw [if_neg hone.1, ih hlast hone.2]

theorem beg_ne_of_apart {g h : Global w} (hapart : g.Apart h) : g.beg ≠ h.beg := by
  have hg := g.room'
  have hh := h.room'
  rcases hapart with hle | hle <;> omega

theorem asan_before_dynamic_init_eq (hflag : flags.check_initialization_order = true)
    (hl : s.list_of_dynamic_init_globals.Pairwise Global.Apart)
    (hseg : Segment s.list_of_dynamic_init_globals first_addr last_addr pre seg post) :
    asan_before_dynamic_init flags s first_addr last_addr = some
      { s with shadow := fillAll (fun _ _ => kAsanInitializationOrderMagic) (pre ++ post) s.shadow } := by
  obtain ⟨hlist,hlast,hfirst⟩ := hseg
  rw [hlist] at hl
  obtain ⟨hpre_seg,hpost,hacross⟩ := List.pairwise_append.mp hl
  obtain ⟨-,hseg,hpre⟩ := List.pairwise_append.mp hpre_seg
  cases seg with
  | nil => cases hlast
  | cons g seg =>
    have hg : g.beg = last_addr := Option.some.inj hlast
    have hpre_ne : ∀ h ∈ pre, h.beg ≠ last_addr := fun h hh =>
      hg ▸ beg_ne_of_apart (hpre h hh g List.mem_cons_self)
    have hpost_ne : ∀ h ∈ post, h.beg ≠ last_addr := fun h hh =>
      hg ▸ (beg_ne_of_apart (hacross g (List.mem_append_right pre List.mem_cons_self) h hh)).symm
    obtain ⟨last,hmem,hbeg⟩ := Option.map_eq_some_iff.mp hfirst
    have hone : ∀ h ∈ (g :: seg).dropLast, h.beg ≠ first_addr := by
      intro h hh
      obtain ⟨front,hfront⟩ := List.getLast?_eq_some_iff.mp hmem
      rw [hfront, List.dropLast_concat] at hh
      rw [hfront] at hseg
      exact hbeg ▸ beg_ne_of_apart ((List.pairwise_append.mp hseg).2.2 h hh last List.mem_cons_self)
    -- At the first of the segment the flag is set.
    have henter : ∀ sh : Shadow, beforeLoop flags first_addr last_addr (g :: seg ++ post) false sh =
        beforeLoop flags first_addr last_addr (g :: seg ++ post) true sh := by
      intro sh
      rw [List.cons_append, beforeLoop, beforeLoop, if_pos hg, if_pos hg]
    have hleave : ∀ sh : Shadow, beforeLoop flags first_addr last_addr (post ++ []) false sh = _ :=
      beforeLoop_outside hflag [] hpost_ne
    rw [asan_before_dynamic_init, hflag, Bool.not_true, if_neg Bool.false_ne_true, hlist, if_neg (by simp),
      List.append_assoc, beforeLoop_outside hflag _ hpre_ne, henter, beforeLoop_inside post hfirst hone,
      ← List.append_nil post, hleave]
    rw [List.append_nil, fillAll, fillAll, fillAll, List.foldl_append]
    rfl

theorem asan_after_dynamic_init_eq (hflag : flags.check_initialization_order = true) :
    asan_after_dynamic_init flags s = some
      { s with shadow := fillAll Global.registeredShadow s.list_of_dynamic_init_globals s.shadow } := by
  rw [asan_after_dynamic_init, hflag, Bool.not_true, if_neg Bool.false_ne_true,
    foldlM_fill (unpoisonGlobal_eq hflag)]
  rfl

end Walks

/-! ## Runs -/

/-- What modules and their initializers call, an array of globals one after the other. -/
inductive GlobalsCall (w : WordSize)
  | register (g : Global w)
  | unregister (g : Global w)
  | before (first_addr last_addr : ℕ)
  | after

section Runs
variable {w : WordSize}

def globalsStep (flags : GlobalFlags) (s : Globals w) : GlobalsCall w → Option (Globals w)
  | .register g => asan_register_globals flags s [g]
  | .unregister g => asan_unregister_globals flags s [g]
  | .before first_addr last_addr => asan_before_dynamic_init flags s first_addr last_addr
  | .after => asan_after_dynamic_init flags s

theorem foldlM_one_by_one {σ α : Type*} (p : Prop) [Decidable p] (f : σ → α → Option σ) (s : σ) (as : List α) :
    (if p then some s else as.foldlM f s) = as.foldlM (fun s a => if p then some s else [a].foldlM f s) s := by
  by_cases hp : p
  · simp only [if_pos hp]
    induction as with
    | nil => rfl
    | cons a as ih => exact ih
  · simp only [if_neg hp]
    congr 1
    funext s a
    exact (bind_pure (f s a)).symm

theorem asan_register_globals_run (flags : GlobalFlags) (s : Globals w) (globals : List (Global w)) :
    asan_register_globals flags s globals = Transition.run (globalsStep flags) s (globals.map .register) := by
  rw [asan_register_globals, foldlM_one_by_one, Transition.run, List.foldlM_map]
  rfl

theorem asan_unregister_globals_run (flags : GlobalFlags) (s : Globals w) (globals : List (Global w)) :
    asan_unregister_globals flags s globals = Transition.run (globalsStep flags) s (globals.map .unregister) := by
  rw [asan_unregister_globals, foldlM_one_by_one, Transition.run, List.foldlM_map]
  rfl

def Globals.Registered (s : Globals w) (g : Global w) : Prop := g ∈ s.list_of_all_globals ∧ g ∉ s.unregistered

/-- These globals get new values, and no other shadow does. -/
def Sets (sh sh' : Shadow) (which : Global w → Prop) (values : Global w → ℕ → BitVec 8) : Prop :=
  (∀ g, which g → ∀ k < g.granules, sh' (g.cell + k) = values g k) ∧ ∀ c, (∀ g, which g → ¬g.Covers c) → sh' c = sh c

/-- What a call should do to the shadow of the globals that are registered. -/
def Effect (s s' : Globals w) : GlobalsCall w → Prop
  | .register g => Sets s.shadow s'.shadow (· = g) Global.registeredShadow
  | .unregister g => Sets s.shadow s'.shadow (· = g) fun _ _ => 0
  | .before first_addr last_addr => ∀ pre seg post,
      Segment s.list_of_dynamic_init_globals first_addr last_addr pre seg post →
      Sets s.shadow s'.shadow (fun g => g ∈ s.list_of_dynamic_init_globals ∧ s.Registered g ∧ g ∉ seg)
        fun _ _ => kAsanInitializationOrderMagic
  | .after =>
      Sets s.shadow s'.shadow (fun g => g ∈ s.list_of_dynamic_init_globals ∧ s.Registered g) Global.registeredShadow

/-- A module has memory that is clear and its own, and its initializers run between globals of its own. -/
def Permitted (s : Globals w) : GlobalsCall w → Prop
  | .register g => (∀ h ∈ s.list_of_all_globals, g.Apart h) ∧ ∀ k < g.granules, s.shadow (g.cell + k) = 0
  | .unregister g => s.Registered g
  | .before first_addr last_addr =>
      ∃ pre seg post, Segment s.list_of_dynamic_init_globals first_addr last_addr pre seg post
  | .after => True

/-- The walks meet no global of a module that is gone. -/
def NoneGone (s : Globals w) : GlobalsCall w → Prop
  | .before first_addr last_addr => ∀ pre seg post,
      Segment s.list_of_dynamic_init_globals first_addr last_addr pre seg post → ∀ g ∈ pre ++ post, s.Registered g
  | .after => ∀ g ∈ s.list_of_dynamic_init_globals, s.Registered g
  | _ => True

/-- Globals keep apart. -/
structure Globals.Lists (s : Globals w) : Prop where
  apart : s.list_of_all_globals.Pairwise Global.Apart
  dynamic : s.list_of_dynamic_init_globals.Sublist s.list_of_all_globals

/-- And those of the modules that are gone have left no trace. -/
structure Globals.Inv (s : Globals w) : Prop extends s.Lists where
  listed : ∀ g ∈ s.unregistered, g ∈ s.list_of_all_globals
  gone : ∀ g ∈ s.list_of_all_globals, g ∈ s.unregistered → ∀ k < g.granules, s.shadow (g.cell + k) = 0

variable {flags : GlobalFlags} {s s' : Globals w} {g : Global w} {a : GlobalsCall w}

theorem Globals.Lists.dynamic_apart (h : s.Lists) : s.list_of_dynamic_init_globals.Pairwise Global.Apart :=
  h.apart.sublist h.dynamic

theorem asan_register_globals_eq (hreport : flags.report_globals ≠ 0)
    (hzero : ∀ k < g.granules, s.shadow (g.cell + k) = 0) :
    asan_register_globals flags s [g] = some
      { s with
        shadow := s.shadow.fill g.cell g.granules g.registeredShadow
        list_of_all_globals := g :: s.list_of_all_globals
        list_of_dynamic_init_globals :=
          if g.has_dynamic_init then g :: s.list_of_dynamic_init_globals else s.list_of_dynamic_init_globals } := by
  rw [asan_register_globals, if_neg hreport, List.foldlM_cons, RegisterGlobal, if_pos ⟨hreport,checked_eq g⟩,
    poisonRedZones_zero hzero]
  rfl

theorem asan_unregister_globals_eq (hreport : flags.report_globals ≠ 0) :
    asan_unregister_globals flags s [g] = some
      { s with shadow := s.shadow.fill g.cell g.granules fun _ => 0, unregistered := g :: s.unregistered } := by
  rw [asan_unregister_globals, if_neg hreport, List.foldlM_cons, UnregisterGlobal, if_pos ⟨hreport,checked_eq g⟩,
    poisonShadow_global]
  rfl

/-- No check fails, and the lists stay as they should be. -/
theorem globalsStep_lists (hreport : flags.report_globals ≠ 0) (hflag : flags.check_initialization_order = true)
    (h : s.Lists) (ha : Permitted s a) : ∃ s', globalsStep flags s a = some s' ∧ s'.Lists := by
  cases a with
  | register g =>
    refine ⟨_,asan_register_globals_eq hreport ha.2,List.pairwise_cons.mpr ⟨ha.1,h.apart⟩,?_⟩
    dsimp only
    split_ifs
    · exact h.dynamic.cons_cons g
    · exact h.dynamic.cons g
  | unregister g => exact ⟨_,asan_unregister_globals_eq hreport,h.apart,h.dynamic⟩
  | before first_addr last_addr =>
    obtain ⟨pre,seg,post,hseg⟩ := ha
    exact ⟨_,asan_before_dynamic_init_eq hflag h.dynamic_apart hseg,h.apart,h.dynamic⟩
  | after => exact ⟨_,asan_after_dynamic_init_eq hflag,h.apart,h.dynamic⟩

theorem sets_fill (sh : Shadow) (g : Global w) (values : Global w → ℕ → BitVec 8) :
    Sets sh (sh.fill g.cell g.granules (values g)) (· = g) values := by
  refine ⟨?_,fun c hc => if_neg (hc g rfl)⟩
  rintro h rfl k hk
  exact Shadow.fill_inside hk

/-- Values for these globals, where those of others would show. -/
theorem sets_fillAll_iff {sh : Shadow} {gs : List (Global w)} {which : Global w → Prop}
    {values : Global w → ℕ → BitVec 8} (hgs : gs.Pairwise Global.Apart) (hwhich : ∀ g, which g → g ∈ gs)
    (hshow : ∀ g ∈ gs, ¬which g → ∃ k < g.granules, values g k ≠ sh (g.cell + k)) :
    Sets sh (fillAll values gs sh) which values ↔ ∀ g ∈ gs, which g := by
  constructor
  · rintro ⟨-,hothers⟩ g hg
    by_contra hnot
    obtain ⟨k,hk,hne⟩ := hshow g hg hnot
    have hsame := hothers (g.cell + k) fun h hh hcovers => ?_
    · rw [fillAll_inside hgs hg hk] at hsame
      exact hne hsame
    · have hne_h : g ≠ h := fun heq => hnot (heq ▸ hh)
      exact (hgs.forall hg (hwhich h hh) hne_h).not_covers hk hcovers
  · intro hall
    exact ⟨fun g hg k hk => fillAll_inside hgs (hwhich g hg) hk,
      fun c hc => fillAll_outside fun g hg => hc g (hall g hg)⟩

theorem Globals.Inv.gone_dynamic (h : s.Inv) (hg : g ∈ s.list_of_dynamic_init_globals) (hnot : ¬s.Registered g) {k : ℕ}
    (hk : k < g.granules) : s.shadow (g.cell + k) = 0 := by
  have hall := h.dynamic.mem hg
  exact h.gone g hall (not_not.mp fun hin => hnot ⟨hall,hin⟩) k hk

theorem Segment.spec {l pre seg post : List (Global w)} {first_addr last_addr : ℕ}
    (h : Segment l first_addr last_addr pre seg post) (hl : l.Pairwise Global.Apart) :
    (pre ++ post).Sublist l ∧ ∀ g, g ∈ pre ++ post ↔ g ∈ l ∧ g ∉ seg := by
  obtain ⟨rfl,-,-⟩ := h
  obtain ⟨hpre_seg,-,hacross⟩ := List.pairwise_append.mp hl
  obtain ⟨-,-,hpre⟩ := List.pairwise_append.mp hpre_seg
  refine ⟨(List.sublist_append_left pre seg).append (List.Sublist.refl post),fun g => ?_⟩
  simp only [List.mem_append]
  constructor
  · rintro (hg | hg)
    · exact ⟨Or.inl (Or.inl hg),fun hseg => g.not_apart_self (hpre g hg g hseg)⟩
    · exact ⟨Or.inr hg,fun hseg => g.not_apart_self (hacross g (List.mem_append_right pre hseg) g hg)⟩
  · rintro ⟨(hg | hg) | hg,hnot⟩
    · exact Or.inl hg
    · exact absurd hg hnot
    · exact Or.inr hg

theorem registeredShadow_ne_zero (g : Global w) : ∃ k < g.granules, g.registeredShadow k ≠ 0 := by
  have hroom := g.room'
  have hgranules : g.granules = g.size_with_redzone / 8 := rfl
  refine ⟨(g.size + 31) / 32 * 4,by omega,?_⟩
  rw [registeredShadow_redzone (by omega) (by omega)]
  decide

theorem effect_iff (hreport : flags.report_globals ≠ 0) (hflag : flags.check_initialization_order = true) (h : s.Inv)
    (ha : Permitted s a) : (∀ s', globalsStep flags s a = some s' → Effect s s' a) ↔ NoneGone s a := by
  cases a with
  | register g =>
    refine iff_of_true (fun s' he => ?_) trivial
    rw [globalsStep, asan_register_globals_eq hreport ha.2] at he
    cases he
    exact sets_fill s.shadow g Global.registeredShadow
  | unregister g =>
    refine iff_of_true (fun s' he => ?_) trivial
    rw [globalsStep, asan_unregister_globals_eq hreport] at he
    cases he
    exact sets_fill s.shadow g fun _ _ => 0
  | before first_addr last_addr =>
    have hiff : ∀ pre seg post, Segment s.list_of_dynamic_init_globals first_addr last_addr pre seg post →
        (Sets s.shadow (fillAll (fun _ _ => kAsanInitializationOrderMagic) (pre ++ post) s.shadow)
          (fun g => g ∈ s.list_of_dynamic_init_globals ∧ s.Registered g ∧ g ∉ seg)
          (fun _ _ => kAsanInitializationOrderMagic) ↔ ∀ g ∈ pre ++ post, s.Registered g) := by
      intro pre seg post hseg
      obtain ⟨hsub,hmem⟩ := hseg.spec h.dynamic_apart
      rw [sets_fillAll_iff (h.dynamic_apart.sublist hsub) (fun g hg => (hmem g).mpr ⟨hg.1,hg.2.2⟩) fun g hg hnot => ?_]
      · exact forall₂_congr fun g hg => ⟨fun hwhich => hwhich.2.1,fun hr => ⟨((hmem g).mp hg).1,hr,((hmem g).mp hg).2⟩⟩
      · obtain ⟨hlist,hseg⟩ := (hmem g).mp hg
        have hpos := g.granules_pos
        refine ⟨0,by omega,?_⟩
        rw [h.gone_dynamic hlist (fun hr => hnot ⟨hlist,hr,hseg⟩) (by omega)]
        decide
    constructor
    · intro heff pre seg post hseg
      exact (hiff pre seg post hseg).mp
        (heff _ (asan_before_dynamic_init_eq hflag h.dynamic_apart hseg) pre seg post hseg)
    · intro hnone s' he pre seg post hseg
      rw [globalsStep, asan_before_dynamic_init_eq hflag h.dynamic_apart hseg] at he
      cases he
      exact (hiff pre seg post hseg).mpr (hnone pre seg post hseg)
  | after =>
    have hiff : Sets s.shadow (fillAll Global.registeredShadow s.list_of_dynamic_init_globals s.shadow)
        (fun g => g ∈ s.list_of_dynamic_init_globals ∧ s.Registered g) Global.registeredShadow ↔
          ∀ g ∈ s.list_of_dynamic_init_globals, s.Registered g := by
      rw [sets_fillAll_iff h.dynamic_apart (fun g hg => hg.1) fun g hg hnot => ?_]
      · exact forall₂_congr fun g hg => and_iff_right hg
      · obtain ⟨k,hk,hne⟩ := registeredShadow_ne_zero g
        refine ⟨k,hk,?_⟩
        rwa [h.gone_dynamic hg (fun hr => hnot ⟨hg,hr⟩) hk]
    constructor
    · intro heff
      exact hiff.mp (heff _ (asan_after_dynamic_init_eq hflag))
    · intro hnone s' he
      rw [globalsStep, asan_after_dynamic_init_eq hflag] at he
      cases he
      exact hiff.mpr hnone

/-- A walk over registered globals leaves no trace at those that are gone. -/
theorem Globals.Inv.fillAll (h : s.Inv) {gs : List (Global w)} (hgs : ∀ g ∈ gs, s.Registered g)
    (values : Global w → ℕ → BitVec 8) : ({ s with shadow := fillAll values gs s.shadow } : Globals w).Inv := by
  refine ⟨⟨h.apart,h.dynamic⟩,h.listed,fun g hg hgone k hk => ?_⟩
  refine (fillAll_outside fun g' hg' => ?_).trans (h.gone g hg hgone k hk)
  have hne : g ≠ g' := fun heq => (hgs g' hg').2 (heq ▸ hgone)
  exact (h.apart.forall hg (hgs g' hg').1 hne).not_covers hk

theorem inv_step (hreport : flags.report_globals ≠ 0) (hflag : flags.check_initialization_order = true) (h : s.Inv)
    (ha : Permitted s a) (hnone : NoneGone s a) (he : globalsStep flags s a = some s') : s'.Inv := by
  obtain ⟨s₁,hs₁,hlists⟩ := globalsStep_lists hreport hflag h.toLists ha
  cases a with
  | register g =>
    rw [he] at hs₁
    cases hs₁
    rw [globalsStep, asan_register_globals_eq hreport ha.2] at he
    cases he
    refine ⟨hlists,fun g' hg' => List.mem_cons_of_mem g (h.listed g' hg'),fun g' hg' hgone k hk => ?_⟩
    have hall := h.listed g' hgone
    have hout : ¬g.Covers (g'.cell + k) := (ha.1 g' hall).symm.not_covers hk
    exact (if_neg hout).trans (h.gone g' hall hgone k hk)
  | unregister g =>
    rw [globalsStep, asan_unregister_globals_eq hreport] at he
    cases he
    refine ⟨⟨h.apart,h.dynamic⟩,fun g' hg' => ?_,fun g' hg' hgone k hk => ?_⟩
    · rcases List.mem_cons.mp hg' with rfl | hg'
      · exact ha.1
      · exact h.listed g' hg'
    · by_cases heq : g' = g
      · subst heq
        have hinside : s.shadow.fill g'.cell g'.granules (fun _ => 0) (g'.cell + k) = 0 := Shadow.fill_inside hk
        exact hinside
      · have hout : ¬g.Covers (g'.cell + k) := (h.apart.forall hg' ha.1 heq).not_covers hk
        exact (if_neg hout).trans (h.gone g' hg' ((List.mem_cons.mp hgone).resolve_left heq) k hk)
  | before first_addr last_addr =>
    obtain ⟨pre,seg,post,hseg⟩ := ha
    rw [globalsStep, asan_before_dynamic_init_eq hflag h.dynamic_apart hseg] at he
    cases he
    exact h.fillAll (hnone pre seg post hseg) _
  | after =>
    rw [globalsStep, asan_after_dynamic_init_eq hflag] at he
    cases he
    exact h.fillAll hnone _

/-- Before the first module is loaded. -/
def Globals.start (w : WordSize) (shadow : Shadow) : Globals w := ⟨shadow,[],[],[]⟩

theorem inv_start (shadow : Shadow) : (Globals.start w shadow).Inv :=
  ⟨⟨List.Pairwise.nil,List.Sublist.refl []⟩,fun _ hg => absurd hg List.not_mem_nil,
    fun _ hg => absurd hg List.not_mem_nil⟩

theorem tried_iff (hreport : flags.report_globals ≠ 0) (hflag : flags.check_initialization_order = true) (h : s.Inv)
    {calls : List (GlobalsCall w)} (hcalls : Transition.AllTried (globalsStep flags) Permitted s calls) :
    Transition.AllTried (globalsStep flags) (fun s a => ∃ s', globalsStep flags s a = some s' ∧ Effect s s' a) s calls ↔
      Transition.AllTried (globalsStep flags) NoneGone s calls := by
  refine Transition.allTried_iff_of_inv (fun s a s' => inv_step hreport hflag) (fun s a hs ha => ?_) h hcalls
  obtain ⟨s₁,hs₁,-⟩ := globalsStep_lists hreport hflag hs.toLists ha
  rw [← effect_iff hreport hflag hs ha]
  constructor
  · rintro ⟨s',hs',heff⟩ s₂ hs₂
    rw [hs'] at hs₂
    cases hs₂
    exact heff
  · intro heff
    exact ⟨s₁,hs₁,heff s₁ hs₁⟩

/-- In every run of modules that come and go, each call does to the shadow what it should as long as the walks meet no
global of a module that is gone. -/
theorem dynamic_init_iff (hreport : flags.report_globals ≠ 0) (hflag : flags.check_initialization_order = true)
    (shadow : Shadow) (calls : List (GlobalsCall w))
    (hcalls : Transition.AllTried (globalsStep flags) Permitted (Globals.start w shadow) calls) :
    Transition.AllTried (globalsStep flags) (fun s a => ∃ s', globalsStep flags s a = some s' ∧ Effect s s' a)
        (Globals.start w shadow) calls ↔
      Transition.AllTried (globalsStep flags) NoneGone (Globals.start w shadow) calls :=
  tried_iff hreport hflag (inv_start shadow) hcalls

end Runs

section Modules

def allGlobalFlags : GlobalFlags := ⟨1,true⟩

/-- The globals of two modules. -/
def moduleGlobal (beg : ℕ) (haligned : beg % 8 = 0) (hrange : WordSize.w64.InOneRange beg (beg + 64)) : Global .w64 :=
  ⟨beg,10,64,true,haligned,by decide,by decide,hrange⟩

def firstGlobal : Global .w64 := moduleGlobal 4096 (by decide) (.inl ⟨by decide,by decide⟩)
def secondGlobal : Global .w64 := moduleGlobal 8192 (by decide) (.inl ⟨by decide,by decide⟩)

/-- The second module is loaded after the first, and the first is unloaded. -/
def firstLoaded : Globals .w64 where
  shadow := Shadow.fill (fun _ => 0) firstGlobal.cell firstGlobal.granules firstGlobal.registeredShadow
  list_of_all_globals := [firstGlobal]
  list_of_dynamic_init_globals := [firstGlobal]
  unregistered := []

def bothLoaded : Globals .w64 where
  shadow := firstLoaded.shadow.fill secondGlobal.cell secondGlobal.granules secondGlobal.registeredShadow
  list_of_all_globals := [secondGlobal,firstGlobal]
  list_of_dynamic_init_globals := [secondGlobal,firstGlobal]
  unregistered := []

def firstUnloaded : Globals .w64 :=
  { bothLoaded with
    shadow := bothLoaded.shadow.fill firstGlobal.cell firstGlobal.granules fun _ => 0
    unregistered := [firstGlobal] }

theorem secondGlobal_apart : secondGlobal.Apart firstGlobal := Or.inr (by decide)

theorem firstLoaded_zero (k : ℕ) (hk : k < secondGlobal.granules) : firstLoaded.shadow (secondGlobal.cell + k) = 0 :=
  if_neg (secondGlobal_apart.not_covers hk)

theorem load_first : globalsStep allGlobalFlags (Globals.start .w64 fun _ => 0) (.register firstGlobal) =
    some firstLoaded := asan_register_globals_eq (by decide) fun _ _ => rfl

theorem load_second : globalsStep allGlobalFlags firstLoaded (.register secondGlobal) = some bothLoaded :=
  asan_register_globals_eq (by decide) firstLoaded_zero

theorem unload_first : globalsStep allGlobalFlags bothLoaded (.unregister firstGlobal) = some firstUnloaded :=
  asan_unregister_globals_eq (by decide)

theorem permitted_load {calls : List (GlobalsCall .w64)}
    (h : Transition.AllTried (globalsStep allGlobalFlags) Permitted bothLoaded calls) :
    Transition.AllTried (globalsStep allGlobalFlags) Permitted (Globals.start .w64 fun _ => 0)
      (.register firstGlobal :: .register secondGlobal :: calls) := by
  rw [Transition.allTried_cons load_first, Transition.allTried_cons load_second]
  exact ⟨⟨fun _ hg => absurd hg List.not_mem_nil,fun _ _ => rfl⟩,
    ⟨fun g hg => List.mem_singleton.mp hg ▸ secondGlobal_apart,firstLoaded_zero⟩,h⟩

theorem segment_second : Segment [secondGlobal,firstGlobal] 8192 8192 [] [secondGlobal] [firstGlobal] := ⟨rfl,rfl,rfl⟩

theorem dynamic_init_second :
    Transition.AllTried (globalsStep allGlobalFlags) (fun s a => ∃ s', globalsStep allGlobalFlags s a = some s' ∧
        Effect s s' a) (Globals.start .w64 fun _ => 0)
        [.register firstGlobal,.register secondGlobal,.before 8192 8192,.after] ↔
      Transition.AllTried (globalsStep allGlobalFlags) NoneGone (Globals.start .w64 fun _ => 0)
        [.register firstGlobal,.register secondGlobal,.before 8192 8192,.after] :=
  dynamic_init_iff (by decide) rfl (fun _ => 0) _
    (permitted_load ⟨⟨[],[secondGlobal],[firstGlobal],segment_second⟩,fun _ _ => ⟨trivial,fun _ _ => trivial⟩⟩)

/-- The first module is unloaded, and then the initializers of the second poison its memory. -/
theorem dynamic_init_gone :
    Transition.AllTried (globalsStep allGlobalFlags) Permitted (Globals.start .w64 fun _ => 0)
        [.register firstGlobal,.register secondGlobal,.unregister firstGlobal,.before 8192 8192,.after] ∧
      ¬Transition.AllTried (globalsStep allGlobalFlags) (fun s a => ∃ s', globalsStep allGlobalFlags s a = some s' ∧
        Effect s s' a) (Globals.start .w64 fun _ => 0)
        [.register firstGlobal,.register secondGlobal,.unregister firstGlobal,.before 8192 8192,.after] := by
  have hpermitted : Transition.AllTried (globalsStep allGlobalFlags) Permitted (Globals.start .w64 fun _ => 0)
      [.register firstGlobal,.register secondGlobal,.unregister firstGlobal,.before 8192 8192,.after] := by
    refine permitted_load ?_
    rw [Transition.allTried_cons unload_first]
    exact ⟨⟨List.mem_cons_of_mem _ List.mem_cons_self,List.not_mem_nil⟩,
      ⟨[],[secondGlobal],[firstGlobal],segment_second⟩,fun _ _ => ⟨trivial,fun _ _ => trivial⟩⟩
  refine ⟨hpermitted,fun h => ?_⟩
  have hnone := (tried_iff (by decide) rfl (inv_start fun _ => 0) hpermitted).mp h
  rw [Transition.allTried_cons load_first, Transition.allTried_cons load_second,
    Transition.allTried_cons unload_first] at hnone
  have hregistered := hnone.2.2.2.1 [] [secondGlobal] [firstGlobal] segment_second firstGlobal List.mem_cons_self
  exact hregistered.2 List.mem_cons_self

end Modules

end CompilerRt.AsanMapping
