import CompilerRt.Unwind.Lsda
import Mathlib.Data.BitVec

/-! # The landing pad that is chosen

On a well-formed LSDA the routine finds the call site of the frame and goes to its landing pad. It counts landing pads
from the start of the function, whatever `LPStart` is, and reads LEB128 numbers in an `int`.
-/
namespace CompilerRt.Unwind
open ByteOrder Leb128

variable {T : Target}

/-- The call that the frame is in lies in this range. -/
def Covers (context : Context T) (r : Range T) : Prop :=
  context.regionStart.toNat + r.start.toNat ≤ (context.ip - 1).toNat ∧
    (context.ip - 1).toNat < context.regionStart.toNat + r.start.toNat + r.length.toNat

instance (context : Context T) (r : Range T) : Decidable (Covers context r) := by unfold Covers; infer_instance

/-- The frame is in this range and the range has a landing pad. -/
def Hit (context : Context T) (r : Range T) : Prop := Covers context r ∧ r.landingPad ≠ 0

instance (context : Context T) (r : Range T) : Decidable (Hit context r) := by unfold Hit; infer_instance

def CallSite.Readable (e : Encoding) (c : CallSite) : Prop :=
  e.format.Readable c.start ∧ e.format.Readable c.length ∧ e.format.Readable c.landingPad ∧ Small c.action

instance (e : Encoding) (c : CallSite) : Decidable (c.Readable e) := by unfold CallSite.Readable; infer_instance

/-- The entries up to the first that is hit can be read. -/
def EntriesReadable (e : Encoding) (context : Context T) : List CallSite → List (Range T) → Prop
  | c :: cs, r :: rs => c.Readable e ∧ (Hit context r ∨ EntriesReadable e context cs rs)
  | _, _ => True

def Lsda.LpStartReadable (L : Lsda) : Prop :=
  match L.lpStart with
  | none => True
  | some (e,d) => e.format.Readable d

def Lsda.TtypeReadable (L : Lsda) : Prop :=
  match L.ttype with
  | none => True
  | some (_,d) => Small d

instance (L : Lsda) : Decidable L.LpStartReadable := by unfold Lsda.LpStartReadable; split <;> infer_instance

instance (L : Lsda) : Decidable L.TtypeReadable := by unfold Lsda.TtypeReadable; split <;> infer_instance

def Lsda.HeaderReadable (L : Lsda) : Prop := L.LpStartReadable ∧ L.TtypeReadable ∧ Small L.tableLength

instance (L : Lsda) : Decidable L.HeaderReadable := by unfold Lsda.HeaderReadable; infer_instance

/-- The routine goes to `LPStart` plus the landing pad of the entry that covers the call, or leaves the context alone
where there is none; it reads entries within the table only. -/
def LandsRight (L : Lsda) (context : Context T) (lpStart : T.Word) (ranges : List (Range T))
    (result : Except Stop (Outcome T)) : Prop :=
  ∃ out, result = .ok out ∧
    (∀ r ∈ ranges, Covers context r → r.landingPad ≠ 0 →
      out.reason = .installContext ∧ out.context.ip = lpStart + r.landingPad) ∧
    ((∀ r ∈ ranges, Covers context r → r.landingPad = 0) →
      out.reason = .continueUnwind ∧ out.context = context) ∧
    ∀ x ∈ out.entries, context.languageSpecificData + L.header.length ≤ x.1 ∧
      x.2 ≤ context.languageSpecificData + L.header.length + L.table.length

/-! ## The test on the offset -/

theorem sub_toNat_of_le {n : ℕ} {x y : BitVec n} (h : y.toNat ≤ x.toNat) : (x - y).toNat = x.toNat - y.toNat :=
  BitVec.toNat_sub_of_le h

theorem sub_toNat_of_lt {n : ℕ} {x y : BitVec n} (h : x.toNat < y.toNat) :
    (x - y).toNat = 2 ^ n - y.toNat + x.toNat := by
  have hy := y.isLt
  rw [BitVec.toNat_sub,Nat.mod_eq_of_lt (by omega)]

/-- The offsets are compared modulo the size of a word, which makes no difference within the address space. -/
theorem test_iff_covers {context : Context T} {r : Range T}
    (hb : context.regionStart.toNat + r.start.toNat + r.length.toNat < 2 ^ T.bits) :
    (r.start ≤ context.ip - 1 - context.regionStart ∧ context.ip - 1 - context.regionStart < r.start + r.length) ↔
      Covers context r := by
  have hsum : (r.start + r.length).toNat = r.start.toNat + r.length.toNat := by
    rw [BitVec.toNat_add,Nat.mod_eq_of_lt (by omega)]
  rw [Covers,BitVec.le_def,BitVec.lt_def,hsum]
  generalize context.ip - 1 = pc
  rcases Nat.lt_or_ge pc.toNat context.regionStart.toNat with h | h
  · rw [sub_toNat_of_lt h]
    omega
  · rw [sub_toNat_of_le h]
    omega

/-- Ranges of a sorted table do not overlap. -/
theorem covers_unique {context : Context T} {ranges : List (Range T)}
    (hs : ranges.Pairwise fun r s => r.start.toNat + r.length.toNat ≤ s.start.toNat) {r s : Range T}
    (hr : r ∈ ranges) (hs' : s ∈ ranges) (hcr : Covers context r) (hcs : Covers context s) : r = s := by
  induction hs with
  | nil => exact absurd hr List.not_mem_nil
  | cons hhead _ ih =>
    obtain ⟨hr₁,hr₂⟩ := hcr
    obtain ⟨hs₁,hs₂⟩ := hcs
    rcases List.mem_cons.mp hr with rfl | hr
    · rcases List.mem_cons.mp hs' with rfl | hs'
      · rfl
      · have hle := hhead s hs'
        omega
    · rcases List.mem_cons.mp hs' with heq | hs'
      · have hle := hhead r hr
        rw [← heq] at hle
        omega
      · exact ih hr hs'

/-! ## The table -/

section Table
variable {m : ByteMemory} {context : Context T} {e : Encoding} {tableEnd : ℕ} (exceptionObject : T.Word)

/-- The outcome of the walk over these ranges. -/
def WalkFinds (context : Context T) (rs : List (Range T)) (out : Outcome T) : Prop :=
  (∃ r ∈ rs, Hit context r ∧ out.reason = .installContext ∧ out.context.ip = context.regionStart + r.landingPad) ∨
    ((∀ r ∈ rs, ¬Hit context r) ∧ out.reason = .continueUnwind ∧ out.context = context)

theorem WalkFinds.cons {r : Range T} {rs : List (Range T)} {out : Outcome T} (hr : ¬Hit context r)
    (h : WalkFinds context rs out) : WalkFinds context (r :: rs) out := by
  rcases h with ⟨s,hs,h⟩ | ⟨hno,h⟩
  · exact Or.inl ⟨s,List.mem_cons_of_mem r hs,h⟩
  · refine Or.inr ⟨fun s hs => ?_,h⟩
    rcases List.mem_cons.mp hs with rfl | hs
    · exact hr
    · exact hno s hs

theorem readField {d rest : List Byte} {p : ℕ} {v : T.Word} (he : e.pcrel = false) (hm : m.Holds p (d ++ rest))
    (hd : e.format.Fits T d) (hv : e.denoteAbsolute T m d = some v) :
    readEncodedPointer T m p e.byte = if e.format.Readable d then .ok (v,p + d.length) else .error .undefined :=
  readEncodedPointer_eq (ByteMemory.holds_append.mp hm).1 hd ((denote_of_absolute he p d).trans hv)

theorem callSite_pos {c : CallSite} (h : IsLeb128 c.action) : 0 < c.bytes.length := by
  have hpos := List.length_pos_iff.mpr h.ne_nil
  simp only [CallSite.bytes,List.length_append]
  omega

/-- One turn of the loop on an entry that can be read. -/
theorem walk_step {c : CallSite} {r : Range T} {rest : List Byte} {p : ℕ} (fuel : ℕ) (entries : List (ℕ × ℕ))
    (he : e.pcrel = false) (hc : c.Describes T m e r) (hm : m.Holds p (c.bytes ++ rest)) (hp : p < tableEnd)
    (hb : context.regionStart.toNat + r.start.toNat + r.length.toNat < 2 ^ T.bits) :
    walk T m exceptionObject context e.byte tableEnd (fuel + 1) p entries =
      if c.Readable e then
        if Hit context r then
          .ok ⟨.installContext,((context.setGR (T.ehReturnDataRegno 0) exceptionObject).setGR
            (T.ehReturnDataRegno 1) 0).setIP (context.regionStart + r.landingPad),
            entries ++ [(p,p + c.bytes.length)]⟩
        else walk T m exceptionObject context e.byte tableEnd fuel (p + c.bytes.length)
          (entries ++ [(p,p + c.bytes.length)])
      else .error .undefined := by
  have hm₁ : m.Holds p (c.start ++ (c.length ++ (c.landingPad ++ (c.action ++ rest)))) := by
    simpa only [CallSite.bytes,List.append_assoc] using hm
  have hm₂ := (ByteMemory.holds_append.mp hm₁).2
  have hm₃ := (ByteMemory.holds_append.mp hm₂).2
  have hm₄ := (ByteMemory.holds_append.mp hm₃).2
  have hend : p + c.start.length + c.length.length + c.landingPad.length + c.action.length = p + c.bytes.length := by
    simp only [CallSite.bytes,List.length_append]
    omega
  rw [walk]
  dsimp only
  rw [if_pos hp,readField he hm₁ hc.start_fits hc.start_eq]
  by_cases h₁ : e.format.Readable c.start
  swap
  · rw [if_neg h₁,error_bind,if_neg fun h => h₁ h.1]
  rw [if_pos h₁,ok_bind]
  dsimp only
  rw [readField he hm₂ hc.length_fits hc.length_eq]
  by_cases h₂ : e.format.Readable c.length
  swap
  · rw [if_neg h₂,error_bind,if_neg fun h => h₂ h.2.1]
  rw [if_pos h₂,ok_bind]
  dsimp only
  rw [readField he hm₃ hc.landingPad_fits hc.landingPad_eq]
  by_cases h₃ : e.format.Readable c.landingPad
  swap
  · rw [if_neg h₃,error_bind,if_neg fun h => h₃ h.2.2.1]
  rw [if_pos h₃,ok_bind]
  dsimp only
  rw [readULEB128_eq hc.action_leb (ByteMemory.holds_append.mp hm₄).1]
  by_cases h₄ : Small c.action
  swap
  · rw [if_neg h₄,error_bind,if_neg fun h => h₄ h.2.2.2]
  have hread : c.Readable e := ⟨h₁,h₂,h₃,h₄⟩
  rw [if_pos h₄,ok_bind,if_pos hread]
  dsimp only
  rw [hend]
  by_cases hpad : r.landingPad = 0
  · rw [if_pos hpad,if_neg fun h => h.2 hpad]
  rw [if_neg hpad]
  by_cases hcov : Covers context r
  · rw [if_pos ((test_iff_covers hb).mpr hcov),if_pos ⟨hcov,hpad⟩]
    rfl
  · rw [if_neg fun h => hcov ((test_iff_covers hb).mp h),if_neg fun h => hcov h.1]

/-- The loop goes through the entries until one is hit, if it can read them. -/
theorem walk_eq {cs : List CallSite} {rs : List (Range T)} (he : e.pcrel = false)
    (hc : List.Forall₂ (CallSite.Describes T m e) cs rs) (fuel p : ℕ) (entries : List (ℕ × ℕ))
    (hm : m.Holds p (cs.flatMap CallSite.bytes)) (hend : tableEnd = p + (cs.flatMap CallSite.bytes).length)
    (hfuel : (cs.flatMap CallSite.bytes).length < fuel)
    (hb : ∀ r ∈ rs, context.regionStart.toNat + r.start.toNat + r.length.toNat < 2 ^ T.bits) :
    (¬EntriesReadable e context cs rs →
      walk T m exceptionObject context e.byte tableEnd fuel p entries = .error .undefined) ∧
    (EntriesReadable e context cs rs → ∃ out,
      walk T m exceptionObject context e.byte tableEnd fuel p entries = .ok out ∧ WalkFinds context rs out ∧
      ∀ x ∈ out.entries, x ∈ entries ∨ (p ≤ x.1 ∧ x.2 ≤ tableEnd)) := by
  induction hc generalizing fuel p entries with
  | nil =>
    obtain ⟨fuel,rfl⟩ := Nat.exists_eq_succ_of_ne_zero (Nat.ne_of_gt (Nat.zero_lt_of_lt hfuel))
    refine ⟨fun h => absurd trivial h,fun _ => ⟨⟨.continueUnwind,context,entries⟩,?_,?_,fun x hx => Or.inl hx⟩⟩
    · have hp : ¬p < tableEnd := by
        rw [hend]
        exact Nat.lt_irrefl p
      rw [walk]
      dsimp only
      rw [if_neg hp]
      rfl
    · exact Or.inr ⟨fun r hr => absurd hr List.not_mem_nil,rfl,rfl⟩
  | @cons c r cs rs hcr _ ih =>
    obtain ⟨fuel,rfl⟩ := Nat.exists_eq_succ_of_ne_zero (Nat.ne_of_gt (Nat.zero_lt_of_lt hfuel))
    have hpos := callSite_pos hcr.action_leb
    rw [List.flatMap_cons] at hm
    rw [List.flatMap_cons,List.length_append] at hend hfuel
    rw [walk_step exceptionObject fuel entries he hcr hm (show p < tableEnd by omega) (hb r List.mem_cons_self)]
    obtain ⟨hbad,hgood⟩ := ih fuel (p + c.bytes.length) (entries ++ [(p,p + c.bytes.length)]) (ByteMemory.holds_append.mp hm).2
      (show tableEnd = p + c.bytes.length + _ by omega) (show _ < fuel by omega)
      fun s hs => hb s (List.mem_cons_of_mem r hs)
    by_cases hread : c.Readable e
    swap
    · rw [if_neg hread]
      exact ⟨fun _ => rfl,fun h => absurd h.1 hread⟩
    rw [if_pos hread]
    by_cases hhit : Hit context r
    · rw [if_pos hhit]
      refine ⟨fun h => absurd ⟨hread,Or.inl hhit⟩ h,fun _ => ⟨_,rfl,Or.inl ⟨r,List.mem_cons_self,hhit,rfl,rfl⟩,?_⟩⟩
      intro x hx
      rcases List.mem_append.mp hx with hx | hx
      · exact Or.inl hx
      · rw [List.mem_singleton.mp hx]
        exact Or.inr ⟨Nat.le_refl p,show p + c.bytes.length ≤ tableEnd by omega⟩
    · rw [if_neg hhit]
      refine ⟨fun h => hbad fun h' => h ⟨hread,Or.inr h'⟩,fun h => ?_⟩
      obtain ⟨out,hout,hfinds,hentries⟩ := hgood (h.2.resolve_left hhit)
      refine ⟨out,hout,hfinds.cons hhit,fun x hx => ?_⟩
      rcases hentries x hx with hx | hx
      · rcases List.mem_append.mp hx with hx | hx
        · exact Or.inl hx
        · rw [List.mem_singleton.mp hx]
          exact Or.inr ⟨Nat.le_refl p,show p + c.bytes.length ≤ tableEnd by omega⟩
      · exact Or.inr ⟨by omega,hx.2⟩

end Table

/-! ## The header -/

section Header
variable {m : ByteMemory} {L : Lsda} {context : Context T} {lpStart : T.Word} {p : ℕ} {rest : List Byte}

theorem loadByte_eq {b : Byte} {bs : List Byte} (h : m.Holds p (b :: bs)) : loadByte m p = .ok b := by
  rw [loadByte,h.1]

theorem readLpStart_eq (hm : m.Holds context.languageSpecificData (L.lpStartBytes ++ rest))
    (hl : L.LpStartIs T m context lpStart) : ∃ v : T.Word, readLpStart T m context.languageSpecificData =
      if L.LpStartReadable then .ok (v,context.languageSpecificData + L.lpStartBytes.length)
      else .error .undefined := by
  rcases L with ⟨_ | ⟨e,d⟩,ttype,callSiteEncoding,tableLength,callSites⟩
  · refine ⟨0,?_⟩
    rw [readLpStart,loadByte_eq hm,ok_bind,if_neg (not_not_intro rfl)]
    exact (if_pos trivial).symm
  · dsimp only [Lsda.lpStartBytes,Lsda.LpStartIs,Lsda.LpStartReadable,List.cons_append] at hm hl ⊢
    refine ⟨lpStart,?_⟩
    rw [readLpStart,loadByte_eq hm,ok_bind,if_pos e.byte_ne_omit,
      readEncodedPointer_eq (ByteMemory.holds_append.mp hm.2).1 hl.1 hl.2,List.length_cons,Nat.add_assoc,Nat.add_comm 1]
    rfl

theorem readTtype_eq (hm : m.Holds p (L.ttypeBytes ++ rest))
    (ht : ∀ e d, L.ttype = some (e,d) → e ≠ 0xff ∧ IsLeb128 d) : ∃ v : T.Word, readTtype T m p =
      if L.TtypeReadable then .ok (v,p + L.ttypeBytes.length) else .error .undefined := by
  rcases L with ⟨lpStart,_ | ⟨e,d⟩,callSiteEncoding,tableLength,callSites⟩
  · refine ⟨0,?_⟩
    rw [readTtype,loadByte_eq hm,ok_bind,if_neg (not_not_intro rfl)]
    exact (if_pos trivial).symm
  · dsimp only [Lsda.ttypeBytes,Lsda.TtypeReadable,List.cons_append] at hm ⊢
    obtain ⟨he,hd⟩ := ht e d rfl
    refine ⟨BitVec.ofNat T.bits (Leb128.value d),?_⟩
    rw [readTtype,loadByte_eq hm,ok_bind,if_pos he,readULEB128_eq hd (ByteMemory.holds_append.mp hm.2).1,
      List.length_cons,Nat.add_assoc,Nat.add_comm 1]
    rfl

/-- The header is read, if it can be, and the walk starts behind it. -/
theorem parseLsda_eq {ranges : List (Range T)} (hw : L.WellFormed T m context lpStart ranges)
    (exceptionObject : T.Word) :
    (¬L.HeaderReadable → parseLsda T m exceptionObject context context.languageSpecificData = .error .undefined) ∧
    (L.HeaderReadable → parseLsda T m exceptionObject context context.languageSpecificData =
      walk T m exceptionObject context L.callSiteEncoding.byte
        (context.languageSpecificData + L.header.length + L.table.length) (L.table.length + 1)
        (context.languageSpecificData + L.header.length) []) := by
  have hm : m.Holds context.languageSpecificData
      (L.lpStartBytes ++ (L.ttypeBytes ++ (L.callSiteEncoding.byte :: (L.tableLength ++ L.table)))) := by
    simpa only [Lsda.bytes,Lsda.header,List.append_assoc,List.cons_append] using hw.held
  have hm₂ := (ByteMemory.holds_append.mp hm).2
  have hm₃ := (ByteMemory.holds_append.mp hm₂).2
  have hlen : context.languageSpecificData + L.lpStartBytes.length + L.ttypeBytes.length + 1 + L.tableLength.length =
      context.languageSpecificData + L.header.length := by
    simp only [Lsda.header,List.length_append,List.length_cons]
    omega
  obtain ⟨v,hlp⟩ := readLpStart_eq hm hw.lpStart_is
  obtain ⟨u,htt⟩ := readTtype_eq (T := T) hm₂ hw.ttype_leb
  rw [parseLsda,hlp]
  unfold Lsda.HeaderReadable
  by_cases h₁ : L.LpStartReadable
  swap
  · rw [if_neg h₁,error_bind]
    exact ⟨fun _ => rfl,fun h => absurd h.1 h₁⟩
  rw [if_pos h₁,ok_bind]
  dsimp only
  rw [htt]
  by_cases h₂ : L.TtypeReadable
  swap
  · rw [if_neg h₂,error_bind]
    exact ⟨fun _ => rfl,fun h => absurd h.2.1 h₂⟩
  rw [if_pos h₂,ok_bind]
  dsimp only
  rw [loadByte_eq hm₃,ok_bind,readULEB128_eq hw.tableLength_leb (ByteMemory.holds_append.mp hm₃.2).1]
  by_cases h₃ : Small L.tableLength
  swap
  · rw [if_neg h₃,error_bind]
    exact ⟨fun _ => rfl,fun h => absurd h.2.2 h₃⟩
  rw [if_pos h₃,ok_bind]
  dsimp only
  have hsmall : L.table.length < 2 ^ 31 := by
    rw [← hw.tableLength_eq]
    exact h₃.2
  have hvalue : (BitVec.ofNat T.bits (Leb128.value L.tableLength)).toNat % 2 ^ 32 = L.table.length := by
    rw [hw.tableLength_eq,BitVec.toNat_ofNat,Nat.mod_eq_of_lt (T.lt_of_small hsmall),Nat.mod_eq_of_lt (by omega)]
  rw [hvalue,hlen]
  exact ⟨fun h => absurd ⟨h₁,h₂,h₃⟩ h,fun _ => rfl⟩

end Header

/-! ## The routine -/

section Routine
variable {m : ByteMemory} {L : Lsda} {context : Context T} {lpStart : T.Word} {ranges : List (Range T)}

/-- In the search phase nothing is read or changed. -/
theorem gccPersonalityV0_search {actions : BitVec 32} (h : actions &&& 1 ≠ 0) (exceptionObject : T.Word) :
    gccPersonalityV0 T m actions exceptionObject context = .ok ⟨.continueUnwind,context,[]⟩ := if_pos h

theorem gccPersonalityV0_cleanup (hw : L.WellFormed T m context lpStart ranges) {actions : BitVec 32}
    (h : actions &&& 1 = 0) (exceptionObject : T.Word) : gccPersonalityV0 T m actions exceptionObject context =
      parseLsda T m exceptionObject context context.languageSpecificData := by
  rw [gccPersonalityV0,if_neg (not_not_intro h),if_neg hw.lsda_ne]

/-- What the routine does on a well-formed LSDA, in either phase. -/
def MeetsSpec (m : ByteMemory) (L : Lsda) (context : Context T) (lpStart : T.Word) (ranges : List (Range T))
    (actions : BitVec 32) (exceptionObject : T.Word) : Prop :=
  (actions &&& 1 ≠ 0 →
    gccPersonalityV0 T m actions exceptionObject context = .ok ⟨.continueUnwind,context,[]⟩) ∧
  (actions &&& 1 = 0 →
    LandsRight L context lpStart ranges (gccPersonalityV0 T m actions exceptionObject context))

/-- The header and the entries up to the one that is hit can be read, and a landing pad is counted from the start of the
function. -/
def MeetsSpecWhen (L : Lsda) (context : Context T) (lpStart : T.Word) (ranges : List (Range T)) : Prop :=
  L.HeaderReadable ∧ EntriesReadable L.callSiteEncoding context L.callSites ranges ∧
    ((∃ r ∈ ranges, Hit context r) → lpStart = context.regionStart)

theorem landsRight_iff (hw : L.WellFormed T m context lpStart ranges) (exceptionObject : T.Word) :
    LandsRight L context lpStart ranges
      (parseLsda T m exceptionObject context context.languageSpecificData) ↔
      MeetsSpecWhen L context lpStart ranges := by
  obtain ⟨hbad,hgood⟩ := parseLsda_eq hw exceptionObject
  have hm : m.Holds (context.languageSpecificData + L.header.length) L.table := by
    have h := hw.held
    rw [Lsda.bytes,ByteMemory.holds_append] at h
    exact h.2
  obtain ⟨hwbad,hwgood⟩ := walk_eq exceptionObject hw.absolute hw.callSites (L.table.length + 1)
    (context.languageSpecificData + L.header.length) [] hm rfl (Nat.lt_succ_self _) hw.bounded
  rw [← Lsda.table] at hwbad hwgood
  constructor
  · rintro ⟨out,hout,hhit,-,-⟩
    by_cases hh : L.HeaderReadable
    swap
    · rw [hbad hh] at hout
      exact absurd hout nofun
    rw [hgood hh] at hout
    by_cases he : EntriesReadable L.callSiteEncoding context L.callSites ranges
    swap
    · rw [hwbad he] at hout
      exact absurd hout nofun
    refine ⟨hh,he,fun ⟨r,hr,hc,hpad⟩ => ?_⟩
    obtain ⟨out',hout',hfinds,-⟩ := hwgood he
    cases hout.symm.trans hout'
    rcases hfinds with ⟨s,hs,hsc,-,hip⟩ | ⟨hno,-⟩
    · obtain rfl := covers_unique hw.sorted hr hs hc hsc.1
      obtain ⟨-,hip'⟩ := hhit r hr hc hpad
      have heq := hip'.symm.trans hip
      rw [BitVec.add_comm lpStart,BitVec.add_comm context.regionStart] at heq
      exact add_left_cancel heq
    · exact absurd ⟨hc,hpad⟩ (hno r hr)
  · rintro ⟨hh,he,hlp⟩
    obtain ⟨out,hout,hfinds,hentries⟩ := hwgood he
    refine ⟨out,(hgood hh).trans hout,fun r hr hc hpad => ?_,fun hnone => ?_,fun x hx => ?_⟩
    · rcases hfinds with ⟨s,hs,hsc,hreason,hip⟩ | ⟨hno,-⟩
      · obtain rfl := covers_unique hw.sorted hr hs hc hsc.1
        rw [hlp ⟨r,hr,hsc⟩]
        exact ⟨hreason,hip⟩
      · exact absurd ⟨hc,hpad⟩ (hno r hr)
    · rcases hfinds with ⟨s,hs,hsc,-⟩ | ⟨-,hreason,hctx⟩
      · exact absurd (hnone s hs hsc.1) hsc.2
      · exact ⟨hreason,hctx⟩
    · rcases hentries x hx with hx | hx
      · exact absurd hx List.not_mem_nil
      · exact hx

/-- The routine does what the LSDA says exactly in the search phase, or where no number that it reads needs more than an
`int` and, if there is a landing pad to go to, `LPStart` is the start of the function. -/
theorem meetsSpec_iff (T : Target) (m : ByteMemory) (L : Lsda) (context : Context T) (lpStart : T.Word)
    (ranges : List (Range T)) (hw : L.WellFormed T m context lpStart ranges) (actions : BitVec 32)
    (exceptionObject : T.Word) : MeetsSpec m L context lpStart ranges actions exceptionObject ↔
      actions &&& 1 ≠ 0 ∨ MeetsSpecWhen L context lpStart ranges := by
  unfold MeetsSpec
  by_cases h : actions &&& 1 = 0
  · rw [gccPersonalityV0_cleanup hw h,landsRight_iff hw]
    constructor
    · exact fun hspec => Or.inr (hspec.2 h)
    · exact fun hspec => ⟨fun hne => absurd h hne,fun _ => hspec.resolve_left (not_not_intro h)⟩
  · exact ⟨fun _ => Or.inl h,fun _ => ⟨fun _ => gccPersonalityV0_search h exceptionObject,fun h' => absurd h' h⟩⟩

end Routine

/-! ## A frame with an explicit `LPStart` -/

/-- Patmos -/
def patmos : Target := ⟨.big,4,Or.inl rfl,fun i => i + 3⟩

/-- `LPStart` is 0x2000 and the calls at the offsets below 16 have the landing pad 0x20. -/
def cleanupLsda : Lsda where
  lpStart := some (⟨.udata4,false,false⟩,[0,0,0x20,0])
  ttype := none
  callSiteEncoding := ⟨.udata4,false,false⟩
  tableLength := [13]
  callSites := [⟨[0,0,0,0],[0,0,0,0x10],[0,0,0,0x20],[0]⟩]

def cleanupMemory : ByteMemory := ByteMemory.ofList 0x100 cleanupLsda.bytes

def cleanupContext (regionStart ip : BitVec 32) : Context patmos :=
  ⟨(ip : BitVec (8 * 4)),(regionStart : BitVec (8 * 4)),0x100,fun _ => (0 : BitVec (8 * 4))⟩

theorem wellFormed_cleanupLsda {regionStart : BitVec 32} (h : regionStart.toNat < 2 ^ 31) (ip : BitVec 32) :
    cleanupLsda.WellFormed patmos cleanupMemory (cleanupContext regionStart ip) (0x2000 : BitVec 32)
      [⟨(0 : BitVec 32),(0x10 : BitVec 32),(0x20 : BitVec 32)⟩] where
  lsda_ne := Nat.succ_ne_zero 0xff
  held := ByteMemory.holds_ofList 0x100 cleanupLsda.bytes
  lpStart_is := ⟨rfl,rfl⟩
  ttype_leb := nofun
  absolute := rfl
  tableLength_leb := ⟨[],13,rfl,nofun,by decide⟩
  tableLength_eq := by decide
  callSites := List.Forall₂.cons ⟨rfl,rfl,rfl,⟨[],0,rfl,nofun,by decide⟩,by decide,by decide,by decide⟩ .nil
  bounded := by
    intro r hr
    rw [List.mem_singleton.mp hr]
    change regionStart.toNat + 0 + 16 < 2 ^ 32
    omega
  sorted := List.pairwise_singleton _ _

/-- A function at 0x1000 with landing pads counted from 0x2000: the routine goes to 0x1020. -/
theorem not_meetsSpec : ¬∀ (T : Target) (m : ByteMemory) (L : Lsda) (context : Context T) (lpStart : T.Word)
    (ranges : List (Range T)), L.WellFormed T m context lpStart ranges → ∀ (actions : BitVec 32)
      (exceptionObject : T.Word), MeetsSpec m L context lpStart ranges actions exceptionObject := by
  intro h
  have hstart : (0x1000 : BitVec 32).toNat < 2 ^ 31 := by decide
  have hw := wellFormed_cleanupLsda hstart 0x1006
  have hspec := (h _ _ _ _ _ _ hw 0 0).2 (by decide)
  rw [gccPersonalityV0_cleanup hw (by decide),landsRight_iff hw] at hspec
  have hhit : Hit (cleanupContext 0x1000 0x1006) ⟨(0 : BitVec 32),(0x10 : BitVec 32),(0x20 : BitVec 32)⟩ := by decide
  have hstart : (0x2000 : BitVec 32) = 0x1000 := hspec.2.2 ⟨_,List.mem_singleton_self _,hhit⟩
  exact absurd hstart (by decide)

/-- With the function at 0x2000 it does what the LSDA says. -/
theorem meetsSpec_cleanupLsda : MeetsSpec cleanupMemory cleanupLsda (cleanupContext 0x2000 0x2006) (0x2000 : BitVec 32)
    [⟨(0 : BitVec 32),(0x10 : BitVec 32),(0x20 : BitVec 32)⟩] 0 0 :=
  (meetsSpec_iff patmos cleanupMemory cleanupLsda (cleanupContext 0x2000 0x2006) (0x2000 : BitVec 32)
    [⟨(0 : BitVec 32),(0x10 : BitVec 32),(0x20 : BitVec 32)⟩] (wellFormed_cleanupLsda (by decide) 0x2006) 0 0).mpr
    (Or.inr ⟨by decide,⟨by decide,Or.inl (by decide)⟩,fun _ => rfl⟩)

end CompilerRt.Unwind
