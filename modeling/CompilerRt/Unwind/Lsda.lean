import CompilerRt.Unwind.GccPersonality
import Mathlib.Data.List.Forall2
import Mathlib.Tactic.Ring

/-! # Language-specific data areas

The syntax of an LSDA with the bytes it has in memory, the numbers that its fields stand for, and what the readers of
`lib/gcc_personality_v0.c` make of a field.
-/
namespace CompilerRt.Unwind
open ByteOrder Leb128

/-- The formats of `DW_EH_PE` that the routine supports. -/
inductive Format
  | absptr
  | uleb128
  | udata2
  | udata4
  | udata8
  | sdata2
  | sdata4
  | sdata8
  deriving DecidableEq,Repr

def Format.code : Format → Byte
  | .absptr => 0x00
  | .uleb128 => 0x01
  | .udata2 => 0x02
  | .udata4 => 0x03
  | .udata8 => 0x04
  | .sdata2 => 0x0a
  | .sdata4 => 0x0b
  | .sdata8 => 0x0c

structure Encoding where
  format : Format
  pcrel : Bool
  indirect : Bool
  deriving DecidableEq,Repr

def Encoding.byte (e : Encoding) : Byte :=
  e.format.code ||| (if e.pcrel then 0x10 else 0) ||| (if e.indirect then 0x80 else 0)

structure CallSite where
  start : List Byte
  length : List Byte
  landingPad : List Byte
  action : List Byte

def CallSite.bytes (c : CallSite) : List Byte := c.start ++ c.length ++ c.landingPad ++ c.action

structure Lsda where
  lpStart : Option (Encoding × List Byte)
  ttype : Option (Byte × List Byte)
  callSiteEncoding : Encoding
  tableLength : List Byte
  callSites : List CallSite

namespace Lsda

def lpStartBytes (L : Lsda) : List Byte :=
  match L.lpStart with
  | none => [0xff]
  | some (e,d) => e.byte :: d

def ttypeBytes (L : Lsda) : List Byte :=
  match L.ttype with
  | none => [0xff]
  | some (e,d) => e :: d

def header (L : Lsda) : List Byte := L.lpStartBytes ++ L.ttypeBytes ++ L.callSiteEncoding.byte :: L.tableLength

def table (L : Lsda) : List Byte := L.callSites.flatMap CallSite.bytes

def bytes (L : Lsda) : List Byte := L.header ++ L.table

end Lsda

section Meaning
variable (T : Target) (m : ByteMemory)

/-- These bytes can stand for a field of the format. -/
def Format.Fits : Format → List Byte → Prop
  | .absptr, d => d.length = T.ptrBytes
  | .uleb128, d => IsLeb128 d
  | .udata2, d => d.length = 2
  | .udata4, d => d.length = 4
  | .udata8, d => d.length = 8
  | .sdata2, d => d.length = 2
  | .sdata4, d => d.length = 4
  | .sdata8, d => d.length = 8

def signed (k : ℕ) (d : List Byte) : T.Word := (BitVec.ofNat (8 * k) (ofBytes T.order d)).signExtend T.bits

def Format.value : Format → List Byte → T.Word
  | .uleb128, d => BitVec.ofNat T.bits (Leb128.value d)
  | .sdata2, d => signed T 2 d
  | .sdata4, d => signed T 4 d
  | .sdata8, d => signed T 8 d
  | _, d => BitVec.ofNat T.bits (ofBytes T.order d)

/-- The value, or what the pointer-sized cell at the value holds. -/
def pointee (ind : Bool) (v : T.Word) : Option T.Word :=
  if ind then (m.read v.toNat T.ptrBytes).map fun bs => BitVec.ofNat T.bits (ofBytes T.order bs) else some v

/-- What the field at `addr` stands for. -/
def Encoding.denote (e : Encoding) (addr : ℕ) (d : List Byte) : Option T.Word :=
  pointee T m e.indirect (e.format.value T d + if e.pcrel then BitVec.ofNat T.bits addr else 0)

/-- The field without its address. -/
def Encoding.denoteAbsolute (e : Encoding) (d : List Byte) : Option T.Word :=
  pointee T m e.indirect (e.format.value T d)

/-- The offsets that a call-site entry stands for. -/
structure Range where
  start : T.Word
  length : T.Word
  landingPad : T.Word

structure CallSite.Describes (e : Encoding) (c : CallSite) (r : Range T) : Prop where
  start_fits : e.format.Fits T c.start
  length_fits : e.format.Fits T c.length
  landingPad_fits : e.format.Fits T c.landingPad
  action_leb : IsLeb128 c.action
  start_eq : e.denoteAbsolute T m c.start = some r.start
  length_eq : e.denoteAbsolute T m c.length = some r.length
  landingPad_eq : e.denoteAbsolute T m c.landingPad = some r.landingPad

/-- `LPStart` is what its field stands for, or the start of the function. -/
def Lsda.LpStartIs (L : Lsda) (context : Context T) (lpStart : T.Word) : Prop :=
  match L.lpStart with
  | none => lpStart = context.regionStart
  | some (e,d) => e.format.Fits T d ∧ e.denote T m (context.languageSpecificData + 1) d = some lpStart

/-- The frame has a well-formed LSDA with this `LPStart` and these call-site entries. -/
structure Lsda.WellFormed (L : Lsda) (context : Context T) (lpStart : T.Word) (ranges : List (Range T)) : Prop where
  lsda_ne : context.languageSpecificData ≠ 0
  held : m.Holds context.languageSpecificData L.bytes
  lpStart_is : L.LpStartIs T m context lpStart
  ttype_leb : ∀ e d, L.ttype = some (e,d) → e ≠ 0xff ∧ IsLeb128 d
  absolute : L.callSiteEncoding.pcrel = false
  tableLength_leb : IsLeb128 L.tableLength
  tableLength_eq : Leb128.value L.tableLength = L.table.length
  callSites : List.Forall₂ (CallSite.Describes T m L.callSiteEncoding) L.callSites ranges
  bounded : ∀ r ∈ ranges, context.regionStart.toNat + r.start.toNat + r.length.toNat < 2 ^ T.bits
  sorted : ranges.Pairwise fun r s => r.start.toNat + r.length.toNat ≤ s.start.toNat

end Meaning

/-! ## What is read from a field -/

/-- The number is read without an undefined shift. -/
def Small (d : List Byte) : Prop := d.length ≤ 5 ∧ Leb128.value d < 2 ^ 31

instance (d : List Byte) : Decidable (Small d) := by unfold Small; infer_instance

/-- The same from a shift on. -/
def SmallFrom (shift : ℕ) (d : List Byte) : Prop := shift + 7 * d.length < 39 ∧ Leb128.value d * 2 ^ shift < 2 ^ 31

instance (shift : ℕ) (d : List Byte) : Decidable (SmallFrom shift d) := by unfold SmallFrom; infer_instance

theorem smallFrom_zero (d : List Byte) : SmallFrom 0 d ↔ Small d := by
  unfold SmallFrom Small
  rw [Nat.pow_zero,Nat.mul_one]
  omega

/-- A number is small if its first group is and the number behind it is. -/
theorem smallFrom_cons {shift : ℕ} {b : Byte} {bs : List Byte} (hbs : bs ≠ []) :
    SmallFrom shift (b :: bs) ↔
      (shift < 32 ∧ b.toNat % 128 * 2 ^ shift < 2 ^ 31) ∧ SmallFrom (shift + 7) bs := by
  have hlen : 0 < bs.length := List.length_pos_iff.mpr hbs
  have hlow : b.toNat % 128 < 128 := Nat.mod_lt _ (by decide)
  have hpow : 2 ^ (shift + 7) = 128 * 2 ^ shift := by ring
  unfold SmallFrom
  rw [List.length_cons,Leb128.value,hpow]
  generalize b.toNat % 128 = g at hlow ⊢
  generalize Leb128.value bs = v
  constructor
  · rintro ⟨hl,hv⟩
    refine ⟨⟨by omega,lt_of_le_of_lt (Nat.mul_le_mul_right _ (Nat.le_add_right g (128 * v))) hv⟩,by omega,?_⟩
    calc v * (128 * 2 ^ shift) = 128 * v * 2 ^ shift := by ring
      _ ≤ (g + 128 * v) * 2 ^ shift := Nat.mul_le_mul_right _ (Nat.le_add_left _ _)
      _ < 2 ^ 31 := hv
  · rintro ⟨-,hl,hv⟩
    refine ⟨by omega,?_⟩
    -- 2 ^ 31 is a multiple of the next group's unit, so the group below it still fits.
    obtain ⟨k,hk⟩ : ∃ k, shift + 7 + k = 31 := ⟨24 - shift,by omega⟩
    have hunit : (2 : ℕ) ^ 31 = 2 ^ k * (128 * 2 ^ shift) := by rw [← hk,← hpow]; ring
    rw [hunit] at hv ⊢
    have hvk : v + 1 ≤ 2 ^ k := Nat.lt_of_mul_lt_mul_right hv
    calc (g + 128 * v) * 2 ^ shift < 128 * (v + 1) * 2 ^ shift :=
          Nat.mul_lt_mul_of_pos_right (by omega) (Nat.two_pow_pos _)
      _ = (v + 1) * (128 * 2 ^ shift) := by ring
      _ ≤ 2 ^ k * (128 * 2 ^ shift) := Nat.mul_le_mul_right _ hvk

section Readers
variable {T : Target} {m : ByteMemory}

theorem ok_bind {α β : Type} (a : α) (f : α → Except Stop β) : (Except.ok a >>= f) = f a := rfl

theorem error_bind {α β : Type} (e : Stop) (f : α → Except Stop β) : ((Except.error e : Except Stop α) >>= f) = .error e :=
  rfl

theorem load_eq {p k : ℕ} {d : List Byte} (h : m.Holds p d) (hk : d.length = k) :
    load T m p k = .ok (ofBytes T.order d) := by
  subst hk
  rw [load,h.read]

/-- The groups that are there plus those that follow. -/
theorem or_ofNat {result : T.Word} {shift x : ℕ} (h : result.toNat < 2 ^ shift) (hx : x * 2 ^ shift < 2 ^ 31) :
    result ||| BitVec.ofNat T.bits (x * 2 ^ shift) = result + BitVec.ofNat T.bits (x * 2 ^ shift) := by
  apply BitVec.eq_of_toNat_eq
  have hx' := T.lt_of_small hx
  rw [BitVec.toNat_or,BitVec.toNat_add,BitVec.toNat_ofNat,Nat.mod_eq_of_lt hx',or_group h]
  refine (Nat.mod_eq_of_lt ?_).symm
  rcases Nat.eq_zero_or_pos x with rfl | hpos
  · rw [Nat.zero_mul,Nat.add_zero]
    exact result.isLt
  · have hle : 2 ^ shift ≤ x * 2 ^ shift := Nat.le_mul_of_pos_left _ hpos
    have hb : 2 ^ 32 ≤ 2 ^ T.bits := Nat.pow_le_pow_right (by decide) T.le_bits
    omega

theorem shiftLeft_eq {g shift : ℕ} (h : shift < 32 ∧ g * 2 ^ shift < 2 ^ 31) :
    shiftLeft g shift = .ok (g * 2 ^ shift) := if_pos h

theorem smallFrom_last {shift : ℕ} {b : Byte} :
    SmallFrom shift [b] ↔ shift < 32 ∧ b.toNat % 128 * 2 ^ shift < 2 ^ 31 := by
  unfold SmallFrom
  simp only [List.length_cons,List.length_nil,Leb128.value,Nat.mul_zero,Nat.add_zero]
  omega

/-- A number is read as it is, unless one of its groups is shifted where C leaves the result undefined. -/
theorem readULEB128Loop_eq {d : List Byte} (hd : IsLeb128 d) {fuel p shift : ℕ} {result : T.Word}
    (hm : m.Holds p d) (hr : result.toNat < 2 ^ shift) (hpos : 0 < fuel) (hf : 39 ≤ shift + 7 * fuel) :
    readULEB128Loop T m fuel p result shift =
      if SmallFrom shift d then .ok (result + BitVec.ofNat T.bits (Leb128.value d * 2 ^ shift),p + d.length)
      else .error .undefined := by
  induction d generalizing fuel p shift result with
  | nil => exact absurd hd not_isLeb128_nil
  | cons b bs ih =>
    obtain ⟨fuel,rfl⟩ := Nat.exists_eq_succ_of_ne_zero (Nat.ne_of_gt hpos)
    rw [readULEB128Loop,loadByte,hm.1]
    dsimp only
    rw [ok_bind,and_low]
    by_cases hgroup : shift < 32 ∧ b.toNat % 128 * 2 ^ shift < 2 ^ 31
    · rw [shiftLeft_eq hgroup,ok_bind,or_ofNat hr hgroup.2]
      rcases isLeb128_cons hd with ⟨rfl,hlast⟩ | ⟨hmore,hbs⟩
      · rw [if_pos ((and_high b).mpr hlast),if_pos (smallFrom_last.mpr hgroup),Leb128.value,Leb128.value,Nat.mul_zero,
          Nat.add_zero]
        rfl
      -- The group and the bits below it stay under the next group.
      have hlow : b.toNat % 128 < 128 := Nat.mod_lt _ (by decide)
      have hbelow : result.toNat + b.toNat % 128 * 2 ^ shift < 2 ^ (shift + 7) := by
        have hle : (b.toNat % 128 + 1) * 2 ^ shift ≤ 128 * 2 ^ shift := Nat.mul_le_mul_right _ hlow
        have hpow : 2 ^ (shift + 7) = 128 * 2 ^ shift := by ring
        rw [Nat.add_mul,Nat.one_mul] at hle
        omega
      have hnext : (result + BitVec.ofNat T.bits (b.toNat % 128 * 2 ^ shift)).toNat < 2 ^ (shift + 7) := by
        rw [BitVec.toNat_add,BitVec.toNat_ofNat,Nat.mod_eq_of_lt (T.lt_of_small hgroup.2)]
        exact lt_of_le_of_lt (Nat.mod_le _ _) hbelow
      rw [if_neg (fun h => absurd ((and_high b).mp h) (Nat.not_lt.mpr hmore)),
        ih hbs hm.2 hnext (by omega) (by omega)]
      by_cases hsmall : SmallFrom (shift + 7) bs
      · have hvalue : Leb128.value (b :: bs) * 2 ^ shift =
            b.toNat % 128 * 2 ^ shift + Leb128.value bs * 2 ^ (shift + 7) := by
          rw [Leb128.value]
          ring
        rw [if_pos hsmall,if_pos ((smallFrom_cons hbs.ne_nil).mpr ⟨hgroup,hsmall⟩),hvalue,BitVec.ofNat_add,
          BitVec.add_assoc,List.length_cons,Nat.add_assoc,Nat.add_comm 1]
      · rw [if_neg hsmall,if_neg fun h => hsmall ((smallFrom_cons hbs.ne_nil).mp h).2]
    · rw [shiftLeft,if_neg hgroup,error_bind,if_neg]
      rcases isLeb128_cons hd with ⟨rfl,-⟩ | ⟨-,hbs⟩
      · exact fun h => hgroup (smallFrom_last.mp h)
      · exact fun h => hgroup ((smallFrom_cons hbs.ne_nil).mp h).1

theorem readULEB128_eq {d : List Byte} (hd : IsLeb128 d) {p : ℕ} (hm : m.Holds p d) :
    readULEB128 T m p =
      if Small d then .ok (BitVec.ofNat T.bits (Leb128.value d),p + d.length) else .error .undefined := by
  have h₀ : (0 : T.Word).toNat < 2 ^ 0 := by simp
  have h : readULEB128Loop T m 6 p 0 0 = _ := readULEB128Loop_eq hd hm h₀ (by decide) (by decide)
  have hadd : (0 : T.Word) + BitVec.ofNat T.bits (Leb128.value d) = BitVec.ofNat T.bits (Leb128.value d) :=
    BitVec.zero_add _
  rw [Nat.pow_zero,Nat.mul_one,hadd] at h
  rw [readULEB128,h]
  exact if_congr (smallFrom_zero d) rfl rfl

/-- The reader of the format works on this field. -/
def Format.Readable : Format → List Byte → Prop
  | .uleb128, d => Small d
  | _, _ => True

instance (f : Format) (d : List Byte) : Decidable (f.Readable d) := by
  cases f <;> unfold Format.Readable <;> infer_instance

theorem Encoding.byte_format (e : Encoding) : e.byte &&& 0x0f = e.format.code := by
  rcases e with ⟨_ | _ | _ | _ | _ | _ | _ | _,_ | _,_ | _⟩ <;> rfl

theorem Encoding.byte_relative (e : Encoding) : e.byte &&& 0x70 = if e.pcrel then 0x10 else 0 := by
  rcases e with ⟨_ | _ | _ | _ | _ | _ | _ | _,_ | _,_ | _⟩ <;> rfl

theorem Encoding.byte_indirect (e : Encoding) : e.byte &&& 0x80 = if e.indirect then 0x80 else 0 := by
  rcases e with ⟨_ | _ | _ | _ | _ | _ | _ | _,_ | _,_ | _⟩ <;> rfl

theorem Encoding.byte_ne_omit (e : Encoding) : e.byte ≠ 0xff := by
  rcases e with ⟨_ | _ | _ | _ | _ | _ | _ | _,_ | _,_ | _⟩ <;> decide

theorem readUnsigned_eq {d : List Byte} {p k : ℕ} (hm : m.Holds p d) (hk : d.length = k) :
    readUnsigned T m p k = .ok (BitVec.ofNat T.bits (ofBytes T.order d),p + d.length) := by
  rw [readUnsigned,load_eq hm hk,ok_bind,hk]
  rfl

theorem readSigned_eq {d : List Byte} {p k : ℕ} (hm : m.Holds p d) (hk : d.length = k) :
    readSigned T m p k = .ok (signed T k d,p + d.length) := by
  rw [readSigned,load_eq hm hk,ok_bind,hk]
  rfl

theorem readValue_eq {e : Encoding} {d : List Byte} {p : ℕ} (hm : m.Holds p d) (hd : e.format.Fits T d) :
    readValue T m p e.byte =
      if e.format.Readable d then .ok (e.format.value T d,p + d.length) else .error .undefined := by
  rw [readValue,e.byte_format]
  generalize e.format = f at hd
  cases f with
  | uleb128 => exact readULEB128_eq hd hm
  | absptr | udata2 | udata4 | udata8 => exact (readUnsigned_eq hm hd).trans (if_pos trivial).symm
  | sdata2 | sdata4 | sdata8 => exact (readSigned_eq hm hd).trans (if_pos trivial).symm

theorem addRelative_eq (e : Encoding) (data : ℕ) (v : T.Word) :
    addRelative T data e.byte v = .ok (v + if e.pcrel then BitVec.ofNat T.bits data else 0) := by
  rw [addRelative,e.byte_relative]
  cases e.pcrel with
  | true => rfl
  | false => exact congrArg Except.ok (BitVec.add_zero v).symm

theorem indirect_eq {e : Encoding} {v w : T.Word} (h : pointee T m e.indirect v = some w) :
    indirect T m e.byte v = .ok w := by
  rw [indirect,e.byte_indirect]
  cases hi : e.indirect with
  | false =>
    rw [hi] at h
    exact congrArg Except.ok (Option.some.inj h)
  | true =>
    rw [hi,pointee,if_pos rfl,Option.map_eq_some_iff] at h
    obtain ⟨bs,hread,rfl⟩ := h
    have hne : ¬(if true = true then (0x80 : Byte) else 0) = 0 := by decide
    rw [if_neg hne,load,hread]
    rfl

/-- A field is read as what it stands for, or not at all. -/
theorem readEncodedPointer_eq {e : Encoding} {d : List Byte} {p : ℕ} {v : T.Word} (hm : m.Holds p d)
    (hd : e.format.Fits T d) (hv : e.denote T m p d = some v) :
    readEncodedPointer T m p e.byte = if e.format.Readable d then .ok (v,p + d.length) else .error .undefined := by
  rw [readEncodedPointer,if_neg e.byte_ne_omit,readValue_eq hm hd]
  by_cases h : e.format.Readable d
  · rw [if_pos h,if_pos h,ok_bind]
    dsimp only
    rw [addRelative_eq,ok_bind,indirect_eq hv,ok_bind]
    rfl
  · rw [if_neg h,if_neg h,error_bind]

theorem denote_of_absolute {e : Encoding} (he : e.pcrel = false) (p : ℕ) (d : List Byte) :
    e.denote T m p d = e.denoteAbsolute T m d := by
  rw [Encoding.denote,Encoding.denoteAbsolute,he]
  exact congrArg _ (BitVec.add_zero _)

end Readers
end CompilerRt.Unwind
