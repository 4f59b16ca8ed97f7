import CompilerRt.StackDepot.Depot

/-! # Ids

An id is the sequence number in the low bits and the part above it. The highest bit stays clear.
-/
namespace CompilerRt.StackDepot
variable {A : Arch}

theorem bucket_lt (stack : Stack A) : bucket stack < kTabSize := Nat.mod_lt _ (by decide)

theorem partOf_lt {b : ℕ} (h : b < kTabSize) : partOf b < kPartCount := by
  have hsize : kTabSize = kPartCount * kPartSize := by decide
  rw [hsize] at h
  exact Nat.div_lt_of_lt_mul (by rwa [Nat.mul_comm])

section Ids
variable {p p' : ℕ} {n n' : U32}

theorem toNat_idOf (hp : p < kPartCount) (hn : n.toNat < kMaxId) : (idOf p n).toNat = n.toNat + kMaxId * p := by
  have hcount : kPartCount = 256 := by decide
  have hmax : kMaxId = 2 ^ 23 := by decide
  have hshift : p <<< kPartShift = 2 ^ 23 * p := by
    rw [Nat.shiftLeft_eq,Nat.mul_comm]
    rfl
  rw [hcount] at hp
  rw [hmax] at hn ⊢
  rw [idOf,BitVec.toNat_or,BitVec.toNat_ofNat,hshift,Nat.mod_eq_of_lt (by omega),Nat.or_comm,
    ← Nat.two_pow_add_eq_or_of_lt hn,Nat.add_comm]

theorem idOf_inj (hp : p < kPartCount) (hp' : p' < kPartCount) (hn : n.toNat < kMaxId) (hn' : n'.toNat < kMaxId)
    (h : idOf p n = idOf p' n') : p = p' ∧ n = n' := by
  have hnat := congrArg BitVec.toNat h
  rw [toNat_idOf hp hn,toNat_idOf hp' hn'] at hnat
  have hmax : kMaxId = 8388608 := by decide
  rw [hmax] at hnat hn hn'
  exact ⟨by omega,BitVec.eq_of_toNat_eq (by omega)⟩

/-- The part is in the high bits. -/
theorem idOf_shiftRight (hp : p < kPartCount) (hn : n.toNat < kMaxId) : (idOf p n).toNat >>> kPartShift = p := by
  have hmax : kMaxId = 8388608 := by decide
  rw [toNat_idOf hp hn,Nat.shiftRight_eq_div_pow]
  rw [hmax] at hn ⊢
  change (n.toNat + 8388608 * p) / 8388608 = p
  omega

theorem idOf_ne_zero (hp : p < kPartCount) (hn : n.toNat < kMaxId) (hpos : 0 < n.toNat) : idOf p n ≠ 0 := fun h => by
  have hnat := congrArg BitVec.toNat h
  rw [toNat_idOf hp hn] at hnat
  change n.toNat + kMaxId * p = 0 at hnat
  omega

theorem idOf_and (hp : p < kPartCount) (hn : n.toNat < kMaxId) : idOf p n &&& (1 <<< 31) = 0 := by
  have hlt : (idOf p n).toNat < 2 ^ 31 := by
    have hcount : kPartCount = 256 := by decide
    have hmax : kMaxId = 8388608 := by decide
    rw [toNat_idOf hp hn]
    rw [hmax] at hn ⊢
    rw [hcount] at hp
    omega
  have hbit : (idOf p n).getLsbD 31 = false := Nat.testBit_lt_two_pow hlt
  have hand : idOf p n &&& (1 <<< 31) = if (idOf p n).getLsbD 31 then BitVec.twoPow 32 31 else 0 :=
    BitVec.and_twoPow _ 31
  rw [hand,hbit]
  rfl

end Ids
end CompilerRt.StackDepot
