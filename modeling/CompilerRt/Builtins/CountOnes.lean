import CompilerRt.Lib.WordFields
import Mathlib

/-! # Counting ones

`lib/popcountdi2.c` and `lib/popcountti2.c` add the bits up in fields that grow, and `lib/paritydi2.c` with
`lib/paritysi2.c` folds the word onto its halves.
-/
namespace CompilerRt.CountOnes
open WordFields

def popcountdi2 (a : BitVec 64) : BitVec 32 :=
  let x2 := a
  let x2 := x2 - ((x2 >>> 1) &&& 0x5555555555555555)
  let x2 := ((x2 >>> 2) &&& 0x3333333333333333) + (x2 &&& 0x3333333333333333)
  let x2 := (x2 + (x2 >>> 4)) &&& 0x0F0F0F0F0F0F0F0F
  let x := (x2 + (x2 >>> 32)).setWidth 32
  let x := x + (x >>> 16)
  (x + (x >>> 8)) &&& 0x0000007F

/-- `((tu_int)m << 64) | m`. -/
def twice (m : BitVec 64) : BitVec 128 := m.setWidth 128 <<< 64 ||| m.setWidth 128

def popcountti2 (a : BitVec 128) : BitVec 32 :=
  let x3 := a
  let x3 := x3 - ((x3 >>> 1) &&& twice 0x5555555555555555)
  let x3 := ((x3 >>> 2) &&& twice 0x3333333333333333) + (x3 &&& twice 0x3333333333333333)
  let x3 := (x3 + (x3 >>> 4)) &&& twice 0x0F0F0F0F0F0F0F0F
  let x2 : BitVec 64 := (x3 + (x3 >>> 64)).setWidth 64
  let x : BitVec 32 := (x2 + (x2 >>> 32)).setWidth 32
  let x := x + (x >>> 16)
  (x + (x >>> 8)) &&& 0xFF

def paritysi2 (a : BitVec 32) : BitVec 32 :=
  let x := a
  let x := x ^^^ x >>> 16
  let x := x ^^^ x >>> 8
  let x := x ^^^ x >>> 4
  ((0x6996 : BitVec 32) >>> (x &&& 0xF)) &&& 1

/-- The two words of `a`. -/
def paritydi2 (a : BitVec 64) : BitVec 32 :=
  let high : BitVec 32 := a.extractLsb' 32 32
  let low : BitVec 32 := a.extractLsb' 0 32
  paritysi2 (high ^^^ low)

/-! ## The bytes of a word -/

section Bytes
variable {w n k : ℕ} {x m : BitVec w} {f : ℕ → ℕ}

/-- The word has these bytes. -/
def Bytes (x : BitVec w) (n : ℕ) (f : ℕ → ℕ) : Prop := x.toNat = value 8 n f ∧ f n = 0 ∧ ∀ i, f i < 256

theorem bytes_self (hw : w = 8 * n) (x : BitVec w) : Bytes x n fun i => x.toNat / 2^(8 * i) % 256 := by
  have hlt : x.toNat < 2^(8 * n) := hw ▸ x.isLt
  refine ⟨?_,?_,fun i => Nat.mod_lt _ (by decide)⟩
  · exact ((value_digits 8 n x.toNat).trans (Nat.mod_eq_of_lt hlt)).symm
  · dsimp only
    rw [Nat.div_eq_of_lt hlt]

/-- A shift and a mask of all bytes. -/
theorem Bytes.shift_mask {b : ℕ} (h : Bytes x n f) (hk : k ≤ 8) (hm : m.toNat = value 8 n fun _ => b) (hb : b < 256) :
    (x >>> k &&& m).toNat = value 8 n fun i => (f i / 2^k + f (i + 1) % 2^k * 2^(8 - k)) &&& b := by
  obtain ⟨hx,hn,hf⟩ := h
  have hbyte : ∀ i, f i / 2^k + f (i + 1) % 2^k * 2^(8 - k) < 2^8 := by
    intro i
    have hpow : 2^(8 - k) * 2^k = 2^8 := by rw [← Nat.pow_add, Nat.sub_add_cancel hk]
    have hdiv : f i / 2^k < 2^(8 - k) := Nat.div_lt_of_lt_mul (by rw [Nat.mul_comm, hpow]; exact hf i)
    have hmod : f (i + 1) % 2^k + 1 ≤ 2^k := Nat.mod_lt _ (Nat.two_pow_pos k)
    calc f i / 2^k + f (i + 1) % 2^k * 2^(8 - k) < 2^(8 - k) + f (i + 1) % 2^k * 2^(8 - k) := Nat.add_lt_add_right hdiv _
      _ = (f (i + 1) % 2^k + 1) * 2^(8 - k) := by ring
      _ ≤ 2^k * 2^(8 - k) := Nat.mul_le_mul_right _ hmod
      _ = 2^8 := by rw [Nat.mul_comm, hpow]
  rw [BitVec.toNat_and, BitVec.toNat_ushiftRight, Nat.shiftRight_eq_div_pow, hx, hm, value_shift hk hn,
    value_land (fun i _ => hbyte i) fun i _ => hb]

theorem Bytes.mask {b : ℕ} (h : Bytes x n f) (hm : m.toNat = value 8 n fun _ => b) (hb : b < 256) :
    (x &&& m).toNat = value 8 n fun i => f i &&& b := by
  rw [BitVec.toNat_and, h.1, hm, value_land (fun i _ => h.2.2 i) fun i _ => hb]

/-- Every two bits hold the sum of their bits. -/
def pairs (l : ℕ) : ℕ := l - (l / 2 &&& 0x55)

/-- Every four bits hold the sum of their bits. -/
def nibbles (l : ℕ) : ℕ := (l / 4 &&& 0x33) + (l &&& 0x33)

theorem byte_bounds : ∀ l < 256, (l / 2 &&& 0x55) ≤ l ∧ (∀ b < 2, (l / 2 + b * 128) &&& 0x55 = l / 2 &&& 0x55) ∧
    (∀ b < 4, (l / 4 + b * 64) &&& 0x33 = l / 4 &&& 0x33) ∧ nibbles l < 256 := by decide +kernel

theorem nibbles_pairs : ∀ l < 256, nibbles (pairs l) % 16 ≤ 4 ∧ nibbles (pairs l) / 16 ≤ 4 ∧
    nibbles (pairs l) % 16 + nibbles (pairs l) / 16 = ones 8 l := by decide +kernel

/-- The three steps that leave the number of ones of each byte. -/
def sums (m1 m2 m4 x : BitVec w) : BitVec w :=
  let x := x - ((x >>> 1) &&& m1)
  let x := ((x >>> 2) &&& m2) + (x &&& m2)
  (x + (x >>> 4)) &&& m4

variable {m1 m2 m4 : BitVec w}

theorem Bytes.pairs (h : Bytes x n f) (hm : m1.toNat = value 8 n fun _ => 0x55) :
    Bytes (x - ((x >>> 1) &&& m1)) n fun i => pairs (f i) := by
  have hand : (x >>> 1 &&& m1).toNat = value 8 n fun i => f i / 2 &&& 0x55 := by
    rw [h.shift_mask (by decide) hm (by decide)]
    exact value_congr fun i _ => (byte_bounds (f i) (h.2.2 i)).2.1 _ (Nat.mod_lt _ (by decide))
  have hle : (x >>> 1 &&& m1).toNat ≤ x.toNat := by
    rw [hand, h.1]
    exact value_mono fun i _ => (byte_bounds (f i) (h.2.2 i)).1
  refine ⟨?_,?_,fun i => Nat.lt_of_le_of_lt (Nat.sub_le _ _) (h.2.2 i)⟩
  · rw [BitVec.toNat_sub_of_le (BitVec.le_def.mpr hle), hand, h.1,
      value_sub fun i _ => (byte_bounds (f i) (h.2.2 i)).1]
    rfl
  · dsimp only
    rw [h.2.1]
    rfl

theorem Bytes.nibbles (hw : w = 8 * n) (h : Bytes x n f) (hm : m2.toNat = value 8 n fun _ => 0x33) :
    Bytes (((x >>> 2) &&& m2) + (x &&& m2)) n fun i => nibbles (f i) := by
  have hand : (x >>> 2 &&& m2).toNat = value 8 n fun i => f i / 4 &&& 0x33 := by
    rw [h.shift_mask (by decide) hm (by decide)]
    exact value_congr fun i _ => (byte_bounds (f i) (h.2.2 i)).2.2.1 _ (Nat.mod_lt _ (by decide))
  have hlt : ∀ i, CountOnes.nibbles (f i) < 256 := fun i => (byte_bounds (f i) (h.2.2 i)).2.2.2
  refine ⟨?_,?_,hlt⟩
  · have hsum := value_lt (w := 8) (n := n) fun i _ => hlt i
    rw [← hw] at hsum
    rw [BitVec.toNat_add, hand, h.mask hm (by decide), value_add]
    exact Nat.mod_eq_of_lt hsum
  · dsimp only
    rw [h.2.1]
    rfl

/-- The fields of four bits are wide enough for the sum of two. -/
theorem Bytes.add_nibbles (hw : w = 8 * n) (h : Bytes x n f) (hf : ∀ i, f i % 16 ≤ 4 ∧ f i / 16 ≤ 4)
    (hm : m4.toNat = value 8 n fun _ => 0x0F) : Bytes ((x + (x >>> 4)) &&& m4) n fun i => f i % 16 + f i / 16 := by
  obtain ⟨hx,hn,-⟩ := h
  have hlt : ∀ i, f i + (f i / 2^4 + f (i + 1) % 2^4 * 2^(8 - 4)) < 256 := by
    intro i
    have hthis := hf i
    have hnext := hf (i + 1)
    omega
  have hsum : (x + x >>> 4).toNat = value 8 n fun i => f i + (f i / 2^4 + f (i + 1) % 2^4 * 2^(8 - 4)) := by
    have hbound := value_lt (w := 8) (n := n) fun i _ => hlt i
    rw [← hw] at hbound
    rw [BitVec.toNat_add, BitVec.toNat_ushiftRight, Nat.shiftRight_eq_div_pow, hx, value_shift (by decide) hn, value_add]
    exact Nat.mod_eq_of_lt hbound
  refine ⟨?_,?_,fun i => ?_⟩
  · rw [BitVec.toNat_and, hsum, hm, value_land (fun i _ => hlt i) fun _ _ => by decide]
    refine value_congr fun i _ => (Nat.and_two_pow_sub_one_eq_mod _ 4).trans ?_
    have hthis := hf i
    omega
  · dsimp only
    rw [hn]
  · have hthis := hf i
    dsimp only
    omega

/-- Each byte holds the number of its ones. -/
theorem bytes_sums (m1 m2 m4 : BitVec w) (hw : w = 8 * n) (h : Bytes x n f) (h1 : m1.toNat = value 8 n fun _ => 0x55)
    (h2 : m2.toNat = value 8 n fun _ => 0x33) (h4 : m4.toNat = value 8 n fun _ => 0x0F) :
    Bytes (sums m1 m2 m4 x) n fun i => ones 8 (f i) := by
  have hspec : ∀ i, _ := fun i => nibbles_pairs (f i) (h.2.2 i)
  have hlast := ((h.pairs h1).nibbles hw h2).add_nibbles hw (fun i => ⟨(hspec i).1,(hspec i).2.1⟩) h4
  have hones : (fun i => CountOnes.nibbles (CountOnes.pairs (f i)) % 16 + CountOnes.nibbles (CountOnes.pairs (f i)) / 16) =
      fun i => ones 8 (f i) := funext fun i => (hspec i).2.2
  rw [hones] at hlast
  exact hlast

end Bytes

/-! ## The bytes are added up -/

theorem ones_le (n x : ℕ) : ones n x ≤ n := by
  induction n with
  | zero => exact Nat.le_refl 0
  | succ n ih =>
    have hbit := (x.testBit n).toNat_le
    rw [ones_succ]
    omega

/-- The halves are added, and then the lower bytes; what is above them is not cleared. -/
def fold (x2 : BitVec 64) : BitVec 32 :=
  let x := (x2 + (x2 >>> 32)).setWidth 32
  let x := x + (x >>> 16)
  x + (x >>> 8)

theorem toNat_add_shift {w : ℕ} (x : BitVec w) {k lo hi : ℕ} (hx : x.toNat = lo + 2^k * hi) (hlo : lo < 2^k) :
    (x + x >>> k).toNat = (lo + hi + 2^k * hi) % 2^w := by
  have hdiv : x.toNat / 2^k = hi := by
    rw [hx, Nat.add_mul_div_left _ _ (Nat.two_pow_pos k), Nat.div_eq_of_lt hlo, Nat.zero_add]
  rw [BitVec.toNat_add, BitVec.toNat_ushiftRight, Nat.shiftRight_eq_div_pow, hdiv, hx]
  congr 1
  omega

theorem fold_spec {x2 : BitVec 64} {s : ℕ → ℕ} (hx : x2.toNat = value 8 8 s) (hs : ∀ i, s i ≤ 16) :
    (fold x2).toNat % 256 = ((List.range 8).map s).sum := by
  have hwords : value 8 8 s = value 8 4 s + 2^32 * value 8 4 fun i => s (i + 4) := by
    simp only [value, Nat.reduceAdd]
    ring
  have hbytes : ∀ g : ℕ → ℕ, value 8 4 g = g 0 + 2^8 * g 1 + 2^16 * (g 2 + 2^8 * g 3) := by
    intro g
    simp only [value, Nat.reduceAdd]
    ring
  have hsum : ((List.range 8).map s).sum = s 0 + s 4 + (s 2 + s 6) + (s 1 + s 5 + (s 3 + s 7)) := by
    simp [List.range_succ]
    omega
  have hhalf : ∀ i, s i + s (i + 4) ≤ 32 := fun i => Nat.add_le_add (hs i) (hs (i + 4))
  have hlow : value 8 4 s < 2^32 := value_lt (w := 8) (n := 4) fun i _ => Nat.lt_of_le_of_lt (hs i) (by decide)
  have hboth : value 8 4 s + (value 8 4 fun i => s (i + 4)) < 2^32 := by
    rw [value_add]
    exact value_lt (w := 8) (n := 4) fun i _ => Nat.lt_of_le_of_lt (hhalf i) (by decide)
  have hfirst : ((x2 + x2 >>> 32).setWidth 32).toNat = value 8 4 s + value 8 4 fun i => s (i + 4) := by
    rw [BitVec.toNat_setWidth, toNat_add_shift x2 (hx.trans hwords) hlow, Nat.mod_mod_of_dvd _ (by decide),
      Nat.add_mul_mod_self_left, Nat.mod_eq_of_lt hboth]
  rw [value_add, hbytes] at hfirst
  have h0 := hhalf 0
  have h1 := hhalf 1
  have h2 := hhalf 2
  have h3 := hhalf 3
  simp only [Nat.reduceAdd, Nat.zero_add] at hfirst h0 h1 h2 h3
  rw [hsum, fold]
  generalize (x2 + x2 >>> 32).setWidth 32 = x at hfirst ⊢
  generalize s 0 + s 4 = t0 at *
  generalize s 1 + s 5 = t1 at *
  generalize s 2 + s 6 = t2 at *
  generalize s 3 + s 7 = t3 at *
  have hsecond : (x + x >>> 16).toNat = t0 + t2 + 2^8 * (t1 + t3 + 2^8 * (t2 + 2^8 * t3)) := by
    rw [toNat_add_shift x hfirst (by omega), Nat.mod_eq_of_lt (by omega)]
    omega
  rw [toNat_add_shift _ hsecond (by omega), Nat.mod_mod_of_dvd _ (by decide)]
  omega

theorem popcountdi2_eq (a : BitVec 64) : (popcountdi2 a).toNat = a.cpop.toNat := by
  have hself := bytes_self (n := 8) rfl a
  obtain ⟨hsums,-,-⟩ := bytes_sums (n := 8) 0x5555555555555555 0x3333333333333333 0x0F0F0F0F0F0F0F0F
    rfl hself (by decide) (by decide) (by decide)
  have hfold := fold_spec hsums fun i => (ones_le 8 _).trans (by decide)
  have hones := ones_value (w := 8) (n := 8) fun i _ => hself.2.2 i
  rw [← hself.1, ← ones_eq_cpop] at hones
  have hle := ones_le 64 a.toNat
  rw [← ones_eq_cpop] at hle
  rw [← hones] at hfold
  have hlast : popcountdi2 a =
      fold (sums 0x5555555555555555 0x3333333333333333 0x0F0F0F0F0F0F0F0F a) &&& 0x0000007F := rfl
  rw [hlast, BitVec.toNat_and]
  refine (Nat.and_two_pow_sub_one_eq_mod _ 7).trans ?_
  omega

theorem popcountti2_eq (a : BitVec 128) : (popcountti2 a).toNat = a.cpop.toNat := by
  have hself := bytes_self (n := 16) rfl a
  obtain ⟨hsums,-,-⟩ := bytes_sums (n := 16) (twice 0x5555555555555555) (twice 0x3333333333333333)
    (twice 0x0F0F0F0F0F0F0F0F) rfl hself (by decide) (by decide) (by decide)
  have hones := ones_value (w := 8) (n := 16) fun i _ => hself.2.2 i
  rw [← hself.1, ← ones_eq_cpop] at hones
  generalize hy : sums (twice 0x5555555555555555) (twice 0x3333333333333333) (twice 0x0F0F0F0F0F0F0F0F) a = y at hsums
  have hle : ∀ i, ones 8 (a.toNat / 2^(8 * i) % 256) ≤ 8 := fun i => ones_le 8 _
  generalize hf : (fun i => ones 8 (a.toNat / 2^(8 * i) % 256)) = f at hsums hones
  have hf8 : ∀ i, f i ≤ 8 := fun i => hf ▸ hle i
  -- the upper eight bytes are added to the lower ones
  have hhalves : ((y + (y >>> 64)).setWidth 64).toNat = value 8 8 fun i => f i + f (i + 8) := by
    have hsplit : value 8 16 f = value 8 8 f + 2^64 * value 8 8 fun i => f (i + 8) := by
      simp only [value, Nat.reduceAdd]
      ring
    have hbound : ∀ g : ℕ → ℕ, (∀ i, g i ≤ 16) → value 8 8 g < 2^64 := fun g hg =>
      value_lt (w := 8) (n := 8) fun i _ => Nat.lt_of_le_of_lt (hg i) (by decide)
    have hlow := hbound f fun i => (hf8 i).trans (by decide)
    have hsum := hbound (fun i => f i + f (i + 8)) fun i => Nat.add_le_add (hf8 i) (hf8 (i + 8))
    rw [← value_add] at hsum ⊢
    rw [BitVec.toNat_setWidth, BitVec.toNat_add, BitVec.toNat_ushiftRight, Nat.shiftRight_eq_div_pow, hsums, hsplit]
    omega
  have hfold := fold_spec hhalves fun i => Nat.add_le_add (hf8 i) (hf8 (i + 8))
  have hsum : ((List.range 16).map f).sum = ((List.range 8).map fun i => f i + f (i + 8)).sum := by
    have hrange : List.range 16 = List.range 8 ++ (List.range 8).map fun i => i + 8 := rfl
    rw [hrange, List.map_append, List.sum_append, List.map_map, List.sum_map_add]
    rfl
  rw [hsum, ← hfold] at hones
  have hlast : popcountti2 a = fold ((y + (y >>> 64)).setWidth 64) &&& 0xFF := by
    rw [← hy]
    rfl
  rw [hlast, BitVec.toNat_and]
  exact (Nat.and_two_pow_sub_one_eq_mod _ 8).trans hones.symm

/-! ## Parity -/

theorem paritysi2_eq (x : BitVec 32) : (paritysi2 x).toNat = ones 32 x.toNat % 2 := by
  have hfold : ∀ (k : ℕ) (y : BitVec 32), ones k (y ^^^ y >>> k).toNat % 2 = ones (k + k) y.toNat % 2 := by
    intro k y
    rw [BitVec.toNat_xor, BitVec.toNat_ushiftRight, Nat.shiftRight_eq_div_pow, ones_fold]
  have htable : ∀ l < 16, ((0x6996 : BitVec 32) >>> (BitVec.ofNat 32 l) &&& 1).toNat = ones 4 l % 2 := by decide
  rw [paritysi2, ← hfold 16 x]
  generalize x ^^^ x >>> 16 = x
  rw [← hfold 8 x]
  generalize x ^^^ x >>> 8 = x
  rw [← hfold 4 x]
  generalize x ^^^ x >>> 4 = x
  have hlow : x &&& 0xF = BitVec.ofNat 32 (x.toNat % 2^4) := by
    apply BitVec.eq_of_toNat_eq
    rw [BitVec.toNat_ofNat, Nat.mod_eq_of_lt (Nat.lt_of_lt_of_le (Nat.mod_lt _ (by decide)) (by decide)),
      BitVec.toNat_and]
    exact Nat.and_two_pow_sub_one_eq_mod _ 4
  rw [hlow, htable (x.toNat % 2^4) (Nat.mod_lt _ (by decide)), ones_mod]

theorem paritydi2_eq (a : BitVec 64) : (paritydi2 a).toNat = a.cpop.toNat % 2 := by
  have hwords : ((a.extractLsb' 32 32 ^^^ a.extractLsb' 0 32 : BitVec 32)).toNat =
      (a.toNat ^^^ a.toNat / 2^32) % 2^32 := by
    rw [BitVec.toNat_xor, BitVec.extractLsb'_toNat, BitVec.extractLsb'_toNat, Nat.shiftRight_eq_div_pow,
      Nat.shiftRight_zero, Nat.xor_comm, Nat.xor_mod_two_pow]
  rw [paritydi2, paritysi2_eq, hwords, ones_mod, ones_fold, ones_eq_cpop]

/-- The number of ones, and its parity. -/
theorem counts_ones (a : BitVec 64) (b : BitVec 128) : (popcountdi2 a).toNat = a.cpop.toNat ∧
    (popcountti2 b).toNat = b.cpop.toNat ∧ (paritydi2 a).toNat = a.cpop.toNat % 2 :=
  ⟨popcountdi2_eq a,popcountti2_eq b,paritydi2_eq a⟩

end CompilerRt.CountOnes
