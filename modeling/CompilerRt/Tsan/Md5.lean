import CompilerRt.Lib.BlockFold
import CompilerRt.Lib.ByteOrder
import CompilerRt.Lib.Program

/-! # The hash of a stack

Two racy stacks are told from those that were reported before by the MD5 hash of their frames. The hash is computed in
pieces: what does not fill a block yet is kept in the context.
-/
namespace CompilerRt.Tsan.Md5
open ByteOrder Store BlockFold

abbrev Word := BitVec 32

def F (x y z : Word) : Word := z ^^^ (x &&& (y ^^^ z))
def G (x y z : Word) : Word := y ^^^ (z &&& (x ^^^ y))
def H (x y z : Word) : Word := x ^^^ y ^^^ z
def I (x y z : Word) : Word := y ^^^ (x ||| ~~~z)

def STEP (f : Word → Word → Word → Word) (a b c d x t : Word) (s : ℕ) : Word :=
  let a := a + (f b c d + x + t)
  let a := (a <<< s) ||| ((a &&& 0xffffffff) >>> (32 - s))
  a + b

structure Digest where
  a : Word
  b : Word
  c : Word
  d : Word
  deriving DecidableEq

/-- What the loop of `body` does with the block at `ptr`. -/
def block (saved : Digest) (ptr : List Byte) : Digest :=
  let GET := fun n => BitVec.ofNat 32 (leNat ((ptr.drop (n * 4)).take 4))
  let a := saved.a
  let b := saved.b
  let c := saved.c
  let d := saved.d
  let a := STEP F a b c d (GET 0) 0xd76aa478 7
  let d := STEP F d a b c (GET 1) 0xe8c7b756 12
  let c := STEP F c d a b (GET 2) 0x242070db 17
  let b := STEP F b c d a (GET 3) 0xc1bdceee 22
  let a := STEP F a b c d (GET 4) 0xf57c0faf 7
  let d := STEP F d a b c (GET 5) 0x4787c62a 12
  let c := STEP F c d a b (GET 6) 0xa8304613 17
  let b := STEP F b c d a (GET 7) 0xfd469501 22
  let a := STEP F a b c d (GET 8) 0x698098d8 7
  let d := STEP F d a b c (GET 9) 0x8b44f7af 12
  let c := STEP F c d a b (GET 10) 0xffff5bb1 17
  let b := STEP F b c d a (GET 11) 0x895cd7be 22
  let a := STEP F a b c d (GET 12) 0x6b901122 7
  let d := STEP F d a b c (GET 13) 0xfd987193 12
  let c := STEP F c d a b (GET 14) 0xa679438e 17
  let b := STEP F b c d a (GET 15) 0x49b40821 22
  let a := STEP G a b c d (GET 1) 0xf61e2562 5
  let d := STEP G d a b c (GET 6) 0xc040b340 9
  let c := STEP G c d a b (GET 11) 0x265e5a51 14
  let b := STEP G b c d a (GET 0) 0xe9b6c7aa 20
  let a := STEP G a b c d (GET 5) 0xd62f105d 5
  let d := STEP G d a b c (GET 10) 0x02441453 9
  let c := STEP G c d a b (GET 15) 0xd8a1e681 14
  let b := STEP G b c d a (GET 4) 0xe7d3fbc8 20
  let a := STEP G a b c d (GET 9) 0x21e1cde6 5
  let d := STEP G d a b c (GET 14) 0xc33707d6 9
  let c := STEP G c d a b (GET 3) 0xf4d50d87 14
  let b := STEP G b c d a (GET 8) 0x455a14ed 20
  let a := STEP G a b c d (GET 13) 0xa9e3e905 5
  let d := STEP G d a b c (GET 2) 0xfcefa3f8 9
  let c := STEP G c d a b (GET 7) 0x676f02d9 14
  let b := STEP G b c d a (GET 12) 0x8d2a4c8a 20
  let a := STEP H a b c d (GET 5) 0xfffa3942 4
  let d := STEP H d a b c (GET 8) 0x8771f681 11
  let c := STEP H c d a b (GET 11) 0x6d9d6122 16
  let b := STEP H b c d a (GET 14) 0xfde5380c 23
  let a := STEP H a b c d (GET 1) 0xa4beea44 4
  let d := STEP H d a b c (GET 4) 0x4bdecfa9 11
  let c := STEP H c d a b (GET 7) 0xf6bb4b60 16
  let b := STEP H b c d a (GET 10) 0xbebfbc70 23
  let a := STEP H a b c d (GET 13) 0x289b7ec6 4
  let d := STEP H d a b c (GET 0) 0xeaa127fa 11
  let c := STEP H c d a b (GET 3) 0xd4ef3085 16
  let b := STEP H b c d a (GET 6) 0x04881d05 23
  let a := STEP H a b c d (GET 9) 0xd9d4d039 4
  let d := STEP H d a b c (GET 12) 0xe6db99e5 11
  let c := STEP H c d a b (GET 15) 0x1fa27cf8 16
  let b := STEP H b c d a (GET 2) 0xc4ac5665 23
  let a := STEP I a b c d (GET 0) 0xf4292244 6
  let d := STEP I d a b c (GET 7) 0x432aff97 10
  let c := STEP I c d a b (GET 14) 0xab9423a7 15
  let b := STEP I b c d a (GET 5) 0xfc93a039 21
  let a := STEP I a b c d (GET 12) 0x655b59c3 6
  let d := STEP I d a b c (GET 3) 0x8f0ccc92 10
  let c := STEP I c d a b (GET 10) 0xffeff47d 15
  let b := STEP I b c d a (GET 1) 0x85845dd1 21
  let a := STEP I a b c d (GET 8) 0x6fa87e4f 6
  let d := STEP I d a b c (GET 15) 0xfe2ce6e0 10
  let c := STEP I c d a b (GET 6) 0xa3014314 15
  let b := STEP I b c d a (GET 13) 0x4e0811a1 21
  let a := STEP I a b c d (GET 4) 0xf7537e82 6
  let d := STEP I d a b c (GET 11) 0xbd3af235 10
  let c := STEP I c d a b (GET 2) 0x2ad7d2bb 15
  let b := STEP I b c d a (GET 9) 0xeb86d391 21
  ⟨a + saved.a,b + saved.b,c + saved.c,d + saved.d⟩

structure MD5_CTX where
  /-- the number of bytes modulo 2^29, and the rest of it -/
  lo : ℕ
  hi : ℕ
  digest : Digest
  buffer : ℕ → Byte

/-- The size is a multiple of 64. -/
def body (ctx : MD5_CTX) (data : List Byte) (size : ℕ) : MD5_CTX :=
  { ctx with digest := blocks 64 block (size / 64) ctx.digest data }

def initial : Digest := ⟨0x67452301,0xefcdab89,0x98badcfe,0x10325476⟩

/-- The buffer is not initialized. -/
def MD5_Init (buffer : ℕ → Byte) : MD5_CTX := ⟨0,0,initial,buffer⟩

def memcpy (ctx : MD5_CTX) (used : ℕ) (data : List Byte) : MD5_CTX :=
  { ctx with buffer := writeBytes ctx.buffer used data }

def memset (ctx : MD5_CTX) (used : ℕ) (c : Byte) (size : ℕ) : MD5_CTX := memcpy ctx used (List.replicate size c)

/-- `body` with what the buffer holds. -/
def bodyBuffer (ctx : MD5_CTX) : MD5_CTX := body ctx (readBytes ctx.buffer 0 64) 64

/-- The bytes behind the buffered ones: whole blocks, and then what goes into the buffer. -/
def updateBlocks (ctx : MD5_CTX) (data : List Byte) : MD5_CTX :=
  let size := data.length
  if 64 ≤ size then
    let whole := size / 64 * 64
    memcpy (body ctx data whole) 0 (data.drop whole)
  else memcpy ctx 0 data

def MD5_Update (ctx : MD5_CTX) (data : List Byte) : MD5_CTX :=
  let size := data.length
  let saved_lo := ctx.lo
  let lo := (saved_lo + size) % 2^29
  let hi := if lo < saved_lo then (ctx.hi + 1) % 2^32 else ctx.hi
  let ctx := { ctx with lo := lo, hi := (hi + size / 2^29) % 2^32 }
  let used := saved_lo % 64
  if used ≠ 0 then
    let free := 64 - used
    if size < free then memcpy ctx used data
    else updateBlocks (bodyBuffer (memcpy ctx used (data.take free))) (data.drop free)
  else updateBlocks ctx data

/-- The bytes of the digest. -/
def Digest.bytes (r : Digest) : List Byte :=
  leBytes 4 r.a.toNat ++ leBytes 4 r.b.toNat ++ leBytes 4 r.c.toNat ++ leBytes 4 r.d.toNat

/-- The bytes of the result; the context is cleared after it. -/
def MD5_Final (ctx : MD5_CTX) : List Byte :=
  let used := ctx.lo % 64
  let ctx := memcpy ctx used [0x80]
  let used := used + 1
  let free := 64 - used
  let (ctx,used,free) := if free < 8 then (bodyBuffer (memset ctx used 0 free),0,64) else (ctx,used,free)
  let ctx := memset ctx used 0 (free - 8)
  let lo := ctx.lo * 2^3 % 2^32
  let ctx := memcpy (memcpy ctx 56 (leBytes 4 lo)) 60 (leBytes 4 ctx.hi)
  (bodyBuffer ctx).digest.bytes

def md5_hash (buffer : ℕ → Byte) (data : List Byte) : List Byte := MD5_Final (MD5_Update (MD5_Init buffer) data)

example : md5_hash (fun _ => 7) [] = [0xd4,0x1d,0x8c,0xd9,0x8f,0x00,0xb2,0x04,0xe9,0x80,0x09,0x98,0xec,0xf8,0x42,0x7e] := by
  decide +kernel

/-! ## The hash of a message -/

/-- A one, then zeros up to 8 bytes before the end of a block, and the number of bits. -/
def padding (length : ℕ) : List Byte :=
  0x80 :: (List.replicate ((119 - length % 64) % 64) 0 ++ leBytes 8 (8 * length % 2^64))

def hash (msg : List Byte) : Digest := whole 64 block initial (msg ++ padding msg.length)

/-! ## What the context knows of the message -/

/-- The blocks that are whole were taken, and the rest is in the buffer. -/
structure Holds (ctx : MD5_CTX) (msg : List Byte) : Prop where
  digest : ctx.digest = whole 64 block initial msg
  buffer : readBytes ctx.buffer 0 (msg.length % 64) = rest 64 msg

structure Counts (ctx : MD5_CTX) (n : ℕ) : Prop where
  lo : ctx.lo = n % 2^29
  hi : ctx.hi = n / 2^29 % 2^32

section Pieces
variable {ctx : MD5_CTX} {msg data : List Byte} {n : ℕ}

theorem readBytes_memcpy (ctx : MD5_CTX) (used : ℕ) (data : List Byte) :
    readBytes (memcpy ctx used data).buffer 0 (used + data.length) = readBytes ctx.buffer 0 used ++ data := by
  have h := readBytes_writeBytes_append ctx.buffer 0 used data
  rwa [Nat.zero_add] at h

/-- Behind whole blocks the pieces go straight into the digest. -/
theorem updateBlocks_holds (hd : ctx.digest = whole 64 block initial msg) (hdvd : 64 ∣ msg.length) :
    Holds (updateBlocks ctx data) (msg ++ data) := by
  have hrest : rest 64 msg = [] := rest_of_dvd hdvd
  have hmod : (msg ++ data).length % 64 = data.length % 64 := by
    rw [List.length_append]
    omega
  have hbuffer : ∀ (ctx' : MD5_CTX) (l : List Byte), l.length = data.length % 64 →
      readBytes (memcpy ctx' 0 l).buffer 0 (data.length % 64) = l := by
    intro ctx' l hl
    have h := readBytes_memcpy ctx' 0 l
    have hnil : readBytes ctx'.buffer 0 0 = [] := rfl
    rwa [Nat.zero_add, hl, hnil, List.nil_append] at h
  refine ⟨?_,?_⟩
  · rw [whole_append (by decide), hrest, List.nil_append, ← hd, updateBlocks]
    dsimp only
    split_ifs with hlt
    · rw [memcpy, body, Nat.mul_div_cancel _ (by decide)]
      rfl
    · rw [whole_of_lt (by omega)]
      rfl
  · rw [hmod, rest_append (by decide), hrest, List.nil_append, updateBlocks]
    dsimp only
    split_ifs with hlt
    · exact hbuffer _ _ (by rw [← length_rest]; rfl)
    · rw [rest_of_lt (by omega)]
      exact hbuffer _ _ (Nat.mod_eq_of_lt (by omega)).symm

/-- A block that is full in the buffer. -/
theorem bodyBuffer_digest (hctx : Holds ctx msg) {l : List Byte} (hlen : msg.length % 64 + l.length = 64)
    {ctx' : MD5_CTX} (hd : ctx'.digest = ctx.digest) (hbuf : readBytes ctx'.buffer 0 64 = rest 64 msg ++ l) :
    (bodyBuffer ctx').digest = whole 64 block initial (msg ++ l) := by
  have hone : (rest 64 msg ++ l).length = 64 := by rw [List.length_append, length_rest, hlen]
  rw [whole_append (by decide), ← hctx.digest, whole_of_length_eq (by decide) hone, bodyBuffer, body, hbuf, hd]
  rw [Nat.div_self (by decide), blocks, blocks, List.take_of_length_le hone.le]

theorem updateBlocks_same (ctx : MD5_CTX) (data : List Byte) :
    (updateBlocks ctx data).lo = ctx.lo ∧ (updateBlocks ctx data).hi = ctx.hi := by
  rw [updateBlocks]
  dsimp only
  split_ifs
  · exact ⟨rfl,rfl⟩
  · exact ⟨rfl,rfl⟩

/-- The carry of the low word is noticed because the sum is smaller than before. -/
theorem update_counts (hc : Counts ctx n) : Counts (MD5_Update ctx data) (n + data.length) := by
  have hlo := hc.lo
  have hhi := hc.hi
  norm_num at hlo hhi
  rw [MD5_Update]
  dsimp only
  split_ifs with hcarry hused hfree hused hfree
  all_goals
    constructor
    · try rw [(updateBlocks_same _ _).1]
      simp only [memcpy, bodyBuffer, body]
      norm_num
      omega
    · try rw [(updateBlocks_same _ _).2]
      simp only [memcpy, bodyBuffer, body]
      norm_num at hcarry ⊢
      omega

theorem update_holds (hctx : Holds ctx msg) (hc : Counts ctx msg.length) : Holds (MD5_Update ctx data) (msg ++ data) := by
  have hused : ctx.lo % 64 = msg.length % 64 := by
    rw [hc.lo]
    norm_num
  rw [MD5_Update]
  dsimp only
  rw [hused]
  generalize hctx' : ({ ctx with
    lo := (ctx.lo + data.length) % 2^29
    hi := ((if (ctx.lo + data.length) % 2^29 < ctx.lo then (ctx.hi + 1) % 2^32 else ctx.hi) + data.length / 2^29) % 2^32 } :
      MD5_CTX) = ctx'
  have hd : ctx'.digest = ctx.digest := by rw [← hctx']
  have hb : ctx'.buffer = ctx.buffer := by rw [← hctx']
  have hold : readBytes ctx'.buffer 0 (msg.length % 64) = rest 64 msg := by rw [hb, hctx.buffer]
  split_ifs with hne hfree
  · -- everything fits into the buffer
    have hlen : (rest 64 msg ++ data).length < 64 := by
      rw [List.length_append, length_rest]
      omega
    refine ⟨?_,?_⟩
    · rw [whole_append (by decide), whole_of_lt hlen, ← hctx.digest, ← hd]
      rfl
    · have hmod : (msg ++ data).length % 64 = msg.length % 64 + data.length := by
        rw [List.length_append]
        omega
      rw [hmod, readBytes_memcpy, hold, rest_append (by decide), rest_of_lt hlen]
  · -- the buffer is filled up first
    have hlen : msg.length % 64 + (data.take (64 - msg.length % 64)).length = 64 := by
      rw [List.length_take]
      omega
    have hsame : (memcpy ctx' (msg.length % 64) (data.take (64 - msg.length % 64))).digest = ctx.digest := hd
    have hbuf : readBytes (memcpy ctx' (msg.length % 64) (data.take (64 - msg.length % 64))).buffer 0 64
        = rest 64 msg ++ data.take (64 - msg.length % 64) := by
      rw [← hold, ← readBytes_memcpy, hlen]
    have hfull := bodyBuffer_digest hctx hlen hsame hbuf
    have hdvd : 64 ∣ (msg ++ data.take (64 - msg.length % 64)).length := by
      rw [List.length_append]
      omega
    have hnext : Holds (updateBlocks _ (data.drop (64 - msg.length % 64))) _ := updateBlocks_holds hfull hdvd
    rwa [List.append_assoc, List.take_append_drop] at hnext
  · -- nothing waits in the buffer
    rw [not_not] at hne
    exact updateBlocks_holds (hd.trans hctx.digest) (Nat.dvd_of_mod_eq_zero hne)

theorem init_holds (buffer : ℕ → Byte) : Holds (MD5_Init buffer) [] := ⟨rfl,rfl⟩

theorem init_counts (buffer : ℕ → Byte) : Counts (MD5_Init buffer) 0 := ⟨rfl,rfl⟩

/-- However the message is cut, the context knows the same of it. -/
theorem foldl_update (chunks : List (List Byte)) (hctx : Holds ctx msg) (hc : Counts ctx msg.length) :
    Holds (chunks.foldl MD5_Update ctx) (msg ++ chunks.flatten) ∧
      Counts (chunks.foldl MD5_Update ctx) (msg ++ chunks.flatten).length := by
  induction chunks generalizing ctx msg with
  | nil => simpa using ⟨hctx,hc⟩
  | cons data chunks ih =>
    rw [List.foldl_cons, List.flatten_cons, ← List.append_assoc]
    refine ih (update_holds hctx hc) ?_
    rw [List.length_append]
    exact update_counts hc

/-- The number of bits, from the two words that count the bytes. -/
theorem leBytes_bits (hc : Counts ctx n) :
    leBytes 8 (8 * n % 2^64) = leBytes 4 (ctx.lo * 2^3 % 2^32) ++ leBytes 4 ctx.hi := by
  have hmod : leBytes 8 (8 * n % 2^64) = leBytes 8 (8 * n) := leBytes_mod 8 (8 * n)
  have hlo : leBytes 4 (ctx.lo * 2^3 % 2^32) = leBytes 4 (8 * n) := by
    rw [← leBytes_mod 4 (8 * n), hc.lo]
    congr 1
    norm_num
    omega
  have hhi : leBytes 4 ctx.hi = leBytes 4 (8 * n / 256^4) := by
    rw [← leBytes_mod 4 (8 * n / 256^4), hc.hi]
    congr 1
    norm_num
    omega
  rw [hmod, hlo, hhi]
  exact leBytes_add 4 4 (8 * n)

/-- The last block: what is in front of the number of bits, and the number. -/
theorem lastBlock (ctx : MD5_CTX) {l : List Byte} {lo hi : ℕ} (hl : readBytes ctx.buffer 0 56 = l) :
    readBytes (memcpy (memcpy ctx 56 (leBytes 4 lo)) 60 (leBytes 4 hi)).buffer 0 64 = l ++ (leBytes 4 lo ++ leBytes 4 hi) := by
  have hhi := readBytes_memcpy (memcpy ctx 56 (leBytes 4 lo)) 60 (leBytes 4 hi)
  have hlo := readBytes_memcpy ctx 56 (leBytes 4 lo)
  rw [length_leBytes] at hhi hlo
  rw [hhi, hlo, hl, List.append_assoc]

/-- The one and zeros behind the rest. -/
theorem readBytes_zeros (hctx : Holds ctx msg) (size : ℕ) :
    readBytes (memset (memcpy ctx (msg.length % 64) [0x80]) (msg.length % 64 + 1) 0 size).buffer 0
      (msg.length % 64 + 1 + size) = rest 64 msg ++ 0x80 :: List.replicate size 0 := by
  have hone := readBytes_memcpy ctx (msg.length % 64) [0x80]
  have hzeros := readBytes_memcpy (memcpy ctx (msg.length % 64) [0x80]) (msg.length % 64 + 1) (List.replicate size 0)
  rw [List.length_replicate] at hzeros
  rw [List.length_singleton] at hone
  rw [memset, hzeros, hone, hctx.buffer, List.append_assoc, List.singleton_append]

theorem final_bytes (hctx : Holds ctx msg) (hc : Counts ctx msg.length) : MD5_Final ctx = (hash msg).bytes := by
  have hused : ctx.lo % 64 = msg.length % 64 := by
    rw [hc.lo]
    norm_num
  have hlt : msg.length % 64 < 64 := Nat.mod_lt _ (by decide)
  have hbits := leBytes_bits hc
  rw [MD5_Final]
  dsimp only
  rw [hused]
  split_ifs with hfree
  · -- the number of bits goes into a block of its own
    have hzeros := readBytes_zeros hctx (63 - msg.length % 64)
    have hsize : msg.length % 64 + 1 + (63 - msg.length % 64) = 64 := by omega
    have hfree' : 64 - (msg.length % 64 + 1) = 63 - msg.length % 64 := by omega
    rw [hsize] at hzeros
    rw [hfree']
    generalize hfirst : memset (memcpy ctx (msg.length % 64) [0x80]) (msg.length % 64 + 1) 0 (63 - msg.length % 64) = first
      at hzeros
    have hd : first.digest = ctx.digest := by rw [← hfirst]; rfl
    have hlo : first.lo = ctx.lo := by rw [← hfirst]; rfl
    have hhi : first.hi = ctx.hi := by rw [← hfirst]; rfl
    have hfull := bodyBuffer_digest (l := 0x80 :: List.replicate (63 - msg.length % 64) 0) hctx
      (by rw [List.length_cons, List.length_replicate]; omega) hd hzeros
    have hdvd : 64 ∣ (msg ++ 0x80 :: List.replicate (63 - msg.length % 64) 0).length := by
      rw [List.length_append, List.length_cons, List.length_replicate]
      omega
    have hempty : Holds (bodyBuffer first) (msg ++ 0x80 :: List.replicate (63 - msg.length % 64) 0) := by
      refine ⟨hfull,?_⟩
      rw [Nat.mod_eq_zero_of_dvd hdvd, rest_of_dvd hdvd]
      rfl
    have hlast := readBytes_memcpy (bodyBuffer first) 0 (List.replicate (64 - 8) 0)
    rw [List.length_replicate, Nat.zero_add] at hlast
    have hpad : (119 - msg.length % 64) % 64 = 63 - msg.length % 64 + 56 := by omega
    refine congrArg Digest.bytes ?_
    rw [hash, padding, hpad, hbits, List.replicate_add, ← hlo, ← hhi]
    have hmsg : msg ++ 0x80 :: (List.replicate (63 - msg.length % 64) 0 ++ List.replicate 56 0 ++
        (leBytes 4 (first.lo * 2^3 % 2^32) ++ leBytes 4 first.hi)) =
        (msg ++ 0x80 :: List.replicate (63 - msg.length % 64) 0) ++
          (List.replicate 56 0 ++ (leBytes 4 (first.lo * 2^3 % 2^32) ++ leBytes 4 first.hi)) := by simp
    rw [hmsg]
    refine bodyBuffer_digest hempty ?_ rfl ?_
    · rw [Nat.mod_eq_zero_of_dvd hdvd]
      simp
    · rw [rest_of_dvd hdvd]
      exact lastBlock _ hlast
  · have hzeros := readBytes_zeros hctx (55 - msg.length % 64)
    have hsize : msg.length % 64 + 1 + (55 - msg.length % 64) = 56 := by omega
    rw [hsize] at hzeros
    have hpad : (119 - msg.length % 64) % 64 = 55 - msg.length % 64 := by omega
    have hfree' : 64 - (msg.length % 64 + 1) - 8 = 55 - msg.length % 64 := by omega
    rw [hfree']
    refine congrArg Digest.bytes ?_
    rw [hash, padding, hpad, hbits]
    refine bodyBuffer_digest hctx ?_ rfl ?_
    · simp
      omega
    · rw [lastBlock _ hzeros]
      simp
      rfl

end Pieces

end CompilerRt.Tsan.Md5
