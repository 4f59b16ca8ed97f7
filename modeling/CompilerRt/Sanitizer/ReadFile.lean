import CompilerRt.Lib.WhileLoop
import Mathlib

/-! # Reading a file whose size is not known

`ReadFileToBuffer` of `lib/sanitizer_common/sanitizer_common.cc`. Every attempt has another size, by which the answers
of the system are told apart; an address is one of the process, so that a read may also write outside of the buffer.
-/
namespace CompilerRt.Sanitizer.ReadFile

abbrev Uptr := BitVec 64
abbrev Byte := BitVec 8
abbrev Memory := Uptr → Byte

def kPageSize : Uptr := 4096

/-- What `internal_read` returns, where -1 is an error. -/
inductive ReadResult
  | data (bytes : List Byte) (pos : 0 < bytes.length) (le : bytes.length ≤ 4096)
  | eof
  | error

/-- The answers in the attempt of a size. There is no mapping where `UnmapOrDie` or `MmapOrDie` dies. -/
structure System where
  opened : Uptr → Bool
  mapped : Uptr → Option Uptr
  results : Uptr → ℕ → ReadResult

/-- At the condition of the `for` loop, at that of the `while` loop, or behind the end. -/
inductive Phase
  | outer
  | inner
  | returned (read_len : Uptr)
  | died
  deriving DecidableEq

/-- `next` counts the reads of an attempt. -/
structure State where
  phase : Phase
  size : Uptr
  read_len : Uptr
  buff : Uptr
  buff_size : Uptr
  memory : Memory
  next : ℕ

def write (memory : Memory) (addr : Uptr) (bytes : List Byte) : Memory := fun a =>
  if h : (a - addr).toNat < bytes.length then bytes[(a - addr).toNat] else memory a

section Code
variable (sys : System) (max_len : Uptr)

def start (memory : Memory) : State := ⟨.outer,kPageSize,0,0,0,memory,0⟩

def outerStep (s : State) : State :=
  if s.size ≤ max_len then
    if sys.opened s.size then
      match sys.mapped s.size with
      | none => { s with phase := .died }
      | some addr =>
        { s with
          phase := .inner
          buff := addr
          buff_size := s.size
          memory := fun a => if (a - addr).toNat < s.size.toNat then 0 else s.memory a
          read_len := 0
          next := 0 }
    else { s with phase := .returned 0, next := 0 }
  else { s with phase := .returned s.read_len }

/-- At the end of the file both loops are left. -/
def innerStep (s : State) : State :=
  if s.read_len + kPageSize ≤ s.size then
    match sys.results s.size s.next with
    | .data bytes _ _ =>
      { s with
        read_len := s.read_len + BitVec.ofNat 64 bytes.length
        memory := write s.memory (s.buff + s.read_len) bytes
        next := s.next + 1 }
    | .eof => { s with phase := .returned s.read_len, next := s.next + 1 }
    | .error => { s with read_len := s.read_len + (-1), next := s.next + 1 }
  else { s with phase := .outer, size := s.size * 2 }

def running (s : State) : Bool := s.phase = .outer || s.phase = .inner

def step (s : State) : State :=
  match s.phase with
  | .outer => outerStep sys max_len s
  | .inner => innerStep sys s
  | _ => s

def ReadFileToBuffer (memory : Memory) (fuel : ℕ) : Option State :=
  WhileLoop.run running (step sys max_len) fuel (start memory)

end Code

/-! ## What is expected -/

/-- The bytes of the first reads. -/
def delivered (results : ℕ → ReadResult) : ℕ → List Byte
  | 0 => []
  | i + 1 =>
    match results i with
    | .data bytes _ _ => delivered results i ++ bytes
    | _ => delivered results i

/-- A read that is asked for stays inside of the buffer. -/
def Inside (s : State) : Prop :=
  s.phase = .inner → s.read_len + kPageSize ≤ s.size → s.read_len.toNat + 4096 ≤ s.buff_size.toNat

/-- The length fits, and so much of the buffer is what the last attempt has read. -/
def Returns (sys : System) (max_len : Uptr) (s : State) : Prop :=
  ∀ read_len, s.phase = .returned read_len →
    read_len.toNat ≤ s.buff_size.toNat ∧ read_len ≤ max_len ∧
      (delivered (sys.results s.buff_size) s.next).length = read_len.toNat ∧
      ∀ i (hi : i < (delivered (sys.results s.buff_size) s.next).length),
        s.memory (s.buff + BitVec.ofNat 64 i) = (delivered (sys.results s.buff_size) s.next)[i]

def Reads (sys : System) (max_len : Uptr) (s : State) : Prop :=
  WhileLoop.Correct running (step sys max_len) Inside (Returns sys max_len) s

/-! ## When it is so -/

/-- The bytes of the first reads, less the errors among them. -/
def counted (results : ℕ → ReadResult) : ℕ → ℤ
  | 0 => 0
  | i + 1 =>
    match results i with
    | .data bytes _ _ => counted results i + bytes.length
    | .eof => counted results i
    | .error => counted results i - 1

/-- The attempt comes to the condition of its loop for the `i`-th time. -/
def Comes (results : ℕ → ReadResult) (size i : ℕ) : Prop :=
  ∀ j < i, counted results j + 4096 ≤ size ∧ results j ≠ .eof

def Asked (results : ℕ → ReadResult) (size i : ℕ) : Prop := Comes results size i ∧ counted results i + 4096 ≤ size

/-- The attempt ends without the end of the file. -/
def Fills (results : ℕ → ReadResult) (size : ℕ) : Prop := ∃ i, Comes results size i ∧ size < counted results i + 4096

section Condition
variable (sys : System) (max_len : Uptr)

def Starts (size : Uptr) : Prop := size ≤ max_len ∧ sys.opened size = true ∧ (sys.mapped size).isSome = true

/-- No read reports an error, or there is another attempt and no error was the first that counted. -/
def Harmless (size : Uptr) : Prop :=
  (∀ i, Asked (sys.results size) size.toNat i → sys.results size i ≠ .error) ∨
    (∀ i, Asked (sys.results size) size.toNat i → sys.results size i = .error → 1 ≤ counted (sys.results size) i) ∧
      Fills (sys.results size) size.toNat ∧ size * 2 ≤ max_len

/-- After an attempt that fills its buffer there is one of twice the size. -/
def Next (size size' : Uptr) : Prop :=
  Starts sys max_len size ∧ Fills (sys.results size) size.toNat ∧ size' = size * 2

/-- All attempts are harmless, beginning with this. -/
def AllHarmless (size : Uptr) : Prop :=
  ∀ size', Relation.ReflTransGen (Next sys max_len) size size' → Starts sys max_len size' → Harmless sys max_len size'

end Condition

/-! ## The results of an attempt -/

section Results
variable {results : ℕ → ReadResult} {size i j : ℕ}

theorem counted_data {bytes : List Byte} {pos : 0 < bytes.length} {le : bytes.length ≤ 4096}
    (h : results i = .data bytes pos le) : counted results (i + 1) = counted results i + bytes.length := by
  rw [counted, h]

theorem counted_eof (h : results i = .eof) : counted results (i + 1) = counted results i := by
  rw [counted, h]

theorem counted_error (h : results i = .error) : counted results (i + 1) = counted results i - 1 := by
  rw [counted, h]

theorem delivered_data {bytes : List Byte} {pos : 0 < bytes.length} {le : bytes.length ≤ 4096}
    (h : results i = .data bytes pos le) : delivered results (i + 1) = delivered results i ++ bytes := by
  rw [delivered, h]

theorem delivered_eof (h : results i = .eof) : delivered results (i + 1) = delivered results i := by
  rw [delivered, h]

theorem delivered_error (h : results i = .error) : delivered results (i + 1) = delivered results i := by
  rw [delivered, h]

/-- Each error takes one from the length of what was read. -/
theorem counted_le (results : ℕ → ReadResult) (i : ℕ) : counted results i ≤ (delivered results i).length ∧
    (counted results i = (delivered results i).length ↔ ∀ j < i, results j ≠ .error) := by
  induction i with
  | zero => exact ⟨Int.le_refl 0,iff_of_true rfl fun j hj => absurd hj (Nat.not_lt_zero j)⟩
  | succ i ih =>
    obtain ⟨hle,hiff⟩ := ih
    rw [Nat.forall_lt_succ_right, ← hiff]
    cases h : results i with
    | data bytes pos le =>
      rw [counted_data h, delivered_data h, List.length_append]
      refine ⟨by omega,?_⟩
      rw [and_iff_left (by nofun)]
      omega
    | eof =>
      rw [counted_eof h, delivered_eof h]
      exact ⟨hle,(and_iff_left (by nofun)).symm⟩
    | error =>
      rw [counted_error h, delivered_error h]
      exact ⟨by omega,iff_of_false (by omega) fun h => h.2 rfl⟩

theorem Comes.mono (h : Comes results size i) (hj : j ≤ i) : Comes results size j :=
  fun k hk => h k (Nat.lt_of_lt_of_le hk hj)

theorem Comes.succ (h : Asked results size i) (hne : results i ≠ .eof) : Comes results size (i + 1) := by
  rw [Comes, Nat.forall_lt_succ_right]
  exact ⟨h.1,h.2,hne⟩

theorem Comes.asked (h : Comes results size i) (hj : j < i) : Asked results size j := ⟨h.mono hj.le,(h j hj).1⟩

/-- What was counted is within the buffer. -/
theorem Comes.counted_le_size (h : Comes results size i) : counted results i ≤ size := by
  cases i with
  | zero => exact Int.natCast_nonneg size
  | succ i =>
    have hle := (h i (Nat.lt_succ_self i)).1
    cases hr : results i with
    | data bytes pos le =>
      rw [counted_data hr]
      omega
    | eof =>
      rw [counted_eof hr]
      omega
    | error =>
      rw [counted_error hr]
      omega

/-- An attempt goes on for ever, or fills the buffer, or finds the end of the file. -/
theorem attempt_ends (results : ℕ → ReadResult) (size : ℕ) : (∀ i, Comes results size i) ∨ Fills results size ∨
    ∃ i, Asked results size i ∧ results i = .eof := by
  by_cases hall : ∀ i, Comes results size i
  · exact Or.inl hall
  obtain ⟨n,hn⟩ := not_forall.mp hall
  classical
  have hex : ∃ n, ¬Comes results size n := ⟨n,hn⟩
  cases hfind : Nat.find hex with
  | zero => exact absurd (fun j hj => absurd hj (Nat.not_lt_zero j)) (hfind ▸ Nat.find_spec hex)
  | succ i =>
    have hnot : ¬Comes results size (i + 1) := hfind ▸ Nat.find_spec hex
    have hcomes : Comes results size i := not_not.mp (Nat.find_min hex (by omega))
    by_cases hle : counted results i + 4096 ≤ size
    · refine Or.inr (Or.inr ⟨i,⟨hcomes,hle⟩,?_⟩)
      by_contra hne
      exact hnot (Comes.succ ⟨hcomes,hle⟩ hne)
    · exact Or.inr (Or.inl ⟨i,hcomes,not_le.mp hle⟩)

/-- Without errors every read is a step ahead. -/
theorem le_counted (h : Comes results size i) (hne : ∀ j < i, results j ≠ .error) : (i : ℤ) ≤ counted results i := by
  induction i with
  | zero => exact Int.le_refl 0
  | succ i ih =>
    have hi := ih (h.mono (Nat.le_succ i)) fun j hj => hne j (Nat.lt_succ_of_lt hj)
    cases hr : results i with
    | data bytes pos le =>
      rw [counted_data hr]
      omega
    | eof => exact absurd hr (h i (Nat.lt_succ_self i)).2
    | error => exact absurd hr (hne i (Nat.lt_succ_self i))

theorem exists_error_of_forall (h : ∀ i, Comes results size i) : ∃ i, results i = .error := by
  by_contra hno
  have hcount := le_counted (h (size + 1)) fun j _ hj => hno ⟨j,hj⟩
  have hle := (h (size + 1)).counted_le_size
  omega

theorem not_fills_of_eof (h : Asked results size i) (heof : results i = .eof) : ¬Fills results size := by
  rintro ⟨j,hj,hlt⟩
  rcases Nat.lt_trichotomy i j with hij | rfl | hji
  · exact (hj i hij).2 heof
  · exact absurd h.2 (by omega)
  · exact absurd (h.1 j hji).1 (by omega)

/-- At the end all reads have been asked for. -/
theorem Asked.lt_of_end (hj : Asked results size j) (hend : size < counted results i + 4096) : j < i := by
  by_contra hij
  rcases Nat.lt_or_eq_of_le (Nat.le_of_not_lt hij) with hlt | rfl
  · exact absurd (hj.1 i hlt).1 (by omega)
  · exact absurd hj.2 (by omega)

theorem Asked.le_of_eof (h : Asked results size j) (heof : results i = .eof) : j ≤ i := by
  by_contra hij
  exact (h.1 i (Nat.lt_of_not_le hij)).2 heof

end Results

/-! ## An attempt -/

/-- The state before the `i`-th read. -/
structure Reading (sys : System) (size addr : Uptr) (i : ℕ) (s : State) : Prop where
  phase : s.phase = .inner
  size_eq : s.size = size
  buff : s.buff = addr
  buff_size : s.buff_size = size
  next : s.next = i
  read_len : (s.read_len.toNat : ℤ) = counted (sys.results size) i
  memory : (∀ j < i, sys.results size j ≠ .error) → ∀ k (hk : k < (delivered (sys.results size) i).length),
    s.memory (addr + BitVec.ofNat 64 k) = (delivered (sys.results size) i)[k]

section Attempt
variable {sys : System} {max_len size addr : Uptr} {i : ℕ} {s : State}

theorem add_kPageSize_le_iff {a size : Uptr} (ha : a.toNat ≤ size.toNat) (hsize : size.toNat ≤ 2^63) :
    a + kPageSize ≤ size ↔ a.toNat + 4096 ≤ size.toNat := by
  have hpage : kPageSize.toNat = 4096 := rfl
  rw [BitVec.le_def, BitVec.toNat_add, hpage, Nat.mod_eq_of_lt (by omega)]

theorem write_append {memory : Memory} {addr : Uptr} {xs bytes : List Byte}
    (hx : ∀ k (hk : k < xs.length), memory (addr + BitVec.ofNat 64 k) = xs[k])
    (hlen : xs.length + bytes.length < 2^64) (k : ℕ) (hk : k < (xs ++ bytes).length) :
    write memory (addr + BitVec.ofNat 64 xs.length) bytes (addr + BitVec.ofNat 64 k) = (xs ++ bytes)[k] := by
  rw [List.length_append] at hk
  have hdiff : (addr + BitVec.ofNat 64 k - (addr + BitVec.ofNat 64 xs.length)).toNat =
      (2^64 - xs.length + k) % 2^64 := by
    rw [add_sub_add_left_eq_sub, BitVec.toNat_sub, BitVec.toNat_ofNat, BitVec.toNat_ofNat,
      Nat.mod_eq_of_lt (by omega : xs.length < 2^64), Nat.mod_eq_of_lt (by omega : k < 2^64)]
  rw [write]
  by_cases hold : k < xs.length
  · rw [dif_neg (by rw [hdiff, Nat.mod_eq_of_lt (by omega)]; omega), hx k hold, List.getElem_append_left hold]
  · have hval : (2^64 - xs.length + k) % 2^64 = k - xs.length := by omega
    rw [dif_pos (by rw [hdiff, hval]; omega), List.getElem_append_right (Nat.le_of_not_lt hold)]
    simp only [hdiff, hval]

/-- The loop asks for the next read, into the buffer. -/
theorem Reading.asks (h : Reading sys size addr i s) (hcomes : Comes (sys.results size) size.toNat i)
    (hsize : size.toNat ≤ 2^63) :
    s.read_len + kPageSize ≤ s.size ↔ Asked (sys.results size) size.toNat i := by
  have hle := hcomes.counted_le_size
  rw [← h.read_len] at hle
  rw [h.size_eq, add_kPageSize_le_iff (by omega) hsize, Asked, and_iff_right hcomes, ← h.read_len]
  omega

theorem Reading.inside (h : Reading sys size addr i s) (hcomes : Comes (sys.results size) size.toNat i)
    (hsize : size.toNat ≤ 2^63) : Inside s := by
  intro _ hasks
  have hle := ((h.asks hcomes hsize).mp hasks).2
  rw [← h.read_len] at hle
  rw [h.buff_size]
  omega

theorem Reading.running (h : Reading sys size addr i s) : running s = true := by
  simp [ReadFile.running, h.phase]

theorem Reading.step_eq (h : Reading sys size addr i s) : step sys max_len s = innerStep sys s := by
  rw [step, h.phase]

/-- A read that is not the end of the file, nor an error that nothing was counted before. -/
theorem Reading.step (h : Reading sys size addr i s) (hasked : Asked (sys.results size) size.toNat i)
    (hsize : size.toNat ≤ 2^63) (heof : sys.results size i ≠ .eof)
    (herr : sys.results size i = .error → 1 ≤ counted (sys.results size) i) :
    Reading sys size addr (i + 1) (step sys max_len s) := by
  have hle := hasked.1.counted_le_size
  have hlen := h.read_len
  rw [h.step_eq, innerStep, if_pos ((h.asks hasked.1 hsize).mpr hasked), h.size_eq, h.next]
  cases hr : sys.results size i with
  | data bytes pos le =>
    refine ⟨h.phase,rfl,h.buff,h.buff_size,rfl,?_,fun hne => ?_⟩
    · rw [counted_data hr, ← hlen]
      dsimp only
      rw [BitVec.toNat_add, BitVec.toNat_ofNat]
      omega
    · have hne' : ∀ j < i, sys.results size j ≠ .error := fun j hj => hne j (Nat.lt_succ_of_lt hj)
      have hcount := (counted_le (sys.results size) i).2.mpr hne'
      have hread : s.read_len = BitVec.ofNat 64 (delivered (sys.results size) i).length := by
        apply BitVec.eq_of_toNat_eq
        rw [BitVec.toNat_ofNat]
        omega
      intro k hk
      simp only [delivered_data hr] at hk ⊢
      rw [h.buff, hread]
      exact write_append (h.memory hne') (by omega) k hk
  | eof => exact absurd hr heof
  | error =>
    have hpos := herr hr
    refine ⟨h.phase,rfl,h.buff,h.buff_size,rfl,?_,fun hne => absurd hr (hne i (Nat.lt_succ_self i))⟩
    rw [counted_error hr, ← hlen]
    dsimp only
    have hone : (-1 : Uptr).toNat = 2^64 - 1 := rfl
    rw [BitVec.toNat_add, hone]
    omega

/-- The attempt from its beginning, as long as it comes to its loop's condition and no error is the first that counts. -/
theorem Reading.iterate (h : Reading sys size addr 0 s) (max_len : Uptr) (hsize : size.toNat ≤ 2^63)
    (hcomes : Comes (sys.results size) size.toNat i)
    (herr : ∀ j < i, sys.results size j = .error → 1 ≤ counted (sys.results size) j) :
    Reading sys size addr i ((ReadFile.step sys max_len)^[i] s) := by
  induction i with
  | zero => exact h
  | succ i ih =>
    rw [Function.iterate_succ_apply']
    exact (ih (hcomes.mono (Nat.le_succ i)) fun j hj => herr j (Nat.lt_succ_of_lt hj)).step
      (hcomes.asked (Nat.lt_succ_self i)) hsize (hcomes i (Nat.lt_succ_self i)).2 (herr i (Nat.lt_succ_self i))

theorem Reading.reads_iff (h : Reading sys size addr 0 s) (hsize : size.toNat ≤ 2^63)
    (hcomes : Comes (sys.results size) size.toNat i)
    (herr : ∀ j < i, sys.results size j = .error → 1 ≤ counted (sys.results size) j) :
    Reads sys max_len s ↔ Reads sys max_len ((ReadFile.step sys max_len)^[i] s) :=
  WhileLoop.correct_iterate fun j hj => by
    have hcomes_j := hcomes.mono hj.le
    have hreading := h.iterate max_len hsize hcomes_j fun k hk => herr k (hk.trans hj)
    exact ⟨hreading.running,hreading.inside hcomes_j hsize⟩

/-- An error that nothing was counted before: the next read begins one byte before the buffer. -/
theorem Reading.not_reads_of_error (h : Reading sys size addr i s) (hsize : size.toNat ≤ 2^63)
    (hasked : Asked (sys.results size) size.toNat i) (hr : sys.results size i = .error)
    (hzero : counted (sys.results size) i ≤ 0) : ¬Reads sys max_len s := by
  intro hreads
  have hlen := h.read_len
  have hread : s.read_len = 0 := by
    apply BitVec.eq_of_toNat_eq
    change s.read_len.toNat = 0
    omega
  obtain ⟨-,hnext⟩ := (WhileLoop.correct_of_guard h.running).mp hreads
  have hstep : ReadFile.step sys max_len s = { s with read_len := s.read_len + (-1), next := s.next + 1 } := by
    rw [h.step_eq, innerStep, if_pos ((h.asks hasked.1 hsize).mpr hasked), h.size_eq, h.next, hr]
  have hinside := hnext.safe _ (WhileLoop.Visits.here _)
  rw [hstep, hread] at hinside
  have hsum : (0 + (-1) + kPageSize : Uptr) = 4095 := by decide
  have hask : (0 + (-1) + kPageSize : Uptr) ≤ s.size := by
    have hle := hasked.2
    rw [← hlen] at hle
    rw [hsum, h.size_eq, BitVec.le_def]
    change 4095 ≤ size.toNat
    omega
  have hle := hinside h.phase hask
  have hminus : (0 + (-1) : Uptr).toNat = 2^64 - 1 := by decide
  dsimp only at hle
  rw [hminus, h.buff_size] at hle
  omega

theorem inside_of_ne (h : s.phase ≠ .inner) : Inside s := fun hinner => absurd hinner h

theorem reads_of_returned {read_len : Uptr} (h : s.phase = .returned read_len) :
    Reads sys max_len s ↔ Returns sys max_len s := by
  have hstop : ReadFile.running s = false := by simp [ReadFile.running, h]
  rw [Reads, WhileLoop.correct_of_not_guard hstop, and_iff_right (inside_of_ne (by rw [h]; nofun))]

/-- What is returned is all that was read if no read reported an error. -/
theorem Reading.returns_iff (h : Reading sys size addr i s) (hcomes : Comes (sys.results size) size.toNat i)
    (hmax : size ≤ max_len) {t : State} (hphase : t.phase = .returned s.read_len) (hbuff : t.buff = addr)
    (hsize : t.buff_size = size) (hmemory : t.memory = s.memory)
    (hnext : delivered (sys.results size) t.next = delivered (sys.results size) i) :
    Returns sys max_len t ↔ ∀ j < i, sys.results size j ≠ .error := by
  have hlen := h.read_len
  have hle := hcomes.counted_le_size
  obtain ⟨-,hcount⟩ := counted_le (sys.results size) i
  rw [Returns, hphase, hbuff, hsize, hmemory, hnext]
  constructor
  · intro hr
    obtain ⟨-,-,hdelivered,-⟩ := hr s.read_len rfl
    exact hcount.mp (by omega)
  · intro hne read_len heq
    cases heq
    have hdelivered := hcount.mpr hne
    refine ⟨by omega,?_,by omega,h.memory hne⟩
    rw [BitVec.le_def] at hmax ⊢
    omega

theorem Reading.reads_of_eof (h : Reading sys size addr i s) (hsize : size.toNat ≤ 2^63) (hmax : size ≤ max_len)
    (hasked : Asked (sys.results size) size.toNat i) (hr : sys.results size i = .eof) :
    Reads sys max_len s ↔ ∀ j < i, sys.results size j ≠ .error := by
  have hstep : ReadFile.step sys max_len s = { s with phase := .returned s.read_len, next := s.next + 1 } := by
    rw [h.step_eq, innerStep, if_pos ((h.asks hasked.1 hsize).mpr hasked), h.size_eq, h.next, hr]
  have hnext : delivered (sys.results size) (s.next + 1) = delivered (sys.results size) i := by
    rw [h.next, delivered_eof hr]
  rw [Reads, WhileLoop.correct_of_guard h.running, and_iff_right (h.inside hasked.1 hsize), hstep]
  exact (reads_of_returned rfl).trans (h.returns_iff hasked.1 hmax rfl h.buff h.buff_size rfl hnext)

/-- The attempt has filled its buffer, and the next has twice the size. -/
theorem Reading.reads_of_full (h : Reading sys size addr i s) (hsize : size.toNat ≤ 2^63)
    (hcomes : Comes (sys.results size) size.toNat i) (hfull : size.toNat < counted (sys.results size) i + 4096) :
    Reads sys max_len s ↔ Reads sys max_len { s with phase := .outer, size := size * 2 } := by
  have hstep : ReadFile.step sys max_len s = { s with phase := .outer, size := size * 2 } := by
    rw [h.step_eq, innerStep, if_neg fun hasks => ?_, h.size_eq]
    exact absurd ((h.asks hcomes hsize).mp hasks).2 (by omega)
  rw [Reads, WhileLoop.correct_of_guard h.running, and_iff_right (h.inside hcomes hsize), hstep]
  rfl

theorem reads_of_outer (h : s.phase = .outer) :
    Reads sys max_len s ↔ Reads sys max_len (outerStep sys max_len s) := by
  have hrunning : ReadFile.running s = true := by simp [ReadFile.running, h]
  rw [Reads, WhileLoop.correct_of_guard hrunning, and_iff_right (inside_of_ne (by rw [h]; nofun)), ReadFile.step, h]
  rfl

/-- Twice the size is too much. -/
theorem Reading.reads_of_last (h : Reading sys size addr i s) (hmax : size ≤ max_len)
    (hcomes : Comes (sys.results size) size.toNat i) (hlast : ¬size * 2 ≤ max_len) :
    Reads sys max_len { s with phase := .outer, size := size * 2 } ↔ ∀ j < i, sys.results size j ≠ .error := by
  rw [reads_of_outer rfl, outerStep, if_neg hlast, reads_of_returned rfl]
  exact h.returns_iff hcomes hmax rfl h.buff h.buff_size rfl (by rw [h.next])

end Attempt

/-! ## All attempts -/

section Attempts
variable {sys : System} {max_len size : Uptr}

theorem allHarmless_iff : AllHarmless sys max_len size ↔
    (Starts sys max_len size → Harmless sys max_len size) ∧
      (Starts sys max_len size → Fills (sys.results size) size.toNat → AllHarmless sys max_len (size * 2)) := by
  constructor
  · intro h
    exact ⟨h size .refl,fun hstarts hfills size' hnext => h size' (.head ⟨hstarts,hfills,rfl⟩ hnext)⟩
  · rintro ⟨hhere,hnext⟩ size' hpath
    rcases hpath.cases_head with rfl | ⟨size₁,⟨hstarts,hfills,rfl⟩,hpath⟩
    · exact hhere
    · exact hnext hstarts hfills size' hpath

theorem allHarmless_of_not_starts (h : ¬Starts sys max_len size) : AllHarmless sys max_len size :=
  allHarmless_iff.mpr ⟨fun hstarts => absurd hstarts h,fun hstarts => absurd hstarts h⟩

/-- An attempt and those that follow, of which `htail` speaks. -/
theorem reads_attempt_iff {s : State} {addr : Uptr} (h : Reading sys size addr 0 s) (hsize : size.toNat ≤ 2^63)
    (hstarts : Starts sys max_len size)
    (htail : ∀ s : State, s.phase = .outer → s.size = size * 2 → size * 2 ≤ max_len →
      (Reads sys max_len s ↔ AllHarmless sys max_len (size * 2))) :
    Reads sys max_len s ↔ Harmless sys max_len size ∧
      (Fills (sys.results size) size.toNat → AllHarmless sys max_len (size * 2)) := by
  by_cases hfirst : ∃ i, Asked (sys.results size) size.toNat i ∧ sys.results size i = .error ∧
      counted (sys.results size) i ≤ 0
  · classical
    obtain ⟨hasked,hr,hzero⟩ := Nat.find_spec hfirst
    have herr : ∀ j < Nat.find hfirst, sys.results size j = .error → 1 ≤ counted (sys.results size) j := by
      intro j hj hrj
      by_contra hlt
      exact Nat.find_min hfirst hj ⟨hasked.1.asked hj,hrj,by omega⟩
    have hreading := h.iterate max_len hsize hasked.1 herr
    rw [h.reads_iff hsize hasked.1 herr]
    refine iff_of_false (hreading.not_reads_of_error hsize hasked hr hzero) fun hharmless => ?_
    rcases hharmless.1 with hnone | ⟨hpos,-⟩
    · exact hnone _ hasked hr
    · have hone := hpos _ hasked hr
      omega
  have hpos : ∀ i, Asked (sys.results size) size.toNat i → sys.results size i = .error →
      1 ≤ counted (sys.results size) i := by
    intro i hasked hr
    by_contra hlt
    exact hfirst ⟨i,hasked,hr,by omega⟩
  have hpos_lt : ∀ {i}, Comes (sys.results size) size.toNat i → ∀ j < i, sys.results size j = .error →
      1 ≤ counted (sys.results size) j := fun hcomes j hj => hpos j (hcomes.asked hj)
  rcases attempt_ends (sys.results size) size.toNat with hall | hfills | ⟨i,hasked,heof⟩
  · have hrunning : ∀ i, running ((step sys max_len)^[i] s) = true := fun i =>
      (h.iterate max_len hsize (hall i) (hpos_lt (hall i))).running
    obtain ⟨i,hi⟩ := exists_error_of_forall hall
    refine iff_of_false (WhileLoop.not_correct_of_forall hrunning) fun hharmless => ?_
    rcases hharmless.1 with hnone | ⟨-,⟨j,-,hlt⟩,-⟩
    · exact hnone i ((hall (i + 1)).asked (Nat.lt_succ_self i)) hi
    · exact absurd (hall (j + 1) j (Nat.lt_succ_self j)).1 (by omega)
  · obtain ⟨i,hcomes,hfull⟩ := hfills
    have hreading := h.iterate max_len hsize hcomes (hpos_lt hcomes)
    have hfills : Fills (sys.results size) size.toNat := ⟨i,hcomes,hfull⟩
    rw [h.reads_iff hsize hcomes (hpos_lt hcomes), hreading.reads_of_full hsize hcomes hfull]
    by_cases hnext : size * 2 ≤ max_len
    · rw [htail _ rfl rfl hnext]
      exact ⟨fun htail => ⟨Or.inr ⟨hpos,hfills,hnext⟩,fun _ => htail⟩,fun hharmless => hharmless.2 hfills⟩
    · rw [hreading.reads_of_last hstarts.1 hcomes hnext]
      constructor
      · intro hnone
        exact ⟨Or.inl fun j hj => hnone j (hj.lt_of_end hfull),
          fun _ => allHarmless_of_not_starts fun hstarts => hnext hstarts.1⟩
      · rintro ⟨hnone | ⟨-,-,hle⟩,-⟩ j hj
        · exact hnone j (hcomes.asked hj)
        · exact absurd hle hnext
  · have hreading := h.iterate max_len hsize hasked.1 (hpos_lt hasked.1)
    rw [h.reads_iff hsize hasked.1 (hpos_lt hasked.1), hreading.reads_of_eof hsize hstarts.1 hasked heof]
    constructor
    · intro hnone
      refine ⟨Or.inl fun j hj => ?_,fun hfills => absurd hfills (not_fills_of_eof hasked heof)⟩
      rcases Nat.lt_or_eq_of_le (hj.le_of_eof heof) with hlt | rfl
      · exact hnone j hlt
      · rw [heof]
        nofun
    · rintro ⟨hnone | ⟨-,hfills,-⟩,-⟩ j hj
      · exact hnone j (hasked.1.asked hj)
      · exact absurd hfills (not_fills_of_eof hasked heof)

/-- An attempt that does not start ends the function. -/
theorem reads_of_not_starts {s : State} (hphase : s.phase = .outer) (hle : s.size ≤ max_len)
    (h : ¬Starts sys max_len s.size) : Reads sys max_len s := by
  rw [reads_of_outer hphase, outerStep, if_pos hle]
  by_cases hopened : sys.opened s.size = true
  · have hnone : sys.mapped s.size = none :=
      Option.not_isSome_iff_eq_none.mp fun hsome => h ⟨hle,hopened,hsome⟩
    rw [if_pos hopened, hnone]
    exact (WhileLoop.correct_of_not_guard (by rfl)).mpr ⟨inside_of_ne nofun,nofun⟩
  · rw [if_neg hopened, reads_of_returned rfl]
    intro read_len heq
    cases heq
    exact ⟨Nat.zero_le _,BitVec.le_def.mpr (Nat.zero_le _),rfl,fun i hi => absurd hi (Nat.not_lt_zero i)⟩

/-- An attempt that starts. -/
theorem reading_start {s : State} {addr : Uptr} (hle : s.size ≤ max_len) (hopened : sys.opened s.size = true)
    (hmapped : sys.mapped s.size = some addr) : Reading sys s.size addr 0 (outerStep sys max_len s) := by
  rw [outerStep, if_pos hle, if_pos hopened, hmapped]
  exact ⟨rfl,rfl,rfl,rfl,rfl,rfl,fun _ k hk => absurd hk (Nat.not_lt_zero k)⟩

/-- From the condition of the outer loop on, where the sizes left are `n` powers of two and then 0. -/
theorem reads_outer_iff (hzero : sys.mapped 0 = none) (n : ℕ) (hn : n ≤ 52) (s : State) (hphase : s.phase = .outer)
    (hsize : s.size = BitVec.ofNat 64 (2^(64 - n))) (hle : s.size ≤ max_len) :
    Reads sys max_len s ↔ AllHarmless sys max_len s.size := by
  induction n generalizing s with
  | zero =>
    have hno : ¬Starts sys max_len s.size := by
      rintro ⟨-,-,hsome⟩
      have hnone : sys.mapped s.size = none := hsize ▸ hzero
      rw [hnone] at hsome
      cases hsome
    exact iff_of_true (reads_of_not_starts hphase hle hno) (allHarmless_of_not_starts hno)
  | succ n ih =>
    by_cases hstarts : Starts sys max_len s.size
    · obtain ⟨-,hopened,hsome⟩ := hstarts
      obtain ⟨addr,hmapped⟩ := Option.isSome_iff_exists.mp hsome
      have htoNat : s.size.toNat = 2^(63 - n) := by
        rw [hsize, BitVec.toNat_ofNat, Nat.mod_eq_of_lt (Nat.pow_lt_pow_right (by decide) (by omega))]
        congr 1
        omega
      have hbound : s.size.toNat ≤ 2^63 := htoNat ▸ Nat.pow_le_pow_right (by decide) (Nat.sub_le 63 n)
      have hdouble : s.size * 2 = BitVec.ofNat 64 (2^(64 - n)) := by
        have hexp : 64 - n = 63 - n + 1 := by omega
        apply BitVec.eq_of_toNat_eq
        rw [BitVec.toNat_mul, htoNat, BitVec.toNat_ofNat, hexp, Nat.pow_succ]
        rfl
      rw [reads_of_outer hphase, reads_attempt_iff (reading_start hle hopened hmapped) hbound ⟨hle,hopened,hsome⟩
        fun t ht hsize_t hle_t => ?_]
      · refine Iff.trans ?_ allHarmless_iff.symm
        exact ⟨fun h => ⟨fun _ => h.1,fun _ => h.2⟩,fun h => ⟨h.1 ⟨hle,hopened,hsome⟩,h.2 ⟨hle,hopened,hsome⟩⟩⟩
      · have htail := ih (by omega) t ht (hsize_t.trans hdouble) (hsize_t ▸ hle_t)
        rwa [hsize_t] at htail
    · exact iff_of_true (reads_of_not_starts hphase hle hstarts) (allHarmless_of_not_starts hstarts)

theorem reads_start_iff (hzero : sys.mapped 0 = none) (memory : Memory) :
    Reads sys max_len (start memory) ↔ AllHarmless sys max_len kPageSize := by
  by_cases hle : kPageSize ≤ max_len
  · exact reads_outer_iff hzero 52 (Nat.le_refl 52) (start memory) rfl rfl hle
  · refine iff_of_true ?_ (allHarmless_of_not_starts fun hstarts => hle hstarts.1)
    have hstep : outerStep sys max_len (start memory) = { start memory with phase := .returned 0 } := if_neg hle
    rw [reads_of_outer rfl, hstep, reads_of_returned rfl]
    intro read_len heq
    cases heq
    exact ⟨Nat.zero_le _,BitVec.le_def.mpr (Nat.zero_le _),rfl,fun i hi => absurd hi (Nat.not_lt_zero i)⟩

/-- For all answers of the system and all limits, where a mapping of size 0 fails. -/
theorem ReadFileToBuffer_iff (sys : System) (max_len : Uptr) (memory : Memory) (hzero : sys.mapped 0 = none) :
    ((∃ fuel s, ReadFileToBuffer sys max_len memory fuel = some s) ∧
      (∀ s, WhileLoop.Visits running (step sys max_len) (start memory) s → Inside s) ∧
      (∀ fuel s, ReadFileToBuffer sys max_len memory fuel = some s → Returns sys max_len s)) ↔
    AllHarmless sys max_len kPageSize := by
  rw [← reads_start_iff hzero memory]
  exact ⟨fun h => ⟨h.1,h.2.1,h.2.2⟩,fun h => ⟨h.terminates,h.safe,h.result⟩⟩

/-- A file of one byte, at which a first read may fail. -/
def oneByte (first : ReadResult) : System where
  opened _ := true
  mapped size := if size = 0 then none else some 0x10000
  results _
    | 0 => first
    | 1 => .data [0x61] (by decide) (by decide)
    | _ => .eof

theorem ReadFileToBuffer_oneByte :
    ((∃ fuel s, ReadFileToBuffer (oneByte .eof) 0x100000 (fun _ => 0) fuel = some s) ∧
      (∀ s, WhileLoop.Visits running (step (oneByte .eof) 0x100000) (start fun _ => 0) s → Inside s) ∧
      (∀ fuel s, ReadFileToBuffer (oneByte .eof) 0x100000 (fun _ => 0) fuel = some s →
        Returns (oneByte .eof) 0x100000 s)) ↔
    AllHarmless (oneByte .eof) 0x100000 kPageSize :=
  ReadFileToBuffer_iff (oneByte .eof) 0x100000 (fun _ => 0) rfl

/-- After an error of the first read, the second is asked to write before the buffer. -/
theorem ReadFileToBuffer_error :
    ¬((∃ fuel s, ReadFileToBuffer (oneByte .error) 0x100000 (fun _ => 0) fuel = some s) ∧
      (∀ s, WhileLoop.Visits running (step (oneByte .error) 0x100000) (start fun _ => 0) s → Inside s) ∧
      (∀ fuel s, ReadFileToBuffer (oneByte .error) 0x100000 (fun _ => 0) fuel = some s →
        Returns (oneByte .error) 0x100000 s)) := by
  intro h
  have hall := (reads_start_iff (show (oneByte .error).mapped 0 = none from rfl)  fun _ => 0).mp ⟨h.1,h.2.1,h.2.2⟩
  have hasked : Asked ((oneByte .error).results kPageSize) kPageSize.toNat 0 :=
    ⟨fun j hj => absurd hj (Nat.not_lt_zero j),by decide⟩
  rcases (allHarmless_iff.mp hall).1 ⟨by decide,rfl,rfl⟩ with hnone | ⟨hpos,-⟩
  · exact hnone 0 hasked rfl
  · exact absurd (hpos 0 hasked rfl) (by decide)

end Attempts

end CompilerRt.Sanitizer.ReadFile
