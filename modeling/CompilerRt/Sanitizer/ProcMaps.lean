import CompilerRt.Sanitizer.Libc
import Mathlib

/-! # Memory maps

`MemoryMappingLayout::Next` of `lib/sanitizer_common/sanitizer_linux.cc` reads the text of `/proc/self/maps`. A pointer
into the text is what the text holds from there on.
-/
namespace CompilerRt.Sanitizer.ProcMaps

abbrev uptr := BitVec 64

/-- What goes wrong: a check fails, a place behind the text is read, or one behind the file name's buffer is written. -/
inductive Fault
  | check
  | past
  | overrun
  deriving DecidableEq, Repr

def internal_memchr : CString → Char → ℕ → Option CString
  | _, _, 0 => none
  | [], _, _ + 1 => none
  | a :: s, c, n + 1 => if a = c then some (a :: s) else internal_memchr s c n

def hexDigit (c : Char) : Option ℕ :=
  if '0' ≤ c ∧ c ≤ '9' then some (c.toNat - '0'.toNat)
  else if 'a' ≤ c ∧ c ≤ 'f' then some (c.toNat - 'a'.toNat + 10)
  else if 'A' ≤ c ∧ c ≤ 'F' then some (c.toNat - 'A'.toNat + 10)
  else none

/-- The loop, with the value so far. -/
def ParseHex (x : uptr) : CString → Except Fault (uptr × CString)
  | [] => .error .past
  | c :: s => match hexDigit c with
    | some v => ParseHex (x * 16 + BitVec.ofNat 64 v) s
    | none => .ok (x,c :: s)

def IsOnOf (c c1 c2 : Char) : Bool := c = c1 || c = c2

def IsDecimal (c : Char) : Bool := '0' ≤ c && c ≤ '9'

/-- A check of `*current_++`. -/
def check (p : Char → Bool) : CString → Except Fault CString
  | [] => .error .past
  | c :: current => if p c then .ok current else .error .check

def skipDecimal : CString → Except Fault CString
  | [] => .error .past
  | c :: current => if IsDecimal c then skipDecimal current else .ok (c :: current)

/-- `left` is how far the end of the line is from the end of the text. -/
def skipSpaces (left : ℕ) : CString → CString
  | [] => []
  | c :: current => if left < current.length + 1 ∧ c = ' ' then skipSpaces left current else c :: current

def store (buffer : CString) (i : ℕ) (c : Char) : Except Fault CString :=
  if i < buffer.length then .ok (buffer.set i c) else .error .overrun

/-- One character of the file name. -/
def put (filename_size : uptr) (filename : Option CString) (i : ℕ) (c : Char) : Except Fault (ℕ × Option CString) :=
  match filename with
  | none => .ok (i,none)
  | some buffer =>
    if i < (filename_size - 1).toNat then (store buffer i c).map fun buffer => (i + 1,some buffer)
    else .ok (i,some buffer)

def fill (left : ℕ) (filename_size : uptr) : CString → ℕ → Option CString → Except Fault (ℕ × Option CString)
  | [], i, filename => .ok (i,filename)
  | c :: current, i, filename =>
    if left < current.length + 1 then do
      let (i, filename) ← put filename_size filename i c
      fill left filename_size current i filename
    else .ok (i,filename)

/-- The final zero. -/
def finish (filename_size : uptr) (i : ℕ) (filename : Option CString) : Except Fault (Option CString) :=
  match filename with
  | none => .ok none
  | some buffer => if i < filename_size.toNat then (store buffer i '\x00').map some else .ok (some buffer)

/-- What is stored through the pointers. -/
structure Mapping where
  start : uptr
  end_ : uptr
  offset : uptr
  filename : Option CString
  deriving DecidableEq, Repr

def Reset (proc_self_maps_buff_ : CString) : CString := proc_self_maps_buff_

/-- With `current_` afterwards. A file name that is not asked for has no buffer. -/
def Next (current : CString) (filename : Option CString) (filename_size : uptr) :
    Except Fault (Option Mapping × CString) :=
  if current = [] then .ok (none,current)
  else do
    let next_line := (internal_memchr current '\n' current.length).getD []
    let (start, current) ← ParseHex 0 current
    let current ← check (· = '-') current
    let (end_, current) ← ParseHex 0 current
    let current ← check (· = ' ') current
    let current ← check (IsOnOf · '-' 'r') current
    let current ← check (IsOnOf · '-' 'w') current
    let current ← check (IsOnOf · '-' 'x') current
    let current ← check (IsOnOf · 's' 'p') current
    let current ← check (· = ' ') current
    let (offset, current) ← ParseHex 0 current
    let current ← check (· = ' ') current
    let (_, current) ← ParseHex 0 current
    let current ← check (· = ':') current
    let (_, current) ← ParseHex 0 current
    let current ← check (· = ' ') current
    let current ← skipDecimal current
    let current ← check (· = ' ') current
    let current := skipSpaces next_line.length current
    let (i, filename) ← fill next_line.length filename_size current 0 filename
    let filename ← finish filename_size i filename
    .ok (some ⟨start,end_,offset,filename⟩,next_line.drop 1)

/-! ## The text -/

/-- A number in hexadecimal digits. -/
structure Hex where
  text : CString
  ne_nil : text ≠ []
  digits : ∀ c ∈ text, (hexDigit c).isSome

/-- The value with `c` behind what has the value `x`. -/
def hexStep (x : ℕ) (c : Char) : ℕ := x * 16 + (hexDigit c).getD 0

def Hex.value (h : Hex) : ℕ := h.text.foldl hexStep 0

structure Line where
  start : Hex
  end_ : Hex
  read : Bool
  write : Bool
  exec : Bool
  isPrivate : Bool
  offset : Hex
  major : Hex
  minor : Hex
  inode : CString
  inode_ne_nil : inode ≠ []
  inode_digits : ∀ c ∈ inode, IsDecimal c
  /-- The number of further blanks in front of the name. -/
  blanks : ℕ
  name : CString
  name_newline : '\n' ∉ name

namespace Line

def perms (l : Line) : CString :=
  [if l.read then 'r' else '-', if l.write then 'w' else '-', if l.exec then 'x' else '-',
    if l.isPrivate then 'p' else 's']

/-- What stands behind the inode and one blank. -/
def last (l : Line) : CString := List.replicate l.blanks ' ' ++ l.name

/-- The line without its end. -/
def text (l : Line) : CString :=
  l.start.text ++ '-' :: (l.end_.text ++ ' ' :: (l.perms ++ ' ' :: (l.offset.text ++ ' ' :: (l.major.text ++ ':' ::
    (l.minor.text ++ ' ' :: (l.inode ++ ' ' :: l.last))))))

end Line

/-- The whole text. -/
def mapsText (lines : List Line) : CString := lines.flatMap fun l => l.text ++ ['\n']

/-- A buffer for a file name. -/
structure FileBuffer where
  filename : CString
  filename_size : uptr
  length_eq : filename.length = filename_size.toNat
  pos : 1 ≤ filename_size.toNat

/-- What a buffer holds after a string was copied to its begin. -/
def copied (buffer s : CString) : CString := s ++ buffer.drop s.length

/-- The name is cut to one character less than the buffer, and ends with a zero. -/
def FileBuffer.named (b : FileBuffer) (name : CString) : CString :=
  copied b.filename (name.take (b.filename_size.toNat - 1) ++ ['\x00'])

/-- The mapping of a line, with `name` as its file name. -/
def Line.mapping (l : Line) (name : CString) (b : Option FileBuffer) : Mapping where
  start := BitVec.ofNat 64 l.start.value
  end_ := BitVec.ofNat 64 l.end_.value
  offset := BitVec.ofNat 64 l.offset.value
  filename := b.map fun b => b.named name

/-- One call for each buffer, or for a null pointer. -/
def calls : CString → List (Option FileBuffer) → Except Fault (List (Option Mapping))
  | _, [] => .ok []
  | current, b :: bs => do
    let (r, current) ← Next current (b.map FileBuffer.filename) ((b.map FileBuffer.filename_size).getD 0)
    let rs ← calls current bs
    .ok (r :: rs)

section
variable {s t rest : CString} {c : Char} {p : Char → Bool} {left i : ℕ} {x : ℕ}

theorem internal_memchr_eq (s : CString) (c : Char) : internal_memchr s c s.length = internal_strchr s c := by
  induction s with
  | nil => rfl
  | cons a s ih => rw [List.length_cons, internal_memchr, internal_strchr, ih]

theorem check_bind {f : CString → Except Fault (Option Mapping × CString)} (h : p c = true) :
    (check p (c :: s) >>= f) = f s := by
  rw [check, if_pos h]
  rfl

/-- The value of the digits, behind a character that is none. -/
theorem ParseHex_append (hs : ∀ c ∈ s, (hexDigit c).isSome) (hc : hexDigit c = none) :
    ParseHex (BitVec.ofNat 64 x) (s ++ c :: rest) = .ok (BitVec.ofNat 64 (s.foldl hexStep x),c :: rest) := by
  induction s generalizing x with
  | nil =>
    rw [List.nil_append, ParseHex, hc]
    rfl
  | cons a s ih =>
    obtain ⟨ha,hs⟩ := List.forall_mem_cons.mp hs
    obtain ⟨v,hv⟩ := Option.isSome_iff_exists.mp ha
    have hstep : BitVec.ofNat 64 x * 16 + BitVec.ofNat 64 v = BitVec.ofNat 64 (hexStep x a) := by
      rw [hexStep, hv, Option.getD_some, BitVec.ofNat_add, BitVec.ofNat_mul]
      rfl
    rw [List.cons_append, ParseHex, hv]
    dsimp only
    rw [hstep, ih hs, List.foldl_cons]

theorem ParseHex_bind {f : uptr × CString → Except Fault (Option Mapping × CString)} (h : Hex)
    (hc : hexDigit c = none) :
    (ParseHex 0 (h.text ++ c :: rest) >>= f) = f (BitVec.ofNat 64 h.value,c :: rest) := by
  have hparse : ParseHex 0 (h.text ++ c :: rest) = .ok (BitVec.ofNat 64 h.value,c :: rest) :=
    ParseHex_append (x := 0) h.digits hc
  rw [hparse]
  rfl

theorem skipDecimal_bind {f : CString → Except Fault (Option Mapping × CString)} (hs : ∀ c ∈ s, IsDecimal c)
    (hc : IsDecimal c = false) : (skipDecimal (s ++ c :: rest) >>= f) = f (c :: rest) := by
  induction s with
  | nil =>
    rw [List.nil_append, skipDecimal, if_neg (by simp [hc])]
    rfl
  | cons a s ih =>
    obtain ⟨ha,hs⟩ := List.forall_mem_cons.mp hs
    rw [List.cons_append, skipDecimal, if_pos ha, ih hs]

/-- The blanks end with the line. -/
theorem skipSpaces_append (s : CString) : skipSpaces rest.length (s ++ rest) = s.dropWhile (· = ' ') ++ rest := by
  induction s with
  | nil =>
    cases rest with
    | nil => rfl
    | cons c rest => rw [List.nil_append, skipSpaces, List.length_cons, if_neg (fun h => (lt_irrefl _ h.1).elim)]; rfl
  | cons a s ih =>
    rw [List.cons_append, skipSpaces, List.length_append]
    by_cases ha : a = ' '
    · rw [if_pos ⟨by omega,ha⟩, ih, List.dropWhile_cons_of_pos (by simpa using ha)]
    · rw [if_neg (fun h => ha h.2), List.dropWhile_cons_of_neg (by simpa using ha), List.cons_append]

/-! ## The file name -/

theorem store_copied {buffer : CString} (h : s.length < buffer.length) :
    store (copied buffer s) s.length c = .ok (copied buffer (s ++ [c])) := by
  obtain ⟨a,hdrop⟩ : ∃ a, buffer.drop s.length = a :: buffer.drop (s.length + 1) :=
    ⟨_,List.drop_eq_getElem_cons h⟩
  rw [store, copied, copied, if_pos (by rw [List.length_append, List.length_drop]; omega),
    List.set_append_right _ _ (le_refl _), Nat.sub_self, hdrop, List.set_cons_zero, List.length_append,
    List.length_singleton, List.append_assoc, List.singleton_append]

variable (b : FileBuffer)

/-- The part of a name that is copied. -/
def FileBuffer.cut (s : CString) : CString := s.take (b.filename_size.toNat - 1)

theorem FileBuffer.size_sub_one : (b.filename_size - 1).toNat = b.filename_size.toNat - 1 :=
  BitVec.toNat_sub_of_le (BitVec.le_def.mpr b.pos)

theorem FileBuffer.cut_lt : (b.cut s).length < b.filename.length := by
  have hpos := b.pos
  rw [FileBuffer.cut, List.length_take, b.length_eq]
  omega

theorem put_cut : put b.filename_size (some (copied b.filename (b.cut s))) (b.cut s).length c =
    .ok ((b.cut (s ++ [c])).length,some (copied b.filename (b.cut (s ++ [c])))) := by
  rw [put, b.size_sub_one]
  by_cases hlt : s.length < b.filename_size.toNat - 1
  · have hall : b.cut s = s := List.take_of_length_le hlt.le
    have hnext : b.cut (s ++ [c]) = s ++ [c] := List.take_of_length_le (by simpa using hlt)
    have hroom : s.length < b.filename.length := by
      rw [b.length_eq]
      omega
    rw [hall, hnext, if_pos hlt, store_copied hroom, List.length_append]
    rfl
  · have hlen : (b.cut s).length = b.filename_size.toNat - 1 := by
      rw [FileBuffer.cut, List.length_take]
      omega
    have hnext : b.cut (s ++ [c]) = b.cut s := List.take_append_of_le_length (by omega)
    rw [hnext, if_neg (by omega)]

/-- The characters in front of the end of the line go to the buffer. -/
theorem fill_cut (s t rest : CString) : fill rest.length b.filename_size (t ++ rest) (b.cut s).length (some (copied b.filename (b.cut s))) =
    .ok ((b.cut (s ++ t)).length,some (copied b.filename (b.cut (s ++ t)))) := by
  induction t generalizing s with
  | nil =>
    rw [List.nil_append, List.append_nil]
    cases rest with
    | nil => rfl
    | cons c rest => rw [fill, List.length_cons, if_neg (lt_irrefl _)]
  | cons c t ih =>
    rw [List.cons_append, fill, List.length_append, if_pos (by omega), put_cut]
    change fill _ _ _ _ _ = _
    rw [ih, List.append_assoc, List.singleton_append]

theorem fill_none {size : uptr} : fill left size s i none = .ok (i,none) := by
  induction s with
  | nil => rfl
  | cons c s ih =>
    rw [fill]
    split_ifs with h
    · exact ih
    · rfl

/-- The whole file name. -/
theorem fill_finish_bind {f : Option CString → Except Fault (Option Mapping × CString)} (b : Option FileBuffer)
    (s : CString) :
    (do
      let (i, filename) ← fill rest.length ((b.map FileBuffer.filename_size).getD 0) (s ++ rest) 0
        (b.map FileBuffer.filename)
      let filename ← finish ((b.map FileBuffer.filename_size).getD 0) i filename
      f filename) = f (b.map fun b : FileBuffer => b.named s) := by
  cases b with
  | none =>
    rw [Option.map_none, Option.map_none, fill_none]
    rfl
  | some b =>
    have hfill := fill_cut b [] s rest
    have hsize : (b.cut s).length < b.filename_size.toNat := b.length_eq ▸ b.cut_lt
    have hempty : b.cut [] = [] := List.take_nil
    rw [hempty, copied, List.nil_append, List.length_nil, List.drop_zero, List.nil_append] at hfill
    rw [Option.map_some, Option.map_some, Option.getD_some, hfill]
    dsimp only [bind, Except.bind]
    rw [finish, if_pos hsize, store_copied b.cut_lt]
    rfl

/-! ## The lines -/

theorem Line.newline_not_mem (l : Line) : '\n' ∉ l.text := by
  have hhex (h : Hex) : '\n' ∉ h.text := fun hmem => absurd (h.digits _ hmem) (by decide)
  have hperms : '\n' ∉ l.perms := by
    rw [Line.perms]
    cases l.read <;> cases l.write <;> cases l.exec <;> cases l.isPrivate <;> decide
  have hinode : '\n' ∉ l.inode := fun hmem => absurd (l.inode_digits _ hmem) (by decide)
  simp [Line.text, Line.last, hhex, hperms, hinode, l.name_newline, List.mem_replicate]

theorem Line.last_dropWhile (l : Line) : l.last.dropWhile (· = ' ') = l.name.dropWhile (· = ' ') := by
  rw [Line.last, List.dropWhile_append_of_pos fun c hc => by simpa using List.eq_of_mem_replicate hc]

/-- One call reads one line, and the blanks in front of the name are not part of it. -/
theorem Next_line (l : Line) (b : Option FileBuffer) (rest : CString) :
    Next (l.text ++ '\n' :: rest) (b.map FileBuffer.filename) ((b.map FileBuffer.filename_size).getD 0) =
      .ok (some (l.mapping (l.name.dropWhile (· = ' ')) b),rest) := by
  have hne : l.text ++ '\n' :: rest ≠ [] := List.append_ne_nil_of_right_ne_nil _ (List.cons_ne_nil _ _)
  have hend : (internal_memchr (l.text ++ '\n' :: rest) '\n' (l.text ++ '\n' :: rest).length).getD [] =
      '\n' :: rest := by
    rw [internal_memchr_eq, internal_strchr_append l.newline_not_mem, internal_strchr, if_pos rfl, Option.getD_some]
  have hread : ∀ f : Bool, IsOnOf (if f then 'r' else '-') '-' 'r' = true := by decide
  have hwrite : ∀ f : Bool, IsOnOf (if f then 'w' else '-') '-' 'w' = true := by decide
  have hexec : ∀ f : Bool, IsOnOf (if f then 'x' else '-') '-' 'x' = true := by decide
  have hshared : ∀ f : Bool, IsOnOf (if f then 'p' else 's') 's' 'p' = true := by decide
  rw [Next, if_neg hne, hend, Line.text, Line.perms]
  simp only [List.append_assoc, List.cons_append, List.nil_append]
  rw [ParseHex_bind l.start (by decide)]
  dsimp only
  rw [check_bind (by decide), ParseHex_bind l.end_ (by decide)]
  dsimp only
  rw [check_bind (by decide), check_bind (p := (IsOnOf · '-' 'r')) (hread l.read),
    check_bind (p := (IsOnOf · '-' 'w')) (hwrite l.write), check_bind (p := (IsOnOf · '-' 'x')) (hexec l.exec),
    check_bind (p := (IsOnOf · 's' 'p')) (hshared l.isPrivate), check_bind (by decide),
    ParseHex_bind l.offset (by decide)]
  dsimp only
  rw [check_bind (by decide), ParseHex_bind l.major (by decide)]
  dsimp only
  rw [check_bind (by decide), ParseHex_bind l.minor (by decide)]
  dsimp only
  rw [check_bind (by decide), skipDecimal_bind l.inode_digits (by decide), check_bind (by decide),
    skipSpaces_append, l.last_dropWhile]
  exact fill_finish_bind b (l.name.dropWhile (· = ' '))

/-- The lines come in their order, and behind the last one there is nothing more. -/
theorem calls_eq (lines : List Line) (bs : List (Option FileBuffer)) :
    calls (Reset (mapsText lines)) bs =
      .ok (bs.mapIdx fun i b => lines[i]?.map fun l => l.mapping (l.name.dropWhile (· = ' ')) b) := by
  rw [Reset]
  induction bs generalizing lines with
  | nil => rfl
  | cons b bs ih =>
    rw [List.mapIdx_cons, calls]
    cases lines with
    | nil =>
      have hrest := ih []
      change (do let rs ← calls (mapsText []) bs; Except.ok (none :: rs)) = _
      rw [hrest]
      rfl
    | cons l lines =>
      rw [mapsText, List.flatMap_cons, List.append_assoc, List.singleton_append, Next_line]
      change (do let rs ← calls (mapsText lines) bs; Except.ok (_ :: rs)) = _
      rw [ih]
      rfl

/-- A number of one digit. -/
def Hex.digit (c : Char) (h : (hexDigit c).isSome) : Hex :=
  ⟨[c],List.cons_ne_nil c [],List.forall_mem_singleton.mpr h⟩

/-- A line whose file name begins with a blank. -/
def blankLine : Line where
  start := .digit '1' rfl
  end_ := .digit '2' rfl
  read := true
  write := false
  exec := true
  isPrivate := true
  offset := .digit '0' rfl
  major := .digit '0' rfl
  minor := .digit '0' rfl
  inode := ['0']
  inode_ne_nil := List.cons_ne_nil _ _
  inode_digits := List.forall_mem_singleton.mpr rfl
  blanks := 0
  name := [' ','x']
  name_newline := by decide

def blankBuffer : FileBuffer := ⟨['a','b','c'],3,rfl,by decide⟩

/-- The blank is taken for one in front of the name. -/
theorem calls_blankLine : calls (Reset (mapsText [blankLine])) [some blankBuffer] ≠
    .ok ([some blankBuffer].mapIdx fun i b => [blankLine][i]?.map fun l => l.mapping l.name b) := by
  have hread : calls (Reset (mapsText [blankLine])) [some blankBuffer] =
      .ok [some ⟨1,2,0,some ['x','\x00','c']⟩] := by rfl
  rw [hread]
  intro h
  have hname := Except.ok.inj h
  revert hname
  decide

end

end CompilerRt.Sanitizer.ProcMaps
