import CompilerRt.Sanitizer.Flags
import CompilerRt.Sanitizer.Snprintf
import CompilerRt.Sanitizer.Symbolizer
import Mathlib

/-! # The symbolizer's response

`ExternalSymbolizer::SymbolizeCode` of `lib/sanitizer_common/sanitizer_symbolizer.cc`: the response is read into the
buffer that held the request, and taken apart there. A result is missing where a place behind a block of memory is
touched or a check fails.
-/
namespace CompilerRt.Sanitizer.Symbolizer

/-- What a block of memory holds from a pointer on. -/
abbrev Block := List Char

/-- A string in memory of its own. -/
def terminated (s : CString) : Block := s ++ ['\x00']

def internal_strcspn : Block → CString → Option ℕ
  | [], _ => none
  | c :: s, reject =>
    if c = '\x00' ∨ internal_strchr reject c ≠ none then some 0 else (internal_strcspn s reject).map (· + 1)

/-- The token, and the pointer behind its delimiter. -/
def ExtractToken (str : Block) (delims : CString) : Option (CString × Block) := do
  let prefix_len ← internal_strcspn str delims
  let prefix_end := str.drop prefix_len
  some (str.take prefix_len,if prefix_end.head? ≠ some '\x00' then prefix_end.drop 1 else prefix_end)

def ExtractInt (str : Block) (delims : CString) : Option (ℤ × Block) :=
  (ExtractToken str delims).map fun (buff, ret) => (toInt (internal_atoll buff),ret)

structure AddressInfo where
  address : BitVec 64
  module_ : Option CString
  module_offset : BitVec 64
  function : Option CString
  file : Option CString
  line : ℤ
  column : ℤ
  deriving DecidableEq, Repr

/-- `Clear` and `FillAddressAndModuleInfo`. -/
def clearedInfo (addr : BitVec 64) (r : Request) : AddressInfo :=
  ⟨addr,some r.module_name,r.module_offset,none,none,0,0⟩

/-- A name that is `??` is freed and set to null. -/
def known (name : CString) : Option CString := if internal_strcmp name "??".toList = 0 then none else some name

/-- `n` more frames at most, from `frame_id` on. -/
def framesLoop (addr : BitVec 64) (r : Request) : ℕ → ℕ → Block → List AddressInfo → Option (ℕ × List AddressInfo)
  | 0, frame_id, _, frames => some (frame_id,frames)
  | n + 1, frame_id, str, frames => do
    let (function_name, str) ← ExtractToken str ['\n']
    if function_name = [] then some (frame_id,frames)
    else do
      let (file_line_info, str) ← ExtractToken str ['\n']
      let (file, line_info) ← ExtractToken (terminated file_line_info) [':']
      let (line, line_info) ← ExtractInt line_info [':']
      let (column, _) ← ExtractInt line_info []
      if frame_id < frames.length then
        let info := { clearedInfo addr r with function := known function_name, file := known file, line, column }
        framesLoop addr r n (frame_id + 1) str (frames.set frame_id info)
      else none

/-- Memory with a string copied to a place of it, which has room for it. -/
def overwrite (buffer : Block) (p : ℕ) (s : CString) : Block := buffer.take p ++ s ++ buffer.drop (p + s.length)

/-- One read from a pipe in which the data has arrived in pieces; a pipe without any is closed. -/
def internal_read (count : ℕ) : List CString → CString × List CString
  | [] => ([],[])
  | piece :: pipe => (piece.take count,if piece.length ≤ count then pipe else piece.drop count :: pipe)

/-- The loop, with the result, the buffer and what is left in the pipe. -/
def readLoop (max_length : ℕ) : ℕ → ℕ → Block → List CString → Option (Bool × Block × List CString)
  | 0, _, _, _ => none
  | fuel + 1, read_len, buffer, pipe =>
    let (data, pipe) := internal_read (max_length - read_len) pipe
    if data = [] then some (false,buffer,pipe)
    else
      let buffer := overwrite buffer read_len data
      let read_len := read_len + data.length
      if 2 ≤ read_len ∧ (buffer)[read_len - 1]? = some '\n' ∧ (buffer)[read_len - 2]? = some '\n' then
        some (true,buffer,pipe)
      else readLoop max_length fuel read_len buffer pipe

def readFromSymbolizer (buffer : Block) (max_length : ℕ) (pipe : List CString) :
    Option (Bool × Block × List CString) :=
  if max_length = 0 then some (true,buffer,pipe) else readLoop max_length (max_length + 1) 0 buffer pipe

/-- `write_len` is the result of the system call, none for -1. -/
def writeToSymbolizer (write_len : Option ℕ) (length : ℕ) : Bool :=
  length = 0 || !(write_len = some 0 || write_len = none)

/-- `buffer` is what the memory of `buffer_data` holds before. -/
def SymbolizeCode (buffer : Block) (write_len : Option ℕ) (pipe : List CString) (addr : BitVec 64) (r : Request)
    (frames : List AddressInfo) (max_frames : ℕ) : Option (ℕ × List AddressInfo × List CString) :=
  let buffer_data := overwrite buffer 0 (terminated r.line)
  if writeToSymbolizer write_len r.line.length then do
    let (ok, buffer_data, pipe) ← readFromSymbolizer buffer_data kMaxBufferSize pipe
    if ok then
      if 0 < max_frames then do
        let (frame_id, frames) ← framesLoop addr r max_frames 0 buffer_data frames
        if frame_id = 0 then
          -- at least one frame is returned
          if 0 < frames.length then some (1,frames.set 0 (clearedInfo addr r),pipe) else none
        else some (frame_id,frames,pipe)
      else none
    else some (0,frames,pipe)
  else some (0,frames,pipe)

/-! ## Responses -/

/-- A frame that the symbolizer tells of. -/
structure Frame where
  function : CString
  file : CString
  line : ℤ
  column : ℤ
  function_ne_nil : function ≠ []
  function_plain : '\n' ∉ function ∧ '\x00' ∉ function
  file_plain : '\n' ∉ file ∧ ':' ∉ file ∧ '\x00' ∉ file
  line_int : -2 ^ 31 ≤ line ∧ line < 2 ^ 31
  column_int : -2 ^ 31 ≤ column ∧ column < 2 ^ 31

namespace Frame

def position (f : Frame) : CString :=
  f.file ++ ':' :: (Snprintf.signedText f.line ++ ':' :: Snprintf.signedText f.column)

def lines (f : Frame) : List CString := [f.function,f.position]

def info (addr : BitVec 64) (r : Request) (f : Frame) : AddressInfo where
  address := addr
  module_ := some r.module_name
  module_offset := r.module_offset
  function := if f.function = "??".toList then none else some f.function
  file := if f.file = "??".toList then none else some f.file
  line := f.line
  column := f.column

end Frame

def responseText (fs : List Frame) : CString := TextBlock.block '\n' (fs.flatMap Frame.lines)

section
variable {s t rest : CString} {c : Char} {delims : CString}

/-! ### Numbers -/

theorem digit_of_mem {n : ℕ} (h : c ∈ Nat.toDigits 10 n) : IsDigit c = true := by
  have hdigit := Nat.isDigit_of_mem_toDigits (by decide) le_rfl h
  simp only [Char.isDigit, Bool.and_eq_true, decide_eq_true_eq] at hdigit
  rw [IsDigit, Bool.and_eq_true, decide_eq_true_eq, decide_eq_true_eq]
  exact hdigit

theorem decimal_toDigits (n : ℕ) : decimal (Nat.toDigits 10 n) = n := Nat.ofDigitChars_ten_toDigits

theorem toDigits_head {n : ℕ} (h : c ∈ (Nat.toDigits 10 n).head?) : IsDigit c = true := digit_of_mem (List.mem_of_mem_head? h)

/-- What the characters of a number are. -/
theorem signedText_mem {v : ℤ} (h : c ∈ Snprintf.signedText v) : c = '-' ∨ IsDigit c = true := by
  rw [Snprintf.signedText] at h
  split_ifs at h with hneg
  · rcases List.mem_cons.mp h with rfl | hdigit
    · exact Or.inl rfl
    · exact Or.inr (digit_of_mem hdigit)
  · exact Or.inr (digit_of_mem h)

theorem number_plain (v : ℤ) : '\n' ∉ Snprintf.signedText v ∧ ':' ∉ Snprintf.signedText v ∧
    '\x00' ∉ Snprintf.signedText v := by
  refine ⟨fun h => ?_,fun h => ?_,fun h => ?_⟩
  · exact absurd (signedText_mem h) (by decide)
  · exact absurd (signedText_mem h) (by decide)
  · exact absurd (signedText_mem h) (by decide)

theorem number_signedText (v : ℤ) : Number [] (if v < 0 then ['-'] else []) (Nat.toDigits 10 v.natAbs) [] := by
  have hdigit : ∀ c ∈ (Nat.toDigits 10 v.natAbs).head?, ¬IsSpace c = true ∧ c ≠ '+' ∧ c ≠ '-' := by
    intro c hc
    have hdig := toDigits_head hc
    refine ⟨fun hspace => ?_,?_,?_⟩
    · simp only [IsSpace, Bool.or_eq_true, decide_eq_true_eq] at hspace
      rcases hspace with ((((rfl | rfl) | rfl) | rfl) | rfl) | rfl <;> exact absurd hdig (by decide)
    · rintro rfl
      exact absurd hdig (by decide)
    · rintro rfl
      exact absurd hdig (by decide)
  refine ⟨by simp,?_,fun c => digit_of_mem,?_,?_,by simp⟩
  · split_ifs
    · exact Or.inr (Or.inr rfl)
    · exact Or.inl rfl
  · rw [List.append_nil]
    split_ifs
    · intro c hc
      cases hc
      decide
    · exact fun c hc => (hdigit c hc).1
  · rw [List.append_nil]
    exact fun _ c hc => (hdigit c hc).2

theorem atoll_signedText {v : ℤ} (hv : -2 ^ 31 ≤ v ∧ v < 2 ^ 31) :
    toInt (internal_atoll (Snprintf.signedText v)) = v := by
  have htext : Snprintf.signedText v =
      [] ++ (if v < 0 then ['-'] else []) ++ Nat.toDigits 10 v.natAbs ++ [] := by
    rw [Snprintf.signedText]
    split_ifs <;> simp
  have hvalue : (if (if v < 0 then ['-'] else ([] : CString)) = ['-'] then (-1 : ℤ) else 1) * (v.natAbs : ℤ) = v := by
    split_ifs with h1 h2 h2 <;> first | omega | simp at h2
  rw [internal_atoll, htext, strtoll_number (number_signedText v), decimal_toDigits, hvalue, toInt, Int.bmod_def]
  unfold INT64_MAX INT64_MIN
  dsimp only
  split_ifs <;> omega

/-! ### Tokens -/

theorem strcspn_append (hs : ∀ a ∈ s, a ≠ '\x00' ∧ a ∉ delims) :
    internal_strcspn (s ++ rest) delims = (internal_strcspn rest delims).map (s.length + ·) := by
  induction s with
  | nil => simp
  | cons a s ih =>
    obtain ⟨ha,hs⟩ := List.forall_mem_cons.mp hs
    have hnone : internal_strchr delims a = none := by
      have happend := internal_strchr_append (r := []) ha.2
      rwa [List.append_nil] at happend
    rw [List.cons_append, internal_strcspn, if_neg (by simp [ha.1, hnone]), ih hs, Option.map_map]
    congr 1
    funext k
    simp only [Function.comp_apply, List.length_cons]
    omega

/-- A token that a delimiter ends. -/
theorem ExtractToken_delim (rest : Block) (hs : ∀ a ∈ s, a ≠ '\x00' ∧ a ∉ [c]) (hc : c ≠ '\x00') :
    ExtractToken (s ++ c :: rest) [c] = some (s,rest) := by
  have hspan : internal_strcspn (s ++ c :: rest) [c] = some s.length := by
    rw [strcspn_append hs, internal_strcspn, if_pos (by simp [internal_strchr])]
    rfl
  rw [ExtractToken, hspan]
  dsimp only [bind, Option.bind]
  rw [List.take_left, List.drop_left, if_pos (by simpa using hc)]
  rfl

/-- A token up to the end of its string. -/
theorem ExtractToken_terminated (hs : ∀ a ∈ s, a ≠ '\x00' ∧ a ∉ delims) :
    ExtractToken (terminated s) delims = some (s,['\x00']) := by
  have hspan : internal_strcspn (terminated s) delims = some s.length := by
    rw [terminated, strcspn_append hs, internal_strcspn, if_pos (Or.inl rfl)]
    rfl
  rw [ExtractToken, hspan]
  dsimp only [bind, Option.bind]
  rw [terminated, List.take_left, List.drop_left, if_neg (by simp)]

theorem internal_strcmp_eq_zero : internal_strcmp s t = 0 ↔ s = t := by
  induction s generalizing t with
  | nil =>
    cases t with
    | nil => simp [internal_strcmp]
    | cons b t =>
      rw [internal_strcmp]
      split_ifs <;> simp
  | cons a s ih =>
    cases t with
    | nil =>
      rw [internal_strcmp]
      split_ifs <;> simp
    | cons b t =>
      rw [internal_strcmp, List.cons.injEq]
      split_ifs with hne hlt
      · simp [hne]
      · simp [hne]
      · rw [ih]
        simp [not_ne_iff.mp hne]

theorem known_eq (name : CString) : known name = if name = "??".toList then none else some name := by
  rw [known]
  exact if_congr internal_strcmp_eq_zero rfl rfl

/-! ### Frames -/

variable {addr : BitVec 64} {r : Request} {frames : List AddressInfo} {f : Frame} {fs : List Frame}

theorem plain_token (hzero : '\x00' ∉ s) (hc : c ∉ s) : ∀ a ∈ s, a ≠ '\x00' ∧ a ∉ [c] := by
  intro a ha
  refine ⟨?_,?_⟩
  · rintro rfl
    exact hzero ha
  · intro hmem
    rw [List.mem_singleton] at hmem
    exact hc (hmem ▸ ha)

theorem Frame.position_plain (f : Frame) : ∀ a ∈ f.position, a ≠ '\x00' ∧ a ∉ ['\n'] := by
  obtain ⟨hfile,-,hzero⟩ := f.file_plain
  obtain ⟨hline,-,hline0⟩ := number_plain f.line
  obtain ⟨hcolumn,-,hcolumn0⟩ := number_plain f.column
  have hnewline : '\n' ∉ f.position := by simp [Frame.position, hfile, hline, hcolumn]
  have hzero : '\x00' ∉ f.position := by simp [Frame.position, hzero, hline0, hcolumn0]
  exact plain_token hzero hnewline

/-- The lines of one frame fill its entry. -/
theorem framesLoop_frame {n frame_id : ℕ} {str : Block} (hroom : frame_id < frames.length) :
    framesLoop addr r (n + 1) frame_id (f.function ++ '\n' :: (f.position ++ '\n' :: str)) frames =
      framesLoop addr r n (frame_id + 1) str (frames.set frame_id (f.info addr r)) := by
  obtain ⟨-,hcolon,hzero⟩ := f.file_plain
  obtain ⟨-,hline,hline0⟩ := number_plain f.line
  obtain ⟨-,-,hcolumn0⟩ := number_plain f.column
  have hfunction := ExtractToken_delim (f.position ++ '\n' :: str)
    (plain_token f.function_plain.2 f.function_plain.1) (by decide)
  have hposition := ExtractToken_delim str f.position_plain (by decide)
  have hfile : ExtractToken (terminated f.position) [':'] =
      some (f.file,Snprintf.signedText f.line ++ ':' :: terminated (Snprintf.signedText f.column)) := by
    have htoken := ExtractToken_delim (Snprintf.signedText f.line ++ ':' :: terminated (Snprintf.signedText f.column))
      (plain_token hzero hcolon) (by decide)
    rw [← htoken, terminated, terminated, Frame.position]
    simp only [List.append_assoc, List.cons_append]
  have hlineInt : ExtractInt (Snprintf.signedText f.line ++ ':' :: terminated (Snprintf.signedText f.column)) [':'] =
      some (f.line,terminated (Snprintf.signedText f.column)) := by
    rw [ExtractInt, ExtractToken_delim _ (plain_token hline0 hline) (by decide), Option.map_some]
    dsimp only
    rw [atoll_signedText f.line_int]
  have hcolumnInt : ExtractInt (terminated (Snprintf.signedText f.column)) [] = some (f.column,['\x00']) := by
    have hplain : ∀ a ∈ Snprintf.signedText f.column, a ≠ '\x00' ∧ a ∉ ([] : CString) := by
      intro a ha
      refine ⟨?_,List.not_mem_nil⟩
      rintro rfl
      exact hcolumn0 ha
    rw [ExtractInt, ExtractToken_terminated hplain, Option.map_some]
    dsimp only
    rw [atoll_signedText f.column_int]
  rw [framesLoop, hfunction]
  dsimp only [bind, Option.bind]
  rw [if_neg f.function_ne_nil, hposition]
  dsimp only
  rw [hfile]
  dsimp only
  rw [hlineInt]
  dsimp only
  rw [hcolumnInt]
  dsimp only
  rw [if_pos hroom, known_eq, known_eq]
  rfl

/-- The empty line ends the response, whatever is behind it. -/
theorem framesLoop_end {n frame_id : ℕ} {tail : Block} :
    framesLoop addr r n frame_id ('\n' :: tail) frames = some (frame_id,frames) := by
  cases n with
  | zero => rfl
  | succ n =>
    have htoken : ExtractToken ([] ++ '\n' :: tail) ['\n'] = some ([],tail) := ExtractToken_delim tail (by simp) (by decide)
    rw [List.nil_append] at htoken
    rw [framesLoop, htoken]
    rfl

/-- The entries from a place on are overwritten. -/
def fillFrom (frames : List AddressInfo) (p : ℕ) (infos : List AddressInfo) : List AddressInfo :=
  frames.take p ++ infos ++ frames.drop (p + infos.length)

theorem fillFrom_cons {p : ℕ} (h : p < frames.length) (info : AddressInfo) (infos : List AddressInfo) :
    fillFrom (frames.set p info) (p + 1) infos = fillFrom frames p (info :: infos) := by
  rw [fillFrom, fillFrom, List.take_set, List.drop_set_of_lt (by omega), List.take_succ_eq_append_getElem h,
    List.set_append_right _ _ (by rw [List.length_take]; omega), List.length_take, Nat.min_eq_left h.le, Nat.sub_self,
    List.set_cons_zero, List.append_assoc, List.append_assoc, List.append_assoc, List.singleton_append,
    List.cons_append, List.length_cons, Nat.add_right_comm, Nat.add_assoc]

/-- The loop takes as many frames as there are and as it may. -/
theorem framesLoop_spec (tail : Block) {n frame_id : ℕ} (hroom : frame_id + n ≤ frames.length) :
    framesLoop addr r n frame_id (responseText fs ++ tail) frames =
      some (frame_id + min fs.length n,fillFrom frames frame_id ((fs.take n).map (Frame.info addr r))) := by
  induction fs generalizing n frame_id frames with
  | nil =>
    rw [responseText, List.flatMap_nil, TextBlock.block, List.singleton_append, framesLoop_end]
    simp [fillFrom]
  | cons f fs ih =>
    cases n with
    | zero => simp [framesLoop, fillFrom]
    | succ n =>
      have htext : responseText (f :: fs) ++ tail =
          f.function ++ '\n' :: (f.position ++ '\n' :: (responseText fs ++ tail)) := by
        rw [responseText, List.flatMap_cons, Frame.lines, List.cons_append, List.singleton_append, TextBlock.block,
          TextBlock.block, ← responseText]
        simp only [List.append_assoc, List.cons_append]
      have hlt : frame_id < frames.length := by omega
      rw [htext, framesLoop_frame hlt, ih (by rw [List.length_set]; omega), fillFrom_cons hlt, List.take_succ_cons,
        List.map_cons, List.length_cons, Nat.add_min_add_right]
      congr 2
      omega

/-! ### Reading -/

theorem Frame.lines_proper (fs : List Frame) : TextBlock.Proper '\n' (fs.flatMap Frame.lines) := by
  intro l hl
  obtain ⟨f,-,hl⟩ := List.mem_flatMap.mp hl
  rw [Frame.lines, List.mem_cons, List.mem_singleton] at hl
  rcases hl with rfl | rfl
  · exact ⟨f.function_ne_nil,f.function_plain.1⟩
  · refine ⟨?_,fun h => (f.position_plain _ h).2 (List.mem_singleton.mpr rfl)⟩
    rw [Frame.position]
    exact List.append_ne_nil_of_right_ne_nil _ (List.cons_ne_nil _ _)

theorem responseText_ends (hne : fs ≠ []) : ∃ s, responseText fs = s ++ ['\n','\n'] := by
  refine TextBlock.block_ends ?_
  obtain ⟨f,fs,rfl⟩ := List.exists_cons_of_ne_nil hne
  rw [List.flatMap_cons, Frame.lines]
  exact List.cons_ne_nil _ _

/-- The buffer when a string was read to its begin. -/
def received (buffer : Block) (s : CString) : Block := s ++ buffer.drop s.length

theorem overwrite_received {buffer : Block} : overwrite (received buffer s) s.length t = received buffer (s ++ t) := by
  rw [overwrite, received, received, List.take_left, ← List.drop_drop, List.drop_left, List.drop_drop, List.length_append]

/-- The last two characters that were read. -/
theorem double_iff {buffer : Block} : (2 ≤ s.length ∧ (received buffer s)[s.length - 1]? = some '\n' ∧
    (received buffer s)[s.length - 2]? = some '\n') ↔ ∃ u, s = u ++ ['\n','\n'] := by
  constructor
  · rintro ⟨hlen,hlast,hsecond⟩
    rw [received, List.getElem?_append_left (by omega)] at hlast hsecond
    refine ⟨s.take (s.length - 2),?_⟩
    have hdrop : s.drop (s.length - 2) = ['\n','\n'] := by
      have hnext : s.length - 2 + 1 = s.length - 1 := by omega
      have hend : s.length - 1 + 1 = s.length := by omega
      obtain ⟨h1,hsecond⟩ := List.getElem?_eq_some_iff.mp hsecond
      obtain ⟨h2,hlast⟩ := List.getElem?_eq_some_iff.mp hlast
      rw [List.drop_eq_getElem_cons h1, hsecond, hnext, List.drop_eq_getElem_cons h2, hlast, hend, List.drop_length]
    rw [← hdrop, List.take_append_drop]
  · rintro ⟨u,rfl⟩
    rw [List.length_append]
    refine ⟨by simp,?_,?_⟩
    · rw [received, List.getElem?_append_left (by simp)]
      simp
    · rw [received, List.getElem?_append_left (by simp)]
      simp

/-- The response is read up to its end, in whatever pieces it comes. -/
theorem readLoop_spec (buffer : Block) (pipe : List CString) {fuel max_length : ℕ} {pieces : List CString}
    (hresponse : s ++ pieces.flatten = responseText fs) (hfits : (responseText fs).length ≤ max_length)
    (hpieces : ∀ t ∈ pieces, t ≠ []) (hne : pieces ≠ []) (hends : fs ≠ []) (hfuel : pieces.length < fuel) :
    readLoop max_length fuel s.length (received buffer s) (pieces ++ pipe) =
      some (true,received buffer (responseText fs),pipe) := by
  induction pieces generalizing s fuel with
  | nil => exact absurd rfl hne
  | cons t pieces ih =>
    obtain ⟨ht,hpieces⟩ := List.forall_mem_cons.mp hpieces
    obtain ⟨fuel,rfl⟩ : ∃ n, fuel = n + 1 := ⟨fuel - 1,by omega⟩
    rw [List.flatten_cons, ← List.append_assoc] at hresponse
    have hlen := congrArg List.length hresponse
    rw [List.length_append, List.length_append] at hlen
    have hroom : t.length ≤ max_length - s.length := by omega
    have hread : internal_read (max_length - s.length) (t :: pieces ++ pipe) = (t,pieces ++ pipe) := by
      rw [List.cons_append, internal_read, List.take_of_length_le hroom, if_pos hroom]
    rw [readLoop, hread]
    dsimp only
    rw [if_neg ht, overwrite_received, ← List.length_append]
    by_cases hdouble : ∃ u, s ++ t = u ++ ['\n','\n']
    · -- two line ends in a row are the end of the response
      have hrest := TextBlock.eq_nil_of_double (Frame.lines_proper fs) hresponse.symm hdouble
      have hpieces : pieces = [] := by
        by_contra hcons
        obtain ⟨u,pieces',rfl⟩ := List.exists_cons_of_ne_nil hcons
        rw [List.flatten_cons, List.append_eq_nil_iff] at hrest
        exact hpieces u List.mem_cons_self hrest.1
      rw [if_pos (double_iff.mpr hdouble), ← hresponse, hpieces, List.flatten_nil, List.append_nil, List.nil_append]
    · have hmore : pieces ≠ [] := by
        rintro rfl
        rw [List.flatten_nil, List.append_nil] at hresponse
        exact hdouble (hresponse ▸ responseText_ends hends)
      rw [if_neg (mt double_iff.mp hdouble)]
      exact ih hresponse hpieces hmore (by rw [List.length_cons] at hfuel; omega)

theorem length_le_flatten {pieces : List CString} (hpieces : ∀ t ∈ pieces, t ≠ []) :
    pieces.length ≤ pieces.flatten.length := by
  induction pieces with
  | nil => exact le_rfl
  | cons t pieces ih =>
    obtain ⟨ht,hpieces⟩ := List.forall_mem_cons.mp hpieces
    have hpos := List.length_pos_of_ne_nil ht
    have hle := ih hpieces
    rw [List.flatten_cons, List.length_append, List.length_cons]
    omega

/-- The first frames of the response are told of, and no byte that the buffer held before makes a difference. -/
theorem SymbolizeCode_frames {buffer : Block} {write_len max_frames : ℕ} {pieces pipe : List CString}
    (hwrite : 0 < write_len) (hresponse : pieces.flatten = responseText fs) (hpieces : ∀ t ∈ pieces, t ≠ [])
    (hne : fs ≠ []) (hfits : (responseText fs).length ≤ kMaxBufferSize) (hmax : 0 < max_frames)
    (hroom : max_frames ≤ frames.length) :
    SymbolizeCode buffer (some write_len) (pieces ++ pipe) addr r frames max_frames =
      some (min fs.length max_frames,
        (fs.take max_frames).map (Frame.info addr r) ++ frames.drop (min fs.length max_frames),pipe) := by
  have hsome : pieces ≠ [] := by
    rintro rfl
    obtain ⟨s,hs⟩ := responseText_ends hne
    rw [hs, List.flatten_nil] at hresponse
    simp at hresponse
  have hlen : pieces.length < kMaxBufferSize + 1 := by
    have hle := length_le_flatten hpieces
    rw [hresponse] at hle
    omega
  have hwritten : writeToSymbolizer (some write_len) r.line.length = true := by
    simp [writeToSymbolizer, hwrite.ne']
  have hread := readLoop_spec (s := []) (overwrite buffer 0 (terminated r.line)) pipe hresponse hfits hpieces hsome
    hne hlen
  have hcount : min fs.length max_frames ≠ 0 := by
    have hpos := List.length_pos_of_ne_nil hne
    omega
  have hstart : 0 + max_frames ≤ frames.length := by omega
  have hframes (tail : Block) : framesLoop addr r max_frames 0 (responseText fs ++ tail) frames = _ :=
    framesLoop_spec tail hstart
  rw [SymbolizeCode]
  dsimp only
  rw [List.length_nil, received, List.nil_append, List.length_nil, List.drop_zero] at hread
  rw [if_pos hwritten, readFromSymbolizer, if_neg (by decide), hread]
  dsimp only [bind, Option.bind]
  rw [if_pos rfl, if_pos hmax, received, hframes]
  dsimp only
  rw [Nat.zero_add, if_neg hcount, fillFrom, List.take_zero, List.nil_append, List.length_map, List.length_take,
    Nat.zero_add, Nat.min_comm max_frames]

end

def unknownFrame : Frame :=
  ⟨"??".toList,"a.c".toList,3,-1,by decide,by decide,by decide,by decide,by decide⟩

def mainFrame : Frame := ⟨"main".toList,"b.c".toList,17,0,by decide,by decide,by decide,by decide,by decide⟩

def mainRequest : Request := ⟨"/lib/b.so".toList,0x10,by decide⟩

/-- A response of two frames. -/
def mainPieces : List CString := ["??\na.".toList,"c:3:-1\nmain\nb.c:17:0\n\n".toList]

/-- Two frames in two pieces, and room for one of them. -/
theorem SymbolizeCode_first :
    SymbolizeCode (List.replicate kMaxBufferSize 'x') (some 20) (mainPieces ++ []) 0x1234 mainRequest
      [clearedInfo 0 mainRequest] 1 =
      some (1,[⟨0x1234,some mainRequest.module_name,0x10,none,some "a.c".toList,3,-1⟩],[]) := by
  have hresponse : mainPieces.flatten = responseText [unknownFrame,mainFrame] := by decide +kernel
  have hpieces : ∀ t ∈ mainPieces, t ≠ [] := by decide
  have hfits : (responseText [unknownFrame,mainFrame]).length ≤ kMaxBufferSize := by
    rw [← hresponse]
    decide
  exact SymbolizeCode_frames (by decide) hresponse hpieces (List.cons_ne_nil _ _) hfits (by decide) le_rfl

end CompilerRt.Sanitizer.Symbolizer
