import CompilerRt.Sanitizer.Symbolizer
import Mathlib.Data.List.TakeWhile

/-! # Requests and responses

A request is read back when its line fits the symbolizer's own buffer and the module name is one token. Then there is
one response for each request, and it is read by the one who waits for it.
-/
namespace CompilerRt.Sanitizer.Symbolizer
variable {r : Request} {s rest l stdin : CString} {n : ℕ}

/-- What the symbolizer's line and tokens can hold. -/
def Request.Readable (r : Request) : Prop :=
  r.module_name ≠ [] ∧ ' ' ∉ r.module_name ∧ r.full.length < kMaxInputStringLength

/-- The number that an offset is written for. -/
def offsetValue : CString → Option ℕ
  | '0' :: 'x' :: digits => some (textValue 16 digits)
  | _ => none

/-- The line of the request is read as a whole, and gives its module name and its offset. -/
def ReadBack (r : Request) (rest : CString) : Prop :=
  ∃ offset, parseModuleNameAndOffset (r.line ++ rest) = some ((r.module_name,offset),rest) ∧
    offsetValue offset = some r.module_offset.toNat

/-! ## Lines -/

theorem offsetValue_offsetText (offset : BitVec 64) : offsetValue (offsetText offset) = some offset.toNat := by
  have hvalue : textValue 16 (unsignedText offset.toNat 16) = offset.toNat := by
    refine textValue_unsignedText (by decide) le_rfl (offset.isLt.trans ?_)
    decide
  exact congrArg some hvalue

theorem offsetText_plain (offset : BitVec 64) : ∀ c ∈ offsetText offset, c ∉ kDelimiters := by
  intro c hc
  rw [offsetText, List.mem_append] at hc
  rcases hc with hc | hc
  · have h0x : "0x".toList = ['0','x'] := rfl
    rw [h0x, List.mem_pair] at hc
    rcases hc with rfl | rfl
    · decide
    · decide
  · have hplain := unsignedText_plain (by decide) le_rfl c hc
    simp [kDelimiters, hplain]

theorem Request.line_eq (r : Request) : r.line = r.full.take (kMaxBufferSize - 1) := by
  have hname : AppendString kMaxBufferSize [] r.module_name = r.module_name.take (kMaxBufferSize - 1) :=
    appendString_take (s := [])
  have hchar : ∀ b, AppendChar kMaxBufferSize b '\n' = AppendString kMaxBufferSize b ['\n'] := fun b => rfl
  rw [Request.line, hname, appendString_take, AppendUnsigned, appendString_take, hchar, appendString_take, Request.full]
  congr 1
  simp [offsetText]

theorem Request.line_of_fits (h : r.Fits) : r.line = r.full := by
  rw [Request.line_eq, List.take_of_length_le]
  exact Nat.le_pred_of_lt h

theorem Request.Readable.fits (h : r.Readable) : r.Fits := h.2.2.trans (by decide)

/-! ## Reading a line -/

theorem fgets_append (h : fgets n stdin = some (l,rest)) : l ++ rest = stdin ∧ l.length ≤ n := by
  induction n generalizing stdin l with
  | zero =>
    cases h
    exact ⟨rfl,le_rfl⟩
  | succ n ih =>
    cases stdin with
    | nil => cases h
    | cons c stdin =>
      rw [fgets] at h
      split_ifs at h with hc
      · cases h
        exact ⟨rfl,by simp⟩
      · obtain ⟨⟨l',rest'⟩,hr,heq⟩ := Option.map_eq_some_iff.mp h
        cases heq
        obtain ⟨happ,hlen⟩ := ih hr
        exact ⟨by rw [List.cons_append, happ],by simpa using hlen⟩

/-- A line that fits is read up to its end. -/
theorem fgets_line (rest : CString) (hs : '\n' ∉ s) (hlen : s.length < n) : fgets n (s ++ '\n' :: rest) = some (s ++ ['\n'],rest) := by
  induction s generalizing n with
  | nil =>
    obtain ⟨n,rfl⟩ := Nat.exists_eq_succ_of_ne_zero (Nat.pos_of_lt_add_left hlen).ne'
    rfl
  | cons c s ih =>
    rw [List.mem_cons, not_or] at hs
    cases n with
    | zero => cases hlen
    | succ n =>
      rw [List.cons_append, fgets, if_neg (Ne.symm hs.1), ih hs.2 (by simpa using hlen)]
      rfl

/-! ## Tokens -/

/-- A token has no delimiters. -/
theorem strtok_plain {token delimiters : CString} (h : strtok s delimiters = some (token,rest)) :
    ∀ c ∈ token, c ∉ delimiters := by
  unfold strtok at h
  split at h
  · cases h
  · cases h
    intro c hc
    simpa using List.mem_takeWhile_imp hc

theorem strtok_eq {token delimiters : CString} {d : Char} (hne : token ≠ []) (hplain : ∀ c ∈ token, c ∉ delimiters)
    (hd : d ∈ delimiters) : strtok (token ++ d :: rest) delimiters = some (token,rest) := by
  obtain ⟨c,t,rfl⟩ := List.exists_cons_of_ne_nil hne
  have hc := hplain c List.mem_cons_self
  have hdrop : (c :: t ++ d :: rest).dropWhile (· ∈ delimiters) = c :: (t ++ d :: rest) :=
    List.dropWhile_cons_of_neg (by simpa using hc)
  rw [strtok, hdrop]
  dsimp only
  rw [← List.cons_append, List.takeWhile_append_of_pos (by simpa using hplain),
    List.dropWhile_append_of_pos (by simpa using hplain)]
  simp [hd]

theorem lineTokens_name : ∀ c ∈ (lineTokens s).1, c ∉ kDelimiters := by
  unfold lineTokens
  split
  · simp
  · next heq =>
    split <;> exact strtok_plain heq

/-- The two tokens of a request. -/
theorem lineTokens_full (hne : r.module_name ≠ []) (hblank : ' ' ∉ r.module_name) :
    lineTokens r.full = (r.module_name,offsetText r.module_offset) := by
  have hname : ∀ c ∈ r.module_name, c ∉ kDelimiters := by
    intro c hc
    have hspace : c ≠ ' ' := fun heq => hblank (heq ▸ hc)
    have hnl : c ≠ '\n' := fun heq => r.no_newline (heq ▸ hc)
    simp [kDelimiters, hspace, hnl]
  have hoff : offsetText r.module_offset ≠ [] := by simp [offsetText]
  have hfirst : strtok r.full kDelimiters = some (r.module_name,offsetText r.module_offset ++ ['\n']) := by
    rw [Request.full, List.append_assoc, List.cons_append]
    exact strtok_eq hne hname (by decide)
  have hsecond : strtok (offsetText r.module_offset ++ ['\n']) kDelimiters = some (offsetText r.module_offset,[]) :=
    strtok_eq hoff (offsetText_plain r.module_offset) (by decide)
  simp only [lineTokens, hfirst, hsecond]

theorem Request.full_eq (r : Request) :
    r.full = (r.module_name ++ ' ' :: offsetText r.module_offset) ++ ['\n'] ∧
      '\n' ∉ r.module_name ++ ' ' :: offsetText r.module_offset := by
  refine ⟨rfl,fun hmem => ?_⟩
  rcases List.mem_append.mp hmem with hmem | hmem
  · exact r.no_newline hmem
  · rcases List.mem_cons.mp hmem with heq | hmem
    · cases heq
    · exact offsetText_plain _ _ hmem (by decide)

theorem parse_line (rest : CString) (h : r.Readable) :
    parseModuleNameAndOffset (r.line ++ rest) = some ((r.module_name,offsetText r.module_offset),rest) := by
  obtain ⟨hfull,hnl⟩ := r.full_eq
  have hfits := h.fits
  obtain ⟨hne,hblank,hlen⟩ := h
  have hshort : (r.module_name ++ ' ' :: offsetText r.module_offset).length < kMaxInputStringLength - 1 := by
    rw [hfull, List.length_append, List.length_singleton] at hlen
    exact Nat.lt_sub_of_add_lt hlen
  have hget := fgets_line rest hnl hshort
  rw [parseModuleNameAndOffset, Request.line_of_fits hfits, hfull, List.append_assoc, List.singleton_append, hget,
    ← hfull, Option.map_some, lineTokens_full hne hblank]

/-- A request is read back as it was made exactly where the symbolizer can hold it. -/
theorem readBack_iff (hf : r.Fits) : ReadBack r rest ↔ r.Readable := by
  obtain ⟨hfull,hnl⟩ := r.full_eq
  constructor
  · rintro ⟨offset,hparse,-⟩
    obtain ⟨⟨l,rest'⟩,hget,heq⟩ := Option.map_eq_some_iff.mp hparse
    simp only [Prod.mk.injEq] at heq
    obtain ⟨htokens,rfl⟩ := heq
    obtain ⟨happ,hlen⟩ := fgets_append hget
    have hl : l = r.full := (List.append_cancel_right happ).trans (Request.line_of_fits hf)
    subst hl
    refine ⟨fun hnil => ?_,fun hblank => ?_,Nat.lt_of_le_pred (by decide) hlen⟩
    · -- the offset takes the place of the name
      have hoff : offsetText r.module_offset ≠ [] := by simp [offsetText]
      have hskip : strtok r.full kDelimiters = strtok (offsetText r.module_offset ++ ['\n']) kDelimiters := by
        rw [hfull, hnil]
        rfl
      have hfirst : strtok (offsetText r.module_offset ++ ['\n']) kDelimiters = some (offsetText r.module_offset,[]) :=
        strtok_eq hoff (offsetText_plain r.module_offset) (by decide)
      rw [← hskip] at hfirst
      have hname : (lineTokens r.full).1 = offsetText r.module_offset := by
        rw [lineTokens, hfirst]
        rfl
      rw [htokens, hnil] at hname
      exact hoff hname.symm
    · have hplain := lineTokens_name (s := r.full) ' '
      rw [htokens] at hplain
      exact hplain hblank (by decide)
  · intro h
    exact ⟨offsetText r.module_offset,parse_line _ h,offsetValue_offsetText r.module_offset⟩

/-! ## Responses -/

/-- What the debug information gives: at least one frame, whose names are lines; and so for demangled names. -/
structure Plain (cxa_demangle : CString → Option CString) (frames : CString → CString → List DILineInfo) : Prop where
  nonempty : ∀ m o, frames m o ≠ []
  function_ne : ∀ m o, ∀ f ∈ frames m o, f.functionName ≠ []
  function_line : ∀ m o, ∀ f ∈ frames m o, '\n' ∉ f.functionName
  file_line : ∀ m o, ∀ f ∈ frames m o, '\n' ∉ f.fileName
  demangled : ∀ s t, cxa_demangle s = some t → t ≠ [] ∧ '\n' ∉ t

variable {cxa_demangle : CString → Option CString} {frames : CString → CString → List DILineInfo}

theorem Plain.proper (h : Plain cxa_demangle frames) (m o : CString) :
    TextBlock.Proper '\n' ((frames m o).flatMap (printDILineInfo cxa_demangle)) := by
  intro line hline
  obtain ⟨f,hf,hline⟩ := List.mem_flatMap.mp hline
  simp only [printDILineInfo, List.mem_cons, List.not_mem_nil, or_false] at hline
  rcases hline with rfl | rfl
  · -- the function name, as it is or demangled
    have hname : (if f.functionName = kDILineInfoBadString then kSymbolizerBadString else f.functionName) ≠ [] ∧
        '\n' ∉ (if f.functionName = kDILineInfoBadString then kSymbolizerBadString else f.functionName) := by
      split_ifs
      · decide
      · exact ⟨h.function_ne m o f hf,h.function_line m o f hf⟩
    cases hd : cxa_demangle (if f.functionName = kDILineInfoBadString then kSymbolizerBadString else f.functionName) with
    | none => exact hname
    | some t => exact h.demangled _ t hd
  · constructor
    · simp
    · have hfile : '\n' ∉ (if f.fileName = kDILineInfoBadString then kSymbolizerBadString else f.fileName) := by
        split_ifs
        · decide
        · exact h.file_line m o f hf
      have hnumber : ∀ k, '\n' ∉ unsignedText k 10 := fun k hmem => (unsignedText_plain (by decide) (by decide) _ hmem).2 rfl
      simp [hfile, hnumber]

theorem endOfOutput_iff : endOfOutput s ↔ ∃ b, s = b ++ ['\n','\n'] := by
  rw [endOfOutput, List.isSuffixOf_iff_suffix]
  exact exists_congr fun b => eq_comm

/-! ## Runs -/

/-- The response to a request. -/
def response (cxa_demangle : CString → Option CString) (frames : CString → CString → List DILineInfo) (r : Request) :
    CString := symbolize cxa_demangle frames r.module_name (offsetText r.module_offset)

/-- The requests are answered in turn, and what is under way belongs to the one that is waited for. -/
structure InStep (cxa_demangle : CString → Option CString) (frames : CString → CString → List DILineInfo)
    (s : State) (rs : List Request) : Prop where
  requests : rs = s.answered.map Prod.fst ++ (s.current.map Prod.fst).toList
  answered : ∀ p ∈ s.answered, p.2 = response cxa_demangle frames p.1
  idle : s.current = none → s.stdin = [] ∧ s.stdout = []
  waiting : ∀ r buffer, s.current = some (r,buffer) → (s.stdin = r.line ∧ s.stdout = [] ∧ buffer = []) ∨
    (s.stdin = [] ∧ buffer ++ s.stdout = response cxa_demangle frames r ∧ ¬endOfOutput buffer)

/-- One step keeps the parties in step. -/
theorem InStep.step {s s' : State} {rs : List Request} {a : Act} (hp : Plain cxa_demangle frames)
    (h : InStep cxa_demangle frames s rs) (hr : ∀ r ∈ rs, r.Readable)
    (he : Symbolizer.step cxa_demangle frames s a = some s') : InStep cxa_demangle frames s' (rs ++ Symbolizer.requests [a]) := by
  obtain ⟨stdin,stdout,current,answered,times⟩ := s
  cases a with
  | SymbolizeCode r =>
    cases current with
    | some c => cases he
    | none =>
      cases he
      obtain ⟨hin,hout⟩ := h.idle rfl
      dsimp only at hin hout
      subst hin hout
      refine ⟨?_,h.answered,fun hidle => (nomatch hidle),fun r' buffer hcur => ?_⟩
      · rw [h.requests]
        simp [Symbolizer.requests]
      · cases hcur
        exact Or.inl ⟨rfl,rfl,rfl⟩
  | symbolize =>
    rw [show Symbolizer.requests [.symbolize] = [] from rfl, List.append_nil]
    cases current with
    | none =>
      obtain ⟨hin,-⟩ := h.idle rfl
      dsimp only at hin
      subst hin
      cases he
    | some c =>
      obtain ⟨r,buffer⟩ := c
      rcases h.waiting r buffer rfl with ⟨hin,hout,hbuf⟩ | ⟨hin,-⟩
      · dsimp only at hin hout
        subst hin hout hbuf
        have hread : r.Readable := hr r (by rw [h.requests]; simp)
        have hparse := parse_line [] hread
        rw [List.append_nil] at hparse
        simp only [Symbolizer.step, hparse] at he
        cases he
        refine ⟨h.requests,h.answered,fun hidle => (nomatch hidle),fun r' buffer hcur => ?_⟩
        cases hcur
        exact Or.inr ⟨rfl,rfl,by decide⟩
      · dsimp only at hin
        subst hin
        cases he
  | internal_read n =>
    rw [show Symbolizer.requests [.internal_read n] = [] from rfl, List.append_nil]
    cases current with
    | none => cases he
    | some c =>
      obtain ⟨r,buffer⟩ := c
      simp only [Symbolizer.step] at he
      split_ifs at he with hn hend
      · rcases h.waiting r buffer rfl with ⟨-,hout,-⟩ | ⟨hin,hresp,hopen⟩
        · dsimp only at hout
          subst hout
          exact absurd (hn.1.trans hn.2.1) (by decide)
        · cases he
          dsimp only at hin hresp
          have hsplit : response cxa_demangle frames r = (buffer ++ stdout.take n) ++ stdout.drop n := by
            rw [List.append_assoc, List.take_append_drop, hresp]
          have hrest : stdout.drop n = [] := TextBlock.eq_nil_of_double (hp.proper _ _) hsplit (endOfOutput_iff.mp hend)
          refine ⟨?_,fun p hmem => ?_,fun _ => ⟨hin,hrest⟩,fun r' buffer' hcur => (nomatch hcur)⟩
          · rw [h.requests]
            simp
          · rcases List.mem_append.mp hmem with hmem | hmem
            · exact h.answered p hmem
            · rw [List.mem_singleton.mp hmem, hsplit, hrest, List.append_nil]
      · rcases h.waiting r buffer rfl with ⟨-,hout,-⟩ | ⟨hin,hresp,hopen⟩
        · dsimp only at hout
          subst hout
          exact absurd (hn.1.trans hn.2.1) (by decide)
        · cases he
          refine ⟨h.requests,h.answered,fun hidle => (nomatch hidle),fun r' buffer' hcur => ?_⟩
          cases hcur
          refine Or.inr ⟨hin,?_,hend⟩
          rw [List.append_assoc, List.take_append_drop]
          exact hresp
  | Restart =>
    rw [show Symbolizer.requests [.Restart] = [] from rfl, List.append_nil]
    cases current with
    | none => cases he
    | some c =>
      obtain ⟨r,buffer⟩ := c
      simp only [Symbolizer.step] at he
      split_ifs at he
      cases he
      refine ⟨h.requests,h.answered,fun hidle => (nomatch hidle),fun r' buffer' hcur => ?_⟩
      cases hcur
      exact Or.inl ⟨rfl,rfl,rfl⟩

theorem requests_cons (a : Act) (es : List Act) : requests (a :: es) = requests [a] ++ requests es := by
  cases a <;> rfl

theorem InStep.run {s s' : State} {rs : List Request} {es : List Act} (hp : Plain cxa_demangle frames)
    (h : InStep cxa_demangle frames s rs) (hr : ∀ r ∈ rs ++ Symbolizer.requests es, r.Readable)
    (he : Transition.run (Symbolizer.step cxa_demangle frames) s es = some s') :
    InStep cxa_demangle frames s' (rs ++ Symbolizer.requests es) := by
  induction es generalizing s rs with
  | nil =>
    cases he
    rw [Symbolizer.requests, List.append_nil]
    exact h
  | cons a es ih =>
    rw [Transition.run_cons, Option.bind_eq_some_iff] at he
    obtain ⟨s₁,h₁,he⟩ := he
    rw [requests_cons, ← List.append_assoc] at hr ⊢
    exact ih (h.step hp (fun r hmem => hr r (by simp [hmem])) h₁) hr he

theorem InStep.init : InStep cxa_demangle frames init [] :=
  ⟨rfl,fun _ hp => (nomatch hp),fun _ => ⟨rfl,rfl⟩,fun _ _ hc => (nomatch hc)⟩

/-- A request that fits the runtime's buffer is read back as one line exactly where the module name is a token and the
line fits the symbolizer's buffer; and in a run with such requests only, the requests are answered in turn, each one
with its own response, whatever pieces the responses are read in. -/
theorem symbolizer_protocol (hp : Plain cxa_demangle frames) :
    (∀ r : Request, r.Fits → ∀ rest, ReadBack r rest ↔ r.Readable) ∧
    ∀ es s, (∀ r ∈ requests es, r.Readable) → Transition.run (step cxa_demangle frames) init es = some s →
      requests es = s.answered.map Prod.fst ++ (s.current.map Prod.fst).toList ∧
      ∀ p ∈ s.answered, p.2 = response cxa_demangle frames p.1 := by
  constructor
  · intro r hf rest
    exact readBack_iff hf
  · intro es s hr he
    have hinit : InStep cxa_demangle frames _ [] := .init
    have h := hinit.run hp hr he
    exact ⟨h.requests,h.answered⟩

/-- A module in a directory with a blank in its name. -/
def blankPath : Request := ⟨"/my dir/a.out".toList,0x10,by decide⟩

theorem readBack_blankPath : blankPath.Fits ∧ blankPath.line = "/my dir/a.out 0x10\n".toList ∧
    parseModuleNameAndOffset blankPath.line = some (("/my".toList,"dir/a.out".toList),[]) ∧ ¬ReadBack blankPath [] := by
  have hf : blankPath.Fits := by
    rw [Request.Fits]
    decide +kernel
  exact ⟨hf,by decide +kernel,by decide +kernel,fun h => ((readBack_iff hf).mp h).2.1 (by decide)⟩

def plainPath : Request := ⟨"/bin/a.out".toList,0x10,by decide⟩

/-- One frame for all that is asked. -/
def oneFrame (_ _ : CString) : List DILineInfo := [⟨"main".toList,"a.c".toList,3,1⟩]

/-- A response that is read in two pieces. -/
def pieces : List Act := [.SymbolizeCode plainPath,.symbolize,.internal_read 6,.internal_read 8]

theorem symbolizer_protocol_pieces : ∃ s, Transition.run (step (fun _ => none) oneFrame) init pieces = some s ∧
    s.answered.map Prod.snd = ["main\na.c:3:1\n\n".toList] ∧
    ∀ p ∈ s.answered, p.2 = response (fun _ => none) oneFrame p.1 := by
  have hp : Plain (fun _ => none) oneFrame := by
    constructor
    · intro m o
      simp [oneFrame]
    · intro m o f hf
      rw [List.mem_singleton.mp hf]
      decide
    · intro m o f hf
      rw [List.mem_singleton.mp hf]
      decide
    · intro m o f hf
      rw [List.mem_singleton.mp hf]
      decide
    · intro s t h
      cases h
  have hrun : (Transition.run (step (fun _ => none) oneFrame) init pieces).map (fun s => s.answered.map Prod.snd) =
      some ["main\na.c:3:1\n\n".toList] := by decide +kernel
  obtain ⟨s,hs,htext⟩ := Option.map_eq_some_iff.mp hrun
  refine ⟨s,hs,htext,((symbolizer_protocol hp).2 pieces s ?_ hs).2⟩
  intro r hr
  rw [List.mem_singleton.mp hr, Request.Readable]
  decide +kernel

end CompilerRt.Sanitizer.Symbolizer
