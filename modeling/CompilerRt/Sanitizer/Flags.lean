import CompilerRt.Sanitizer.Libc
import Mathlib.Data.List.Chain
import Mathlib.Data.List.TakeWhile

/-! # Run-time options

`lib/sanitizer_common/sanitizer_flags.cc`: a flag is looked for by its name in the string of options.
-/
namespace CompilerRt.Sanitizer

/-- The `int` of a number. -/
def toInt (x : ℤ) : ℤ := x.bmod (2 ^ 32)

/-- The value that starts behind the sign of equality. -/
def valueAt (pos : CString) : CString × ℤ :=
  let (pos, stop) := match pos with
    | '"' :: pos => (pos, internal_strchr pos '"')
    | '\'' :: pos => (pos, internal_strchr pos '\'')
    | pos => (pos, internal_strchr pos ' ')
  -- without the character that ends it the value goes on to the end
  let stop := stop.getD []
  (pos, toInt (pos.length - stop.length))

/-- The pointer to the value, and its length. -/
def GetFlagValue (env : Option CString) (name : CString) : Option (CString × ℤ) :=
  match env with
  | none => none
  | some env =>
    match internal_strstr env name with
    | none => none
    | some pos =>
      match pos.drop (internal_strlen name) with
      | '=' :: pos => some (valueAt pos)
      | pos => some (pos, 0)

def StartsWith (flag : CString) (flag_length : ℤ) (value : CString) : Bool :=
  let value_length := internal_strlen value
  flag_length ≥ value_length && internal_strncmp flag value value_length = 0

namespace ParseFlag

def bool (env : Option CString) (flag : Bool) (name : CString) : Bool :=
  match GetFlagValue env name with
  | none => flag
  | some (value, value_length) =>
    let flag :=
      if StartsWith value value_length "0".toList || StartsWith value value_length "no".toList ||
        StartsWith value value_length "false".toList then false
      else flag
    if StartsWith value value_length "1".toList || StartsWith value value_length "yes".toList ||
      StartsWith value value_length "true".toList then true
    else flag

def int (env : Option CString) (flag : ℤ) (name : CString) : ℤ :=
  match GetFlagValue env name with
  | none => flag
  | some (value, _) => toInt (internal_atoll value)

/-- None where the copy of the value has a negative length. -/
def str (env : Option CString) (flag : CString) (name : CString) : Option CString :=
  match GetFlagValue env name with
  | none => some flag
  | some (value, value_length) => if value_length < 0 then none else some (value.take value_length.toNat)

end ParseFlag

/-! ## What options mean -/

inductive Quote where
  | single
  | double
  deriving DecidableEq

def Quote.char : Quote → Char
  | single => '\''
  | double => '"'

/-- `key=value` with the value in quotes or not, and the number of blanks behind it. -/
structure Token where
  key : CString
  quote : Option Quote
  value : CString
  blanks : ℕ
  key_plain : ' ' ∉ key ∧ '=' ∉ key
  value_plain : match quote with
    | none => ' ' ∉ value ∧ '"' ∉ value ∧ '\'' ∉ value
    | some q => q.char ∉ value

namespace Token
variable (t : Token)

def marks : CString := match t.quote with
  | none => []
  | some q => [q.char]

def text : CString := t.key ++ '=' :: t.marks ++ t.value ++ t.marks

end Token

def textOf : List Token → CString
  | [] => []
  | t :: ts => t.text ++ List.replicate t.blanks ' ' ++ textOf ts

/-- A string of tokens with blanks between any two. -/
structure Options where
  lead : ℕ
  tokens : List Token
  separated : tokens.IsChain fun t _ => 0 < t.blanks

def Options.text (o : Options) : CString := List.replicate o.lead ' ' ++ textOf o.tokens

/-- The first token with the key, what is in front of it and what is behind it. -/
def findKey (name : CString) : List Token → Option (CString × Token × CString)
  | [] => none
  | t :: ts =>
    if t.key = name then some ([],t,List.replicate t.blanks ' ' ++ textOf ts)
    else (findKey name ts).map fun r => (t.text ++ List.replicate t.blanks ' ' ++ r.1,r.2)

def Options.find (o : Options) (name : CString) : Option (CString × Token × CString) :=
  (findKey name o.tokens).map fun r => (List.replicate o.lead ' ' ++ r.1,r.2)

/-- What a value says about a flag of each type. -/
def readBool (value : CString) (flag : Bool) : Bool :=
  if "1".toList <+: value ∨ "yes".toList <+: value ∨ "true".toList <+: value then true
  else if "0".toList <+: value ∨ "no".toList <+: value ∨ "false".toList <+: value then false
  else flag

def readInt (value : CString) : ℤ := toInt (internal_atoll value)

/-- The flags get what the value of the first token of that name says, and keep what they have without one. -/
structure ReadsFirst (o : Options) (name : CString) : Prop where
  getFlagValue : GetFlagValue (some o.text) name =
    (o.find name).map fun (_,t,behind) => (t.value ++ t.marks ++ behind,t.value.length)
  bool : ∀ flag, ParseFlag.bool (some o.text) flag name =
    ((o.find name).elim flag fun (_,t,_) => readBool t.value flag)
  int : ∀ flag, ParseFlag.int (some o.text) flag name = ((o.find name).elim flag fun (_,t,_) => readInt t.value)
  str : ∀ flag, ParseFlag.str (some o.text) flag name = some ((o.find name).elim flag fun (_,t,_) => t.value)

/-- The name does not occur in front of the token that it is the key of, or at all. -/
def NameIsKey (o : Options) (name : CString) : Prop :=
  ∀ i ≤ o.text.length, name <+: o.text.drop i → ∃ r, o.find name = some r ∧ r.1.length ≤ i

/-- The value ends where a number ends: it has a length that an `int` has, and a blank value without quotes has no
number behind it. -/
def ValueEnds (t : Token) (behind : CString) : Prop :=
  t.value.length < 2 ^ 31 ∧ (t.quote = none → (∀ c ∈ t.value, IsSpace c) → readInt behind = 0)

/-! ## Tokens in the string -/

section Tokens
variable {ts : List Token} {t : Token} {o : Options} {name pre behind s : CString} {i : ℕ}

/-- The blanks around a token. -/
structure Between (pre behind : CString) : Prop where
  pre_blank : pre = [] ∨ ∃ p, pre = p ++ [' ']
  behind_blank : behind = [] ∨ ∃ b, behind = ' ' :: b

theorem blanks_cases (n : ℕ) : List.replicate n ' ' = [] ∨ ∃ b, List.replicate n ' ' = ' ' :: b := by
  cases n with
  | zero => exact Or.inl rfl
  | succ n => exact Or.inr ⟨_,rfl⟩

theorem blanks_concat {n : ℕ} (h : 0 < n) : ∃ b, List.replicate n ' ' = b ++ [' '] := by
  obtain ⟨n,rfl⟩ := Nat.exists_eq_succ_of_ne_zero h.ne'
  exact ⟨List.replicate n ' ',List.replicate_succ'⟩

theorem findKey_eq_some (hs : ts.IsChain fun t _ => 0 < t.blanks) (h : findKey name ts = some (pre,t,behind)) :
    textOf ts = pre ++ t.text ++ behind ∧ t.key = name ∧ Between pre behind := by
  induction ts generalizing pre with
  | nil => cases h
  | cons u ts ih =>
    rw [findKey] at h
    split_ifs at h with hkey
    · cases h
      refine ⟨by simp [textOf],hkey,Or.inl rfl,?_⟩
      cases ts with
      | nil => simpa [textOf] using blanks_cases t.blanks
      | cons v ts =>
        obtain ⟨n,hn⟩ := Nat.exists_eq_succ_of_ne_zero (List.isChain_cons_cons.mp hs).1.ne'
        exact Or.inr ⟨_,by rw [hn, List.replicate_succ, List.cons_append]⟩
    · obtain ⟨⟨p,r⟩,hr,heq⟩ := Option.map_eq_some_iff.mp h
      cases heq
      cases ts with
      | nil => cases hr
      | cons v ts =>
        obtain ⟨hblank,hs⟩ := List.isChain_cons_cons.mp hs
        obtain ⟨htext,hname,hbetween⟩ := ih hs hr
        refine ⟨by simp [textOf, ← htext],hname,Or.inr ?_,hbetween.behind_blank⟩
        rcases hbetween.pre_blank with rfl | ⟨p,rfl⟩
        · obtain ⟨b,hb⟩ := blanks_concat hblank
          exact ⟨u.text ++ b,by simp [hb]⟩
        · exact ⟨u.text ++ List.replicate u.blanks ' ' ++ p,by simp⟩

theorem Options.find_eq_some (h : o.find name = some (pre,t,behind)) :
    o.text = pre ++ t.text ++ behind ∧ t.key = name ∧ Between pre behind := by
  obtain ⟨⟨p,r⟩,hr,heq⟩ := Option.map_eq_some_iff.mp h
  cases heq
  obtain ⟨htext,hname,hbetween⟩ := findKey_eq_some o.separated hr
  refine ⟨by simp [Options.text, htext],hname,?_,hbetween.behind_blank⟩
  rcases hbetween.pre_blank with rfl | ⟨p,rfl⟩
  · rcases Nat.eq_zero_or_pos o.lead with hzero | hpos
    · exact Or.inl (by simp [hzero])
    · exact Or.inr (by simpa using blanks_concat hpos)
  · exact Or.inr ⟨List.replicate o.lead ' ' ++ p,by simp⟩

/-! ## Where the value is -/

theorem valueAt_plain (h : ∀ c ∈ s.head?, c ≠ '"' ∧ c ≠ '\'') :
    valueAt s = (s,toInt (s.length - ((internal_strchr s ' ').getD []).length)) := by
  cases s with
  | nil => rfl
  | cons c s =>
    obtain ⟨hdouble,hsingle⟩ := h c rfl
    unfold valueAt
    split
    next hmatch =>
      split at hmatch
      next heq =>
        cases heq
        exact absurd rfl hdouble
      next heq =>
        cases heq
        exact absurd rfl hsingle
      next =>
        cases hmatch
        rfl

theorem valueAt_quote (q : Quote) : valueAt (q.char :: s) =
    (s,toInt (s.length - ((internal_strchr s q.char).getD []).length)) := by
  cases q <;> rfl

/-- The value of a token is found behind its sign of equality. -/
theorem valueAt_token (hb : behind = [] ∨ ∃ b, behind = ' ' :: b) :
    valueAt (t.marks ++ t.value ++ t.marks ++ behind) = (t.value ++ t.marks ++ behind,toInt t.value.length) := by
  have hplain := t.value_plain
  cases hq : t.quote with
  | none =>
    rw [hq] at hplain
    obtain ⟨hblank,hdouble,hsingle⟩ := hplain
    have hmarks : t.marks = [] := by rw [Token.marks, hq]
    have hstop : (internal_strchr behind ' ').getD [] = behind := by
      rcases hb with rfl | ⟨b,rfl⟩
      · rfl
      · rfl
    simp only [hmarks, List.append_nil, List.nil_append]
    rw [valueAt_plain, internal_strchr_append hblank, hstop, List.length_append]
    · congr 2
      omega
    · intro c hc
      cases hv : t.value with
      | nil =>
        rw [hv] at hc
        rcases hb with rfl | ⟨b,rfl⟩
        · cases hc
        · cases hc
          decide
      | cons a v =>
        rw [hv] at hc hdouble hsingle
        cases hc
        simp only [List.mem_cons, not_or] at hdouble hsingle
        exact ⟨Ne.symm hdouble.1,Ne.symm hsingle.1⟩
  | some q =>
    rw [hq] at hplain
    have hmarks : t.marks = [q.char] := by rw [Token.marks, hq]
    have hstop : internal_strchr (q.char :: behind) q.char = some (q.char :: behind) := if_pos rfl
    simp only [hmarks, List.nil_append, List.cons_append, List.append_assoc]
    rw [valueAt_quote, internal_strchr_append hplain, hstop, Option.getD_some, List.length_append]
    congr 2
    omega

/-- At most a sign of equality and a quotation mark are skipped. -/
theorem valueAt_skips : ∃ skipped, s = skipped ++ (valueAt s).1 ∧ skipped.length ≤ 1 := by
  by_cases hplain : ∀ c ∈ s.head?, c ≠ '"' ∧ c ≠ '\''
  · rw [valueAt_plain hplain]
    exact ⟨[],rfl,Nat.zero_le _⟩
  · obtain ⟨q,r,rfl⟩ : ∃ (q : Quote) (r : CString), s = q.char :: r := by
      cases s with
      | nil => exact absurd (by simp) hplain
      | cons c s =>
        simp only [List.head?_cons, Option.mem_some_iff, forall_eq', not_and_or, not_ne_iff] at hplain
        rcases hplain with rfl | rfl
        · exact ⟨.double,s,rfl⟩
        · exact ⟨.single,s,rfl⟩
    rw [valueAt_quote]
    exact ⟨[q.char],rfl,le_rfl⟩

theorem GetFlagValue_skips (hs : internal_strstr o.text name = some s) : ∃ skipped value len,
    GetFlagValue (some o.text) name = some (value,len) ∧ s.drop name.length = skipped ++ value ∧
      skipped.length ≤ 2 ∧ (skipped = [] ∨ ∃ rest, skipped = '=' :: rest) := by
  rw [GetFlagValue]
  simp only [hs]
  split
  next pos heq =>
    obtain ⟨skipped,hpos,hle⟩ := valueAt_skips (s := pos)
    exact ⟨'=' :: skipped,(valueAt pos).1,(valueAt pos).2,rfl,by rw [heq, List.cons_append, ← hpos],by simpa using hle,Or.inr ⟨skipped,rfl⟩⟩
  next => exact ⟨[],_,_,rfl,rfl,Nat.zero_le _,Or.inl rfl⟩

/-! ## The first occurrence of the name -/

theorem Token.text_append (h : t.key = name) :
    (t.text ++ behind).drop name.length = '=' :: (t.marks ++ t.value ++ t.marks ++ behind) := by
  subst h
  simp [Token.text]

theorem getFlagValue_of_nameIsKey (h : NameIsKey o name) : GetFlagValue (some o.text) name =
    (o.find name).map fun (_,t,behind) => (t.value ++ t.marks ++ behind,toInt t.value.length) := by
  cases hfind : o.find name with
  | none =>
    have hnone : internal_strstr o.text name = none := by
      rw [internal_strstr_eq_none]
      intro i hi hocc
      obtain ⟨r,hr,-⟩ := h i hi hocc
      rw [hfind] at hr
      cases hr
    rw [GetFlagValue, hnone]
    rfl
  | some r =>
    obtain ⟨pre,t,behind⟩ := r
    obtain ⟨htext,hkey,hbetween⟩ := Options.find_eq_some hfind
    have hdrop : o.text.drop pre.length = t.text ++ behind := by simp [htext]
    have hsome : internal_strstr o.text name = some (t.text ++ behind) := by
      rw [internal_strstr_eq_some]
      refine ⟨pre.length,by simp [htext],?_,hdrop.symm,fun j hj hocc => ?_⟩
      · rw [hdrop, ← hkey]
        simp [Token.text]
      · obtain ⟨r,hr,hle⟩ := h j (by simp [htext]; omega) hocc
        rw [hfind] at hr
        cases hr
        exact Nat.not_lt.mpr hle hj
    simp only [GetFlagValue, hsome, Token.text_append hkey, Option.map_some]
    rw [valueAt_token hbetween.behind_blank]

theorem nameIsKey_of_getFlagValue (hname : ' ' ∉ name)
    (h : GetFlagValue (some o.text) name =
      (o.find name).map fun (_,t,behind) => (t.value ++ t.marks ++ behind,(t.value.length : ℤ))) : NameIsKey o name := by
  intro i hi hocc
  cases hstr : internal_strstr o.text name with
  | none => exact absurd hocc (internal_strstr_eq_none.mp hstr i hi)
  | some s =>
    obtain ⟨skipped,value,len,hget,hskip,hle,hshape⟩ := GetFlagValue_skips hstr
    rw [hget, eq_comm, Option.map_eq_some_iff] at h
    obtain ⟨⟨pre,t,behind⟩,hfind,heq⟩ := h
    cases heq
    refine ⟨_,hfind,?_⟩
    obtain ⟨htext,hkey,hbetween⟩ := Options.find_eq_some hfind
    obtain ⟨i₀,hi₀,hocc₀,rfl,hfirst⟩ := internal_strstr_eq_some.mp hstr
    have hle₀ : i₀ ≤ i := Nat.not_lt.mp fun hlt => hfirst i hlt hocc
    refine le_trans (Nat.not_lt.mp fun hlt => ?_) hle₀
    -- an earlier occurrence could only end there if it started one character before the token, with a blank
    dsimp only at hlt
    have hlen := congrArg List.length hskip
    have htot := congrArg List.length htext
    have hend := le_of_occurs hi₀ hocc₀
    simp only [Token.text, List.length_drop, List.length_append, List.length_cons, hkey] at hlen htot
    have hstart : i₀ + 1 = pre.length := by omega
    have htwo : skipped ≠ [] := by
      intro hnil
      rw [hnil, List.length_nil] at hlen
      omega
    obtain ⟨rest,rfl⟩ := hshape.resolve_left htwo
    obtain ⟨b,hblank⟩ : ∃ b, o.text.drop i₀ = ' ' :: b := by
      rcases hbetween.pre_blank with rfl | ⟨p,rfl⟩
      · cases hstart
      · have hp : i₀ = p.length := by simpa using hstart
        exact ⟨t.text ++ behind,by simp [htext, hp]⟩
    rw [hblank] at hocc₀ hskip
    cases name with
    | nil => cases hskip
    | cons c name =>
      obtain ⟨hc,-⟩ := List.cons_prefix_cons.mp hocc₀
      exact hname (by simp [hc])

/-! ## What the overloads read -/

theorem toInt_natCast {n : ℕ} : toInt n = n ↔ n < 2 ^ 31 := by
  rw [toInt, Int.bmod_def]
  split_ifs <;> omega

theorem startsWith_append {value rest k : CString} :
    StartsWith (value ++ rest) value.length k ↔ k <+: value := by
  simp only [StartsWith, ge_iff_le, Bool.and_eq_true, decide_eq_true_eq, Int.ofNat_le, internal_strncmp_eq_zero]
  constructor
  · intro ⟨hle,hpre⟩
    exact List.prefix_of_prefix_length_le hpre (List.prefix_append value rest) hle
  · intro hpre
    exact ⟨hpre.length_le,hpre.trans (List.prefix_append value rest)⟩

theorem readBool_eq (value rest : CString) (flag : Bool) :
    (if StartsWith (value ++ rest) value.length "1".toList || StartsWith (value ++ rest) value.length "yes".toList ||
      StartsWith (value ++ rest) value.length "true".toList then true
    else if StartsWith (value ++ rest) value.length "0".toList || StartsWith (value ++ rest) value.length "no".toList ||
      StartsWith (value ++ rest) value.length "false".toList then false
    else flag) = readBool value flag := by
  simp only [Bool.or_eq_true, startsWith_append, readBool, or_assoc]

theorem strtollDigits_append {res : ℕ} {have_digits : Bool} {s r : CString} (hr : ∀ c ∈ r.head?, ¬IsDigit c) :
    (strtollDigits res have_digits (s ++ r)).1 = (strtollDigits res have_digits s).1 := by
  induction s generalizing res have_digits with
  | nil =>
    cases r with
    | nil => rfl
    | cons c r =>
      have hc := hr c rfl
      simp [strtollDigits, hc]
  | cons c s ih =>
    rw [List.cons_append, strtollDigits, strtollDigits]
    by_cases hc : IsDigit c
    · rw [if_pos hc, if_pos hc]
      exact ih
    · rw [if_neg hc, if_neg hc]

theorem strtollSign_append (c : Char) (s r : CString) :
    strtollSign (c :: (s ++ r)) = ((strtollSign (c :: s)).1,(strtollSign (c :: s)).2 ++ r) := by
  by_cases hplus : c = '+'
  · subst hplus
    rfl
  · by_cases hminus : c = '-'
    · subst hminus
      rfl
    · simp [strtollSign, hplus, hminus]

/-- A number ends with a value that is not blank. -/
theorem atoll_append {s r : CString} (hs : ¬∀ c ∈ s, IsSpace c) (hr : ∀ c ∈ r.head?, ¬IsDigit c) :
    internal_atoll (s ++ r) = internal_atoll s := by
  have hne : s.dropWhile IsSpace ≠ [] := by
    rw [ne_eq, List.dropWhile_eq_nil_iff]
    exact hs
  obtain ⟨c,s',hc⟩ := List.exists_cons_of_ne_nil hne
  have happ : (s ++ r).dropWhile IsSpace = c :: (s' ++ r) := by
    rw [List.dropWhile_append, hc]
    rfl
  simp only [internal_atoll, internal_simple_strtoll, happ, hc, strtollSign_append, strtollDigits_append hr]

/-- A blank value is skipped. -/
theorem atoll_append_blank {s r : CString} (hs : ∀ c ∈ s, IsSpace c) : internal_atoll (s ++ r) = internal_atoll r := by
  rw [internal_atoll, internal_simple_strtoll, List.dropWhile_append_of_pos hs]
  rfl

theorem readInt_blank {s : CString} (hs : ∀ c ∈ s, IsSpace c) : readInt s = 0 := by
  rw [readInt, ← List.append_nil s, atoll_append_blank hs]
  rfl

/-- A quotation mark is no number. -/
theorem atoll_quote (q : Quote) : internal_atoll (q.char :: s) = 0 := by
  have hspace : (q.char :: s).dropWhile IsSpace = q.char :: s := by
    cases q <;> exact List.dropWhile_cons_of_neg (by decide)
  have hsign : strtollSign (q.char :: s) = (1,q.char :: s) := by
    cases q <;> rfl
  have hdigits : strtollDigits 0 false (q.char :: s) = (0,false,q.char :: s) := by
    cases q <;> exact if_neg (by decide)
  rw [internal_atoll, internal_simple_strtoll, hspace]
  dsimp only
  rw [hsign]
  dsimp only
  rw [hdigits]
  rfl

/-- The number that the `int` overload reads from the pointer to a value. -/
theorem readInt_value (hb : behind = [] ∨ ∃ b, behind = ' ' :: b) :
    toInt (internal_atoll (t.value ++ t.marks ++ behind)) =
      if t.quote = none ∧ ∀ c ∈ t.value, IsSpace c then readInt behind else readInt t.value := by
  have hdigit : ∀ c ∈ (t.marks ++ behind).head?, ¬IsDigit c := by
    cases hq : t.quote with
    | none =>
      rw [Token.marks, hq, List.nil_append]
      intro c hc
      rcases hb with rfl | ⟨b,rfl⟩
      · cases hc
      · cases hc
        decide
    | some q =>
      rw [Token.marks, hq]
      intro c hc
      cases hc
      cases q <;> decide
  rw [List.append_assoc]
  by_cases hblank : ∀ c ∈ t.value, IsSpace c
  · rw [atoll_append_blank hblank, readInt_blank hblank]
    cases hq : t.quote with
    | none =>
      rw [Token.marks, hq, List.nil_append, if_pos ⟨rfl,hblank⟩]
      rfl
    | some q =>
      rw [Token.marks, hq, List.singleton_append, atoll_quote, if_neg fun h => nomatch h.1]
      rfl
  · rw [atoll_append hblank hdigit, if_neg fun h => hblank h.2]
    rfl

/-- Each overload reads the first token of the name exactly where the name does not occur before it, and the value
has a length that an `int` holds and does not run into a number behind it. -/
theorem parseFlag_readsFirst (o : Options) (name : CString) (hname : ' ' ∉ name) : ReadsFirst o name ↔
    NameIsKey o name ∧ ∀ pre t behind, o.find name = some (pre,t,behind) → ValueEnds t behind := by
  constructor
  · intro h
    have hkey := nameIsKey_of_getFlagValue hname h.getFlagValue
    refine ⟨hkey,fun pre t behind hfind => ?_⟩
    have hget := h.getFlagValue
    have hint := h.int 0
    rw [ParseFlag.int, hget] at hint
    rw [getFlagValue_of_nameIsKey hkey] at hget
    simp only [hfind, Option.map_some, Option.elim_some, Option.some.injEq, Prod.mk.injEq, true_and] at hget hint
    refine ⟨toInt_natCast.mp hget,fun hq hblank => ?_⟩
    rw [readInt_value (Options.find_eq_some hfind).2.2.behind_blank, if_pos ⟨hq,hblank⟩, readInt_blank hblank] at hint
    exact hint
  · intro ⟨hkey,hends⟩
    have hget := getFlagValue_of_nameIsKey hkey
    cases hfind : o.find name with
    | none =>
      rw [hfind, Option.map_none] at hget
      constructor
      · rw [hget, hfind, Option.map_none]
      · intro flag
        rw [ParseFlag.bool, hget, hfind, Option.elim_none]
      · intro flag
        rw [ParseFlag.int, hget, hfind, Option.elim_none]
      · intro flag
        rw [ParseFlag.str, hget, hfind, Option.elim_none]
    | some r =>
      obtain ⟨pre,t,behind⟩ := r
      obtain ⟨hlen,hnumber⟩ := hends pre t behind hfind
      simp only [hfind, Option.map_some, toInt_natCast.mpr hlen] at hget
      constructor
      · rw [hget, hfind]
        rfl
      · intro flag
        rw [ParseFlag.bool, hget, hfind, List.append_assoc]
        exact readBool_eq t.value (t.marks ++ behind) flag
      · intro flag
        rw [ParseFlag.int, hget, hfind]
        dsimp only
        rw [readInt_value (Options.find_eq_some hfind).2.2.behind_blank]
        split_ifs with hrun
        · rw [hnumber hrun.1 hrun.2]
          exact (readInt_blank hrun.2).symm
        · rfl
      · intro flag
        rw [ParseFlag.str, hget, hfind]
        simp

/-- Other tokens do not matter then. -/
theorem ReadsFirst.congr {o' : Options} (h : ReadsFirst o name) (h' : ReadsFirst o' name)
    (hvalue : (o.find name).map (fun r => r.2.1.value) = (o'.find name).map fun r => r.2.1.value) :
    (∀ flag, ParseFlag.bool (some o.text) flag name = ParseFlag.bool (some o'.text) flag name) ∧
    (∀ flag, ParseFlag.int (some o.text) flag name = ParseFlag.int (some o'.text) flag name) ∧
    ∀ flag, ParseFlag.str (some o.text) flag name = ParseFlag.str (some o'.text) flag name := by
  have helim : ∀ {α : Type} (a : α) (f : CString → α), ((o.find name).elim a fun r => f r.2.1.value) =
      (o'.find name).elim a fun r => f r.2.1.value := by
    intro α a f
    have hmap : ∀ x : Option (CString × Token × CString), (x.elim a fun r => f r.2.1.value) =
        (x.map fun r => r.2.1.value).elim a f := by
      intro x
      cases x <;> rfl
    rw [hmap, hmap, hvalue]
  refine ⟨fun flag => ?_,fun flag => ?_,fun flag => ?_⟩
  · rw [h.bool, h'.bool]
    exact helim flag fun v => readBool v flag
  · rw [h.int, h'.int]
    exact helim flag readInt
  · rw [h.str, h'.str]
    exact congrArg some (helim flag id)

end Tokens

/-- A path that has the name of another flag in it. -/
def logPath : Options where
  lead := 0
  tokens := [⟨"log_path".toList,none,"/tmp/exitcode.log".toList,1,by decide,by decide⟩,
    ⟨"exitcode".toList,none,"7".toList,0,by decide,by decide⟩]
  separated := by simp

theorem parseFlag_logPath : logPath.text = "log_path=/tmp/exitcode.log exitcode=7".toList ∧
    ParseFlag.int (some logPath.text) 1 "exitcode".toList = 0 ∧ readInt "7".toList = 7 ∧
    ¬ReadsFirst logPath "exitcode".toList := by
  have hint : ParseFlag.int (some logPath.text) 1 "exitcode".toList = 0 := by decide +kernel
  refine ⟨by decide +kernel,hint,by decide +kernel,fun h => ?_⟩
  have hseven := h.int 1
  rw [hint] at hseven
  exact absurd hseven (by decide +kernel)

def twoFlags : Options where
  lead := 0
  tokens := [⟨"strip_path_prefix".toList,some .double,"/my dir/".toList,1,by decide,by decide⟩,
    ⟨"exitcode".toList,none,"7".toList,0,by decide,by decide⟩]
  separated := by simp

theorem parseFlag_twoFlags : ReadsFirst twoFlags "exitcode".toList := by
  refine (parseFlag_readsFirst twoFlags "exitcode".toList (by decide)).mpr ⟨?_,?_⟩
  · intro i hi hocc
    refine ⟨_,rfl,?_⟩
    have hfirst : ∀ i ≤ twoFlags.text.length, "exitcode".toList <+: twoFlags.text.drop i → 29 ≤ i := by decide +kernel
    exact hfirst i hi hocc
  · intro pre t behind hfind
    cases hfind
    exact ⟨by decide,fun _ h => absurd (h '7' (by decide)) (by decide)⟩

end CompilerRt.Sanitizer
