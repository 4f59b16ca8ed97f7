import CompilerRt.Sanitizer.Libc
import Mathlib

/-! # Suppressions

`SuppressionMatch` and `SuppressionParse` of `lib/tsan/rtl/tsan_suppressions.cc`: templates with stars are matched from
left to right, and a file of suppressions is read line by line.
-/
namespace CompilerRt.Tsan.Suppressions
open Sanitizer

/-! ## Matching -/

/-- The string that begins at a place of a buffer. Behind the buffer there is a final zero. -/
def cstring (buffer : List Char) (p : ℕ) : CString := (buffer.drop p).takeWhile (· ≠ '\x00')

/-- The place of the character in the string that begins at `p`. -/
def strchr (buffer : List Char) (p : ℕ) (c : Char) : Option ℕ :=
  (internal_strchr (cstring buffer p) c).map fun r => p + ((cstring buffer p).length - r.length)

/-- `if (tpos) tpos[0] = c`. -/
def poke (buffer : List Char) (tpos : Option ℕ) (c : Char) : List Char := match tpos with
  | none => buffer
  | some p => buffer.set p c

/-- The loop, with the template's buffer, the place in it and the rest of the string. -/
def matchLoop : ℕ → List Char → Option ℕ → CString → Option (Bool × List Char)
  | 0, _, _, _ => none
  | _ + 1, buffer, none, _ => some (true,buffer)
  | fuel + 1, buffer, some templ, str =>
    match cstring buffer templ with
    | [] => some (true,buffer)
    | c :: _ =>
      if c = '*' then matchLoop fuel buffer (some (templ + 1)) str
      else if str = [] then some (false,buffer)
      else
        let tpos := strchr buffer templ '*'
        let buffer := poke buffer tpos '\x00'
        let spos := internal_strstr str (cstring buffer templ)
        let len := internal_strlen (cstring buffer templ)
        let buffer := poke buffer tpos '*'
        match spos with
        | none => some (false,buffer)
        | some spos => matchLoop fuel buffer tpos (spos.drop len)

/-- The buffer that the template begins, with what it holds at the end. -/
def SuppressionMatch (templ : List Char) (str : Option CString) : Option (Bool × List Char) :=
  match str with
  | none => some (false,templ)
  | some [] => some (false,templ)
  | some (c :: str) => matchLoop (templ.length + 2) templ (some 0) (c :: str)

/-- The literal parts of a template. -/
def segments (templ : CString) : List CString := (templ.splitOn '*').filter (· ≠ [])

/-- The parts are in the string, one behind the other. -/
def Occur : List CString → CString → Prop
  | [], _ => True
  | seg :: segs, str => ∃ before behind, str = before ++ seg ++ behind ∧ Occur segs behind

section Match
variable {seg s t before : CString} {segs : List CString} {buffer : List Char}

theorem Occur.append_left (h : Occur segs s) : Occur segs (before ++ s) := by
  cases segs with
  | nil => trivial
  | cons seg segs =>
    obtain ⟨pre,behind,rfl,hrest⟩ := h
    exact ⟨before ++ pre,behind,by simp only [List.append_assoc],hrest⟩

/-- The first occurrence leaves the most for the other parts. -/
theorem occur_cons_iff : Occur (seg :: segs) s ↔
    ∃ r, internal_strstr s seg = some r ∧ Occur segs (r.drop seg.length) := by
  constructor
  · rintro ⟨pre,behind,rfl,hrest⟩
    have hhere : seg <+: (pre ++ seg ++ behind).drop pre.length := by
      rw [List.append_assoc, List.drop_left]
      exact List.prefix_append seg behind
    cases hfirst : internal_strstr (pre ++ seg ++ behind) seg with
    | none => exact absurd hhere (internal_strstr_eq_none.mp hfirst pre.length (by simp))
    | some r =>
      obtain ⟨i,-,-,rfl,hbefore⟩ := internal_strstr_eq_some.mp hfirst
      have hle : i ≤ pre.length := by
        by_contra hlt
        exact hbefore pre.length (Nat.lt_of_not_le hlt) hhere
      refine ⟨_,rfl,?_⟩
      have hbehind : behind = (pre ++ seg ++ behind).drop (pre.length + seg.length) := by
        rw [← List.length_append, List.drop_left]
      obtain ⟨k,hk⟩ := Nat.exists_eq_add_of_le (Nat.add_le_add_right hle seg.length)
      rw [hk, ← List.drop_drop] at hbehind
      rw [List.drop_drop, ← List.take_append_drop k (List.drop _ _), ← hbehind]
      exact hrest.append_left
  · rintro ⟨r,hfirst,hrest⟩
    obtain ⟨i,-,⟨behind,hbehind⟩,rfl,-⟩ := internal_strstr_eq_some.mp hfirst
    rw [← hbehind, List.drop_left] at hrest
    refine ⟨s.take i,behind,?_,hrest⟩
    rw [List.append_assoc, hbehind, List.take_append_drop]

theorem not_occur_nil (hseg : seg ≠ []) : ¬Occur (seg :: segs) [] := by
  rintro ⟨pre,behind,h,-⟩
  have hempty := List.append_eq_nil_iff.mp h.symm
  exact hseg (List.append_eq_nil_iff.mp hempty.1).2

theorem segments_star (t : CString) : segments ('*' :: t) = segments t := by
  have h : ('*' :: t).splitOn '*' = [] :: t.splitOn '*' :=
    List.splitOn_append_cons_self_of_not_mem (List.not_mem_nil (a := '*')) t
  rw [segments, h, List.filter_cons_of_neg (by simp)]
  rfl

theorem segments_append (hne : seg ≠ []) (hseg : '*' ∉ seg) (t : CString) :
    segments (seg ++ '*' :: t) = seg :: segments t := by
  rw [segments, List.splitOn_append_cons_self_of_not_mem hseg, List.filter_cons_of_pos (by simpa using hne)]
  rfl

theorem segments_self (hne : seg ≠ []) (hseg : '*' ∉ seg) : segments seg = [seg] := by
  rw [segments, List.splitOn_eq_singleton hseg, List.filter_cons_of_pos (by simpa using hne)]
  rfl

/-! ### The buffer -/

variable {p : ℕ}

theorem ne_zero_of_mem {c : Char} (h : c ∈ cstring buffer p) : c ≠ '\x00' := by
  simpa using List.mem_takeWhile_imp h

theorem drop_eq (buffer : List Char) (p : ℕ) :
    buffer.drop p = cstring buffer p ++ (buffer.drop p).dropWhile (· ≠ '\x00') :=
  List.takeWhile_append_dropWhile.symm

/-- A string goes on behind a first part of it. -/
theorem cstring_append (h : cstring buffer p = seg ++ t) : cstring buffer (p + seg.length) = t := by
  have hseg : ∀ c ∈ seg, decide (c ≠ '\x00') = true := fun c hc =>
    decide_eq_true (ne_zero_of_mem (h ▸ List.mem_append_left t hc))
  have hdrop := drop_eq buffer p
  rw [h, List.append_assoc] at hdrop
  have hwhole : cstring buffer p = seg ++ cstring buffer (p + seg.length) := by
    rw [cstring, cstring, ← List.drop_drop, hdrop, List.drop_left, List.takeWhile_append_of_pos hseg]
  exact List.append_cancel_left (hwhole.symm.trans h)

theorem lt_length_of_cons {c : Char} (h : cstring buffer p = c :: t) : p < buffer.length := by
  by_contra hge
  rw [cstring, List.drop_eq_nil_of_le (Nat.le_of_not_lt hge)] at h
  cases h

/-- What the pointer to the next star does to the buffer: the part in front of it is a string of its own while a zero
stands there. -/
theorem strchr_star (hseg : '*' ∉ seg) (h : cstring buffer p = seg ++ '*' :: t) :
    strchr buffer p '*' = some (p + seg.length) ∧ cstring (poke buffer (some (p + seg.length)) '\x00') p = seg ∧
      poke (poke buffer (some (p + seg.length)) '\x00') (some (p + seg.length)) '*' = buffer := by
  have hdrop := drop_eq buffer p
  rw [h, List.append_assoc, List.cons_append] at hdrop
  refine ⟨?_,?_,?_⟩
  · have hfind : internal_strchr (seg ++ '*' :: t) '*' = some ('*' :: t) := by
      rw [internal_strchr_append hseg, internal_strchr, if_pos rfl]
    rw [strchr, h, hfind, Option.map_some, List.length_append, Nat.add_sub_cancel]
  · have hseg' : ∀ c ∈ seg, decide (c ≠ '\x00') = true := fun c hc =>
      decide_eq_true (ne_zero_of_mem (h ▸ List.mem_append_left _ hc))
    rw [poke, cstring, List.drop_set, if_neg (by omega), Nat.add_sub_cancel_left, hdrop,
      List.set_append_right _ _ (le_refl _), Nat.sub_self, List.set_cons_zero, List.takeWhile_append_of_pos hseg',
      List.takeWhile_cons_of_neg (by simp), List.append_nil]
  · have hget : buffer[p + seg.length]? = some '*' := by
      rw [← List.getElem?_drop, hdrop, List.getElem?_append_right (le_refl _), Nat.sub_self, List.getElem?_cons_zero]
    rw [poke, poke, List.set_set]
    refine List.ext_getElem? fun i => ?_
    by_cases hi : i = p + seg.length
    · rw [hi, List.getElem?_set_self (List.getElem?_eq_some_iff.mp hget).1, hget]
    · rw [List.getElem?_set_ne (Ne.symm hi)]

theorem strchr_none (h : '*' ∉ cstring buffer p) : strchr buffer p '*' = none := by
  have hfind := internal_strchr_append (r := []) h
  rw [List.append_nil] at hfind
  rw [strchr, hfind]
  rfl

/-- A string is one part of a template, or goes on behind a star. -/
theorem star_cases (s : CString) : '*' ∉ s ∨ ∃ seg t, '*' ∉ seg ∧ s = seg ++ '*' :: t := by
  by_cases h : '*' ∈ s
  · obtain ⟨seg,t,heq,hseg⟩ := List.eq_append_cons_of_mem h
    exact Or.inr ⟨seg,t,hseg,heq⟩
  · exact Or.inl h

/-- The loop gives the buffer back as it was. -/
theorem matchLoop_spec {n : ℕ} (hp : p ≤ buffer.length) (hn : buffer.length + 1 < p + n) :
    ∃ b, matchLoop n buffer (some p) s = some (b,buffer) ∧ (b = true ↔ Occur (segments (cstring buffer p)) s) := by
  induction n generalizing p s with
  | zero => omega
  | succ n ih =>
    cases hrest : cstring buffer p with
    | nil =>
      refine ⟨true,?_,iff_of_true rfl trivial⟩
      rw [matchLoop, hrest]
    | cons c u =>
      have hlt := lt_length_of_cons hrest
      by_cases hstar : c = '*'
      · subst hstar
        obtain ⟨b,hb,hiff⟩ := ih (p := p + 1) (s := s) hlt (by omega)
        have hone : cstring buffer p = ['*'] ++ u := hrest
        have hnext : cstring buffer (p + 1) = u := cstring_append hone
        refine ⟨b,?_,?_⟩
        · rw [matchLoop, hrest]
          exact hb
        · rw [hiff, hnext, segments_star]
      · by_cases hs : s = []
        · have hseg : ∃ seg segs, seg ≠ [] ∧ segments (c :: u) = seg :: segs := by
            rcases star_cases (c :: u) with hnone | ⟨seg,t,hseg,heq⟩
            · exact ⟨c :: u,[],List.cons_ne_nil c u,segments_self (List.cons_ne_nil c u) hnone⟩
            · have hne : seg ≠ [] := by
                rintro rfl
                exact hstar (List.cons.inj heq).1
              exact ⟨seg,segments t,hne,heq ▸ segments_append hne hseg t⟩
          obtain ⟨seg,segs,hne,hsegs⟩ := hseg
          refine ⟨false,?_,?_⟩
          · rw [matchLoop, hrest]
            dsimp only
            rw [if_neg hstar, if_pos hs]
          · rw [hsegs, hs]
            exact iff_of_false Bool.false_ne_true (not_occur_nil hne)
        · rcases star_cases (c :: u) with hnone | ⟨seg,t,hseg,heq⟩
          · -- The last part: the pointer to the next star is null.
            have hself := segments_self (List.cons_ne_nil c u) hnone
            have hchr := strchr_none (hrest ▸ hnone)
            rw [matchLoop, hrest, hself]
            dsimp only
            rw [if_neg hstar, if_neg hs, hchr, poke, poke, hrest]
            cases hfirst : internal_strstr s (c :: u) with
            | none =>
              refine ⟨false,rfl,iff_of_false Bool.false_ne_true fun hocc => ?_⟩
              obtain ⟨r,hr,-⟩ := occur_cons_iff.mp hocc
              rw [hfirst] at hr
              cases hr
            | some r =>
              obtain ⟨k,rfl⟩ : ∃ k, n = k + 1 := ⟨n - 1,by omega⟩
              exact ⟨true,rfl,iff_of_true rfl (occur_cons_iff.mpr ⟨r,hfirst,trivial⟩)⟩
          · have hne : seg ≠ [] := by
              rintro rfl
              exact hstar (List.cons.inj heq).1
            obtain ⟨hchr,hcut,hback⟩ := strchr_star hseg (hrest.trans heq)
            have hnext : cstring buffer (p + seg.length) = '*' :: t := cstring_append (hrest.trans heq)
            have hpos := List.length_pos_of_ne_nil hne
            have hlast := lt_length_of_cons hnext
            rw [matchLoop, hrest]
            dsimp only
            rw [if_neg hstar, if_neg hs, hchr, hcut, hback, heq, segments_append hne hseg]
            cases hfirst : internal_strstr s seg with
            | none =>
              refine ⟨false,rfl,iff_of_false Bool.false_ne_true fun hocc => ?_⟩
              obtain ⟨r,hr,-⟩ := occur_cons_iff.mp hocc
              rw [hfirst] at hr
              cases hr
            | some r =>
              obtain ⟨b,hb,hiff⟩ := ih (p := p + seg.length) (s := r.drop seg.length) hlast.le (by omega)
              refine ⟨b,hb,?_⟩
              rw [hiff, hnext, segments_star, occur_cons_iff, hfirst]
              constructor
              · intro hocc
                exact ⟨r,rfl,hocc⟩
              · rintro ⟨r',hr',hocc⟩
                cases hr'
                exact hocc

/-- The literal parts of the template decide, and its buffer is given back as it was. -/
theorem SuppressionMatch_iff (templ : List Char) (str : Option CString) :
    ∃ b, SuppressionMatch templ str = some (b,templ) ∧
      ∀ s, str = some s → s ≠ [] → (b = true ↔ Occur (segments (cstring templ 0)) s) := by
  cases str with
  | none => exact ⟨false,rfl,fun s h => nomatch h⟩
  | some s =>
    cases s with
    | nil => exact ⟨false,rfl,fun s h hne => absurd (Option.some.inj h).symm hne⟩
    | cons c s =>
      have hloop : ∃ b, matchLoop (templ.length + 2) templ (some 0) (c :: s) = some (b,templ) ∧ _ :=
        matchLoop_spec (Nat.zero_le _) (by omega)
      obtain ⟨b,hb,hiff⟩ := hloop
      exact ⟨b,hb,fun s' h _ => Option.some.inj h ▸ hiff⟩

end Match

/-! ## Parsing -/

inductive SuppressionType
  | SuppressionRace
  | SuppressionMutex
  | SuppressionThread
  | SuppressionSignal
  deriving DecidableEq, Repr

structure Suppression where
  type : SuppressionType
  templ : CString
  deriving DecidableEq, Repr

/-- The ways in which the parser does not return: it dies, or copies a length below zero. -/
inductive Failure
  | die
  | wild
  deriving DecidableEq, Repr

def IsBlank (c : Char) : Bool := c = ' ' || c = '\t'

/-- The prefixes in the order in which they are tried. -/
def prefixes : List (SuppressionType × CString) :=
  [(.SuppressionRace,"race:".toList), (.SuppressionThread,"thread:".toList), (.SuppressionMutex,"mutex:".toList),
    (.SuppressionSignal,"signal:".toList)]

/-- The loop that takes blanks off the end, with the distance of `end2` from `line`. -/
def trimEnd (line : CString) : ℕ → ℕ
  | 0 => 0
  | n + 1 => if ((line)[n]?).any IsBlank then trimEnd line n else n + 1

/-- One line that is not skipped, up to `len` characters. -/
def parseLine (line : CString) (len : ℕ) : Except Failure Suppression :=
  let end2 := trimEnd line len
  match prefixes.find? fun t => internal_strncmp line t.2 t.2.length = 0 with
  | none => .error .die
  | some (stype,text) =>
    let line := line.drop text.length
    let size : ℤ := (end2 : ℤ) - text.length
    if 0 ≤ size then .ok ⟨stype,line.take size.toNat⟩ else .error .wild

/-- The loop over the lines, with the list so far. -/
def parseLoop : ℕ → CString → List Suppression → Option (Except Failure (List Suppression))
  | 0, _, _ => none
  | fuel + 1, line, head =>
    let line := line.dropWhile IsBlank
    let endp := (internal_strchr line '\n').getD []
    let len := line.length - endp.length
    let head' := if len ≠ 0 ∧ line.head? ≠ some '#' then (parseLine line len).map fun s => s :: head else .ok head
    match head' with
    | .error e => some (.error e)
    | .ok head =>
      match endp with
      | [] => some (.ok head)
      | _ :: line => parseLoop fuel line head

/-- The first suppression of the list comes from the last line. -/
def SuppressionParse (supp : Option CString) : Option (Except Failure (List Suppression)) := match supp with
  | none => some (.ok [])
  | some line => parseLoop (line.length + 1) line []

/-- The line has something else than blanks, and is no comment. -/
def Significant (line : CString) : Prop := line.dropWhile IsBlank ≠ [] ∧ (line.dropWhile IsBlank).head? ≠ some '#'

instance (line : CString) : Decidable (Significant line) := inferInstanceAs (Decidable (_ ∧ _))

/-- What a line stands for: the type by its prefix, and what follows without the blanks at its end. -/
def entry (line : CString) : Option Suppression :=
  let line := line.dropWhile IsBlank
  (prefixes.find? fun t => decide (t.2 <+: line)).map fun t => ⟨t.1,(line.drop t.2.length).rdropWhile IsBlank⟩

section Parse
variable {line rest : CString} {head : List Suppression}

theorem trimEnd_append (l r : CString) : trimEnd (l ++ r) l.length = (l.rdropWhile IsBlank).length := by
  induction l using List.reverseRecOn generalizing r with
  | nil => rfl
  | append_singleton l c ih =>
    have hget : (l ++ [c] ++ r)[l.length]? = some c := by
      rw [List.append_assoc, List.getElem?_append_right (le_refl _), Nat.sub_self]
      rfl
    rw [List.length_append, List.length_singleton, trimEnd, hget, Option.any_some]
    by_cases hc : IsBlank c = true
    · rw [if_pos hc, List.append_assoc, ih, List.rdropWhile_concat_pos _ _ _ hc]
    · rw [if_neg hc, List.rdropWhile_concat_neg _ _ _ hc, List.length_append, List.length_singleton]

/-- The blanks at the end are those of the last part, if the first one does not end with a blank. -/
theorem rdropWhile_append {text u : CString} (h : text.rdropWhile IsBlank = text) :
    (text ++ u).rdropWhile IsBlank = text ++ u.rdropWhile IsBlank := by
  induction u using List.reverseRecOn with
  | nil => rw [List.append_nil, h, List.rdropWhile_nil, List.append_nil]
  | append_singleton u c ih =>
    rw [← List.append_assoc]
    by_cases hc : IsBlank c = true
    · rw [List.rdropWhile_concat_pos _ _ _ hc, List.rdropWhile_concat_pos _ _ _ hc, ih]
    · rw [List.rdropWhile_concat_neg _ _ _ hc, List.rdropWhile_concat_neg _ _ _ hc, List.append_assoc]

theorem prefixes_spec : ∀ t ∈ prefixes, '\n' ∉ t.2 ∧ t.2.rdropWhile IsBlank = t.2 := by decide

/-- What follows a line. -/
def Ends (rest : CString) : Prop := rest = [] ∨ ∃ r, rest = '\n' :: r

/-- A prefix is looked for in the line only. -/
theorem prefix_append_iff {text : CString} (htext : '\n' ∉ text) (hrest : Ends rest) :
    text <+: line ++ rest ↔ text <+: line := by
  refine ⟨fun h => ?_,fun h => h.trans (List.prefix_append line rest)⟩
  rcases hrest with rfl | ⟨r,rfl⟩
  · rwa [List.append_nil] at h
  · rcases Nat.le_total text.length line.length with hle | hle
    · exact List.prefix_of_prefix_length_le h (List.prefix_append line _) hle
    · obtain ⟨u,rfl⟩ := List.prefix_of_prefix_length_le (List.prefix_append line _) h hle
      rw [List.prefix_append_right_inj] at h
      cases u with
      | nil => rw [List.append_nil]
      | cons c u =>
        rw [List.cons_prefix_cons] at h
        exact absurd (h.1 ▸ List.mem_append_right line List.mem_cons_self) htext

theorem find_prefix (hrest : Ends rest) :
    (prefixes.find? fun t => internal_strncmp (line ++ rest) t.2 t.2.length = 0) =
      prefixes.find? fun t => decide (t.2 <+: line) := by
  refine List.find?_congr fun t ht => ?_
  rw [decide_eq_decide, internal_strncmp_eq_zero, prefix_append_iff (prefixes_spec t ht).1 hrest]

/-- A line that is not skipped, from its first character on, gives its entry; no length is below zero. -/
theorem parseLine_eq (hblank : line.dropWhile IsBlank = line) (hrest : Ends rest) :
    parseLine (line ++ rest) line.length = match entry line with
      | none => .error .die
      | some s => .ok s := by
  rw [parseLine, find_prefix hrest, entry, hblank]
  dsimp only
  cases hfind : prefixes.find? fun t => decide (t.2 <+: line) with
  | none => rfl
  | some found =>
    obtain ⟨stype,text⟩ := found
    obtain ⟨-,htext⟩ := prefixes_spec _ (List.mem_of_find?_eq_some hfind)
    obtain ⟨u,rfl⟩ : text <+: line := by
      simpa only [decide_eq_true_eq] using
        List.find?_some (p := fun t : SuppressionType × CString => decide (t.2 <+: line)) hfind
    dsimp only at htext ⊢
    rw [trimEnd_append, rdropWhile_append htext, List.append_assoc, List.drop_left, Option.map_some]
    dsimp only
    rw [List.drop_left]
    have hsize : ((text ++ u.rdropWhile IsBlank).length : ℤ) - text.length = ((u.rdropWhile IsBlank).length : ℕ) := by
      rw [List.length_append]
      omega
    rw [hsize, if_pos (Int.natCast_nonneg _), Int.toNat_natCast]
    have htake : (u ++ rest).take (u.rdropWhile IsBlank).length = u.rdropWhile IsBlank :=
      (List.prefix_iff_eq_take.mp ((List.rdropWhile_prefix IsBlank u).trans (List.prefix_append u rest))).symm
    rw [htake]

theorem ends_of_newline (r : CString) : Ends ('\n' :: r) := Or.inr ⟨r,rfl⟩

theorem dropWhile_append (hrest : Ends rest) :
    (line ++ rest).dropWhile IsBlank = line.dropWhile IsBlank ++ rest := by
  induction line with
  | nil =>
    rcases hrest with rfl | ⟨r,rfl⟩
    · rfl
    · rfl
  | cons c line ih =>
    rw [List.cons_append]
    by_cases hc : IsBlank c = true
    · rw [List.dropWhile_cons_of_pos hc, List.dropWhile_cons_of_pos hc, ih]
    · rw [List.dropWhile_cons_of_neg hc, List.dropWhile_cons_of_neg hc, List.cons_append]

/-- What the lines stand for, if no one of them is wrong. -/
def parsed (lines : List CString) (head : List Suppression) : Except Failure (List Suppression) :=
  if ∃ l ∈ lines, Significant l ∧ entry l = none then .error .die
  else .ok (((lines.filter Significant).filterMap entry).reverse ++ head)

/-- The step for one line, which ends in front of `rest`. -/
def parseHead (line : CString) (head : List Suppression) : Except Failure (List Suppression) :=
  if Significant line then
    match entry line with
    | none => .error .die
    | some s => .ok (s :: head)
  else .ok head

theorem entry_dropWhile (line : CString) : entry (line.dropWhile IsBlank) = entry line := by
  rw [entry, entry, List.dropWhile_idempotent]

theorem parseLoop_line (head : List Suppression) {n : ℕ} (hline : '\n' ∉ line) (hrest : Ends rest) :
    parseLoop (n + 1) (line ++ rest) head = match parseHead line head with
      | .error e => some (.error e)
      | .ok head =>
        match rest with
        | [] => some (.ok head)
        | _ :: r => parseLoop n r head := by
  have hnot : '\n' ∉ line.dropWhile IsBlank := fun h => hline ((List.dropWhile_sublist _).subset h)
  have hend : (internal_strchr (line.dropWhile IsBlank ++ rest) '\n').getD [] = rest := by
    rw [internal_strchr_append hnot]
    rcases hrest with rfl | ⟨r,rfl⟩
    · rfl
    · rw [internal_strchr, if_pos rfl]
      rfl
  have hstep : (if (line.dropWhile IsBlank).length ≠ 0 ∧ (line.dropWhile IsBlank ++ rest).head? ≠ some '#'
      then (parseLine (line.dropWhile IsBlank ++ rest) (line.dropWhile IsBlank).length).map fun s => s :: head
      else .ok head) = parseHead line head := by
    rw [parseHead]
    by_cases hempty : line.dropWhile IsBlank = []
    · rw [hempty, if_neg (fun h => h.1 rfl), if_neg (fun h => h.1 hempty)]
    · have hhead : (line.dropWhile IsBlank ++ rest).head? = (line.dropWhile IsBlank).head? :=
        List.head?_append_of_ne_nil _ hempty
      have hlen : (line.dropWhile IsBlank).length ≠ 0 := fun h => hempty (List.length_eq_zero_iff.mp h)
      rw [hhead, parseLine_eq (List.dropWhile_idempotent _ _) hrest, entry_dropWhile]
      by_cases hcomment : (line.dropWhile IsBlank).head? = some '#'
      · rw [if_neg (fun h => h.2 hcomment), if_neg (fun h => h.2 hcomment)]
      · rw [if_pos ⟨hlen,hcomment⟩, if_pos ⟨hempty,hcomment⟩]
        cases entry line with
        | none => rfl
        | some s => rfl
  rw [parseLoop, dropWhile_append hrest, hend, List.length_append, Nat.add_sub_cancel, hstep]
  cases parseHead line head with
  | error e => rfl
  | ok head =>
    rcases hrest with rfl | ⟨r,rfl⟩
    · rfl
    · rfl

theorem parsed_cons (lines : List CString) : parsed (line :: lines) head = match parseHead line head with
    | .error e => .error e
    | .ok head => parsed lines head := by
  rw [parsed, parseHead]
  by_cases hsig : Significant line
  · rw [if_pos hsig, List.filter_cons_of_pos (by simpa using hsig)]
    cases hentry : entry line with
    | none => rw [if_pos ⟨line,List.mem_cons_self,hsig,hentry⟩]
    | some s =>
      rw [List.filterMap_cons_some hentry, List.reverse_cons, List.append_assoc, List.singleton_append]
      simp only [List.exists_mem_cons_iff, hentry, reduceCtorEq, and_false, false_or]
      rfl
  · rw [if_neg hsig, List.filter_cons_of_neg (by simpa using hsig)]
    simp only [List.exists_mem_cons_iff, hsig, false_and, false_or]
    rfl

/-- A text is one line, or goes on behind the end of one. -/
theorem parseLoop_spec {text : CString} {n : ℕ} (hn : text.length < n) :
    parseLoop n text head = some (parsed (text.splitOn '\n') head) := by
  induction n generalizing text head with
  | zero => omega
  | succ n ih =>
    by_cases hmem : '\n' ∈ text
    · obtain ⟨line,r,rfl,hline⟩ := List.eq_append_cons_of_mem hmem
      rw [List.length_append, List.length_cons] at hn
      rw [parseLoop_line head hline (ends_of_newline r), List.splitOn_append_cons_self_of_not_mem hline, parsed_cons]
      cases parseHead line head with
      | error e => rfl
      | ok head => exact ih (by omega)
    · have hline := parseLoop_line head (n := n) hmem (Or.inl rfl)
      rw [List.append_nil] at hline
      rw [hline, List.splitOn_eq_singleton hmem, parsed_cons]
      cases parseHead text head with
      | error e => rfl
      | ok head => rfl

end Parse

/-- The parser dies for a line that stands for nothing; without such a line it gives the entries, the last one first. -/
theorem SuppressionParse_eq (text : CString) :
    SuppressionParse (some text) = some
      (if ∃ l ∈ text.splitOn '\n', Significant l ∧ entry l = none then .error .die
      else .ok (((text.splitOn '\n').filter Significant).filterMap entry).reverse) := by
  rw [SuppressionParse, parseLoop_spec (Nat.lt_succ_self _), parsed, List.append_nil]

end CompilerRt.Tsan.Suppressions
