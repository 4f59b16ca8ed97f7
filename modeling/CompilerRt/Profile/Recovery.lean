import CompilerRt.Profile.Framing
import Mathlib

/-! # Records that `llvm_gcda_emit_arcs` rejects

What a call of the little-endian emitter does to a file of any contents: it writes its record over what it finds at
the position, or rejects that. After a rejection it has read the tag, or the tag and the length, and stays there.
-/
namespace CompilerRt.Profile.Recovery
open ByteOrder Framing

/-! ## What a call finds -/

/-- Another tag than that of counters, or another number of them. -/
def Rejects (n : BitVec 32) (bytes : List Byte) : Prop :=
  4 ≤ bytes.length ∧ wordAt bytes 0 ≠ -1 ∧
    (wordAt bytes 0 = 0x01a10000 → bytes.length < 8 ∨ wordAt bytes 4 = -1 ∨ wordAt bytes 4 / 2 ≠ n)

instance (n : BitVec 32) (bytes : List Byte) : Decidable (Rejects n bytes) :=
  inferInstanceAs (Decidable (_ ∧ _ ∧ (_ → _ ∨ _ ∨ _)))

/-- The counters to merge with, which are all -1 from the end of the file. -/
def foundCounter (bytes : List Byte) (j : ℕ) : BitVec 64 :=
  if 4 ≤ bytes.length ∧ wordAt bytes 0 ≠ -1 then (readCounter .little (bytes.drop (8 + 8 * j))).getD (-1) else 0

section Calls
variable {n : BitVec 32} {f : Stream}

theorem readInt32_of_le (h : 4 ≤ f.after.length) : readInt32 .little f =
    (wordAt f.after 0,⟨f.before ++ f.after.take 4,f.after.drop 4⟩) := by
  rw [readInt32, FileStream.fread, if_pos h]
  rfl

theorem readInt32_of_lt (h : f.after.length < 4) : readInt32 .little f = (-1,⟨f.before ++ f.after,[]⟩) := by
  rw [readInt32, FileStream.fread, if_neg (by omega)]

theorem readInt64_fst (f : Stream) : (readInt64 .little f).1 = (readCounter .little f.after).getD (-1) := by
  rw [readInt64, FileStream.fread, readCounter]
  by_cases h : 8 ≤ f.after.length
  · rw [if_pos h, if_pos h, Option.getD_some]
    dsimp only
    have hsplit : f.after.take 8 = f.after.take 4 ++ (f.after.drop 4).take 4 := by
      rw [← List.take_add]
    have hlen : (f.after.take 4).length = 4 := by
      rw [List.length_take]
      omega
    rw [hsplit, ofBytes_little_append, hlen]
    rfl
  · rw [if_neg h, if_neg h]
    rfl

theorem readInt64_after (f : Stream) : (readInt64 .little f).2.after = f.after.drop 8 := by
  rw [readInt64, FileStream.fread]
  by_cases h : 8 ≤ f.after.length
  · rw [if_pos h]
  · rw [if_neg h]
    exact (List.drop_eq_nil_of_le (by omega)).symm

theorem getD_readCounters {k j : ℕ} (f : Stream) (hj : j < k) :
    (readCounters .little k f).1.getD j 0 = (readCounter .little (f.after.drop (8 * j))).getD (-1) := by
  induction k generalizing f j with
  | zero => exact absurd hj (Nat.not_lt_zero j)
  | succ k ih =>
    rw [readCounters]
    cases j with
    | zero => exact readInt64_fst f
    | succ j =>
      have h := ih (readInt64 .little f).2 (Nat.lt_of_succ_lt_succ hj)
      rw [readInt64_after, List.drop_drop] at h
      rw [Nat.mul_succ, Nat.add_comm (8 * j) 8]
      exact h

/-- The read of the length, behind that of the tag. -/
theorem readInt32_length (f : Stream) : readInt32 .little ⟨f.before ++ f.after.take 4,f.after.drop 4⟩ =
    (if 8 ≤ f.after.length then wordAt f.after 4 else -1,⟨f.before ++ f.after.take 8,f.after.drop 8⟩) := by
  have hsplit : f.after.take 8 = f.after.take 4 ++ (f.after.drop 4).take 4 := by
    rw [← List.take_add]
  by_cases h : 8 ≤ f.after.length
  · have hle : 4 ≤ (f.after.drop 4).length := by
      rw [List.length_drop]
      omega
    rw [readInt32_of_le (f := ⟨f.before ++ f.after.take 4,f.after.drop 4⟩) hle, if_pos h, hsplit, List.append_assoc,
      List.drop_drop]
    rfl
  · have hlt : (f.after.drop 4).length < 4 := by
      rw [List.length_drop]
      omega
    rw [readInt32_of_lt (f := ⟨f.before ++ f.after.take 4,f.after.drop 4⟩) hlt, if_neg h, hsplit,
      List.take_of_length_le hlt.le, List.append_assoc, List.drop_eq_nil_of_le (Nat.le_of_not_le h)]

theorem arcsRecord_congr {c d : ℕ → BitVec 64} (h : ∀ j < n.toNat, c j = d j) :
    arcsRecord .little n c = arcsRecord .little n d := by
  rw [arcsRecord, countersBytes_congr .little h, arcsRecord]

/-- An accepted call writes its record at the position, with the counters it found added. -/
theorem emitArcs_of_not_rejects (c : ℕ → BitVec 64) (h : ¬Rejects n f.after) :
    emitArcs .little n c f = f.fwrite (arcsRecord .little n fun j => c j + foundCounter f.after j) := by
  have hcontents := readInt32_contents .little f
  by_cases hfound : 4 ≤ f.after.length ∧ wordAt f.after 0 ≠ -1
  · have hmatch : wordAt f.after 0 = 0x01a10000 ∧
        ¬(f.after.length < 8 ∨ wordAt f.after 4 = -1 ∨ wordAt f.after 4 / 2 ≠ n) := by
      by_contra hno
      exact h ⟨hfound.1,hfound.2,fun htag => by_contra fun hlen => hno ⟨htag,hlen⟩⟩
    obtain ⟨htag,hlen⟩ := hmatch
    have hle : 8 ≤ f.after.length := Nat.le_of_not_lt fun hlt => hlen (Or.inl hlt)
    have hcontents₂ := readInt32_contents .little ⟨f.before ++ f.after.take 4,f.after.drop 4⟩
    rw [readInt32_of_le hfound.1] at hcontents
    rw [readInt32_length] at hcontents₂
    rw [emitArcs, readInt32_of_le hfound.1]
    dsimp only
    rw [if_neg hfound.2, if_neg (not_not_intro htag), readInt32_length, if_pos hle]
    dsimp only
    rw [if_neg (fun hor => hlen (Or.inr hor)), writeArcs_eq,
      FileStream.fseek_of_contents ((readCounters_contents ..).trans (hcontents₂.trans hcontents)),
      arcsRecord_congr fun j hj => ?_]
    rw [foundCounter, if_pos hfound, Option.elim_some, getD_readCounters _ hj]
    dsimp only
    rw [List.drop_drop]
  · have hval : (readInt32 .little f).1 = -1 := by
      by_cases hlen : 4 ≤ f.after.length
      · rw [readInt32_of_le hlen]
        exact not_not.mp fun hne => hfound ⟨hlen,hne⟩
      · rw [readInt32_of_lt (Nat.not_le.mp hlen)]
    rw [emitArcs]
    dsimp only
    rw [if_pos hval, writeArcs_eq, FileStream.fseek_of_contents hcontents, arcsRecord_congr fun j _ => ?_]
    rw [foundCounter, if_neg hfound, Option.elim_none]

/-- A rejecting call has read a tag, or a tag and a length. -/
theorem emitArcs_of_rejects (c : ℕ → BitVec 64) (h : Rejects n f.after) : emitArcs .little n c f =
    if wordAt f.after 0 = 0x01a10000 then ⟨f.before ++ f.after.take 8,f.after.drop 8⟩
    else ⟨f.before ++ f.after.take 4,f.after.drop 4⟩ := by
  obtain ⟨hle,hne,hlen⟩ := h
  rw [emitArcs, readInt32_of_le hle]
  dsimp only
  rw [if_neg hne]
  by_cases htag : wordAt f.after 0 = 0x01a10000
  · rw [if_neg (not_not_intro htag), if_pos htag, readInt32_length]
    dsimp only
    rw [if_pos]
    rcases hlen htag with hlt | hval | hn
    · exact Or.inl (if_neg (Nat.not_le.mpr hlt))
    · exact Or.inl (by rw [hval, ite_self])
    · by_cases h8 : 8 ≤ f.after.length
      · rw [if_pos h8]
        exact Or.inr hn
      · exact Or.inl (if_neg h8)
  · rw [if_pos htag, if_neg htag]

end Calls

/-! ## Runs -/

/-- Where a record begins: the one that was found, the one behind it, or the one behind that to be written. -/
def AtBoundary (n : BitVec 32) (f : Stream) (pos : ℕ) : Prop :=
  pos = f.ftell ∨ (8 ≤ f.after.length ∧ pos = f.ftell + 8 + 4 * (wordAt f.after 4).toNat) ∨
    pos = f.ftell + recordSize (.arcs n)

/-- A call writes at the position it is called at, or changes nothing and leaves the position between records. -/
def Placed (c : ℕ → BitVec 64) (f : Stream) : Item → Stream → Prop
  | .function ident function_name, g => g = f.fwrite (record .little c (.function ident function_name))
  | .arcs n, g =>
    if Rejects n f.after then g.contents = f.contents ∧ AtBoundary n f g.ftell
    else g = f.fwrite (record .little (fun j => c j + foundCounter f.after j) (.arcs n))

/-- A rejected record is one of no counters, or the call is. -/
def Passable (f : Stream) : Item → Prop
  | .function _ _ => True
  | .arcs n => Rejects n f.after → wordAt f.after 0 = 0x01a10000 ∧ 8 ≤ f.after.length ∧ (wordAt f.after 4 = 0 ∨ n = 0)

/-- The property holds of every call of a run. -/
def EveryCall (P : (ℕ → BitVec 64) → Stream → Item → Prop) (v : Counters) : ℕ → List Item → Stream → Prop
  | _, [], _ => True
  | i, item :: items, f => P (v i) f item ∧ EveryCall P v (i + 1) items (emitStream .little (v i) item f)

section Placing
variable {n : BitVec 32} {c : ℕ → BitVec 64} {f : Stream} {item : Item} {items : List Item} {v : Counters} {i : ℕ}

theorem contents_take (k : ℕ) (f : Stream) :
    FileStream.contents ⟨f.before ++ f.after.take k,f.after.drop k⟩ = f.contents := by
  rw [FileStream.contents, List.append_assoc, List.take_append_drop, FileStream.contents]

/-- Behind the tag no record begins, and behind the length only if a record is empty. -/
theorem atBoundary_iff (h : Rejects n f.after) : AtBoundary n f (emitArcs .little n c f).ftell ↔
    wordAt f.after 0 = 0x01a10000 ∧ 8 ≤ f.after.length ∧ (wordAt f.after 4 = 0 ∨ n = 0) := by
  have hzero : ∀ w : BitVec 32, w = 0 ↔ w.toNat = 0 := fun w => BitVec.toNat_inj.symm
  rw [emitArcs_of_rejects c h, AtBoundary, hzero (wordAt f.after 4), hzero n, recordSize]
  have h4 := h.1
  by_cases htag : wordAt f.after 0 = 0x01a10000
  · rw [if_pos htag, and_iff_right htag]
    simp only [FileStream.ftell, List.length_append, List.length_take]
    omega
  · rw [if_neg htag]
    refine iff_of_false ?_ fun hp => htag hp.1
    simp only [FileStream.ftell, List.length_append, List.length_take]
    omega

theorem placed_iff : Placed c f item (emitStream .little c item f) ↔ Passable f item := by
  cases item with
  | function ident name => exact iff_of_true rfl trivial
  | arcs n =>
    rw [Placed, Passable, emitStream]
    by_cases h : Rejects n f.after
    · have hcontents : (emitArcs .little n c f).contents = f.contents := by
        rw [emitArcs_of_rejects c h]
        split_ifs
        · exact contents_take 8 f
        · exact contents_take 4 f
      rw [if_pos h, atBoundary_iff h]
      exact ⟨fun hp _ => hp.2,fun hp => ⟨hcontents,hp h⟩⟩
    · rw [if_neg h, emitArcs_of_not_rejects c h]
      exact iff_of_true rfl fun hr => absurd hr h

theorem everyCall_congr {P Q : (ℕ → BitVec 64) → Stream → Item → Prop} (h : ∀ c f item, P c f item ↔ Q c f item) :
    EveryCall P v i items f ↔ EveryCall Q v i items f := by
  induction items generalizing i f with
  | nil => exact Iff.rfl
  | cons item items ih => exact and_congr (h (v i) f item) ih

/-- Of every run on every file: all calls keep to the sequence of records if no rejected record has counters. -/
theorem run_placed_iff (bytes : List Byte) (items : List Item) (v : Counters) :
    EveryCall (fun c f item => Placed c f item (emitStream .little c item f)) v 0 items (started bytes) ↔
      EveryCall (fun _ f item => Passable f item) v 0 items (started bytes) :=
  everyCall_congr fun _ _ _ => placed_iff

/-- A file of one counter and a run with two: the next record begins inside of the old one. -/
theorem run_not_placed : ¬EveryCall (fun c f item => Placed c f item (emitStream .little c item f)) (fun _ _ => 0) 0
    [.arcs 2, .function 7 [0x66]] (started (fileImage .little (fun _ _ => 5) [.arcs 1])) := by
  intro h
  have hp := placed_iff.mp h.1
  have hr : Rejects 2 (started (fileImage .little (fun _ _ => 5) [.arcs 1])).after := by decide
  exact absurd (hp hr) (by decide)

end Placing

end CompilerRt.Profile.Recovery
