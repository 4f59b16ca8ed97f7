import CompilerRt.Profile.Accumulate
import Mathlib

/-! # Reading the records of a gcda file

A reader of the files that `lib/profile/GCDAProfiling.c` writes on a little-endian target. It goes from record to
record by their tags and lengths, and knows nothing else of the writer.
-/
namespace CompilerRt.Profile.Framing
open ByteOrder

/-- What a record says. -/
inductive Parsed where
  | function (ident : BitVec 32) (function_name : List Byte)
  | arcs (counters : List (BitVec 64))
  deriving DecidableEq

/-- The word at an offset. -/
def wordAt (bytes : List Byte) (k : ℕ) : BitVec 32 := BitVec.ofNat 32 (ofBytes .little ((bytes.drop k).take 4))

/-- The words of a payload, two for each counter. -/
def parseCounters (payload : List Byte) : List (BitVec 64) :=
  (List.range (payload.length / 8)).map fun j => (readCounter .little (payload.drop (8 * j))).getD 0

/-- An ident, two words that are zero, and a name with the number of its words before it. -/
def parseFunction (payload : List Byte) : Option Parsed :=
  if payload.length = 16 + 4 * (wordAt payload 12).toNat ∧ wordAt payload 4 = 0 ∧ wordAt payload 8 = 0 then
    some (.function (wordAt payload 0) ((payload.drop 16).takeWhile (· ≠ 0)))
  else none

def parsePayload (tag : BitVec 32) (payload : List Byte) : Option Parsed :=
  if tag = 0x01000000 then parseFunction payload
  else if tag = 0x01a10000 then some (.arcs (parseCounters payload))
  else none

/-- The records up to the end record, which is the end of the data. -/
def parseRecords : ℕ → List Byte → Option (List Parsed)
  | 0, _ => none
  | fuel + 1, bytes =>
    if bytes = List.replicate 8 0 then some []
    else
      let size := 4 * (wordAt bytes 4).toNat
      if 8 + size ≤ bytes.length then
        (parsePayload (wordAt bytes 0) ((bytes.drop 8).take size)).bind fun item =>
          (parseRecords fuel (bytes.drop (8 + size))).map (item :: ·)
      else none

def parseFile (file : List Byte) : Option (List Parsed) :=
  if file.take fileHeader.length = fileHeader then parseRecords file.length (file.drop fileHeader.length) else none

/-- What the reader should find. -/
def expected (c : ℕ → BitVec 64) : Item → Parsed
  | .function ident function_name => .function ident function_name
  | .arcs n => .arcs ((List.range n.toNat).map c)

def expectedAll (v : Counters) : ℕ → List Item → List Parsed
  | _, [] => []
  | i, item :: items => expected (v i) item :: expectedAll v (i + 1) items

/-- The length of the record fits its word. -/
def FitsWord : Item → Prop
  | .function _ function_name => 4 + (function_name.length / 4 + 1) < 2^32
  | .arcs n => 2 * n.toNat < 2^32

def NoZero : Item → Prop
  | .function _ function_name => 0 ∉ function_name
  | .arcs _ => True

/-! ## One record -/

section Record
variable {fuel : ℕ} {tag len : BitVec 32} {payload body rest : List Byte}

theorem wordAt_word (k : ℕ) (pre : List Byte) (i : BitVec 32) (r : List Byte) (h : pre.length = k) :
    wordAt (pre ++ (word .little i ++ r)) k = i := by
  have hval := ofBytes_toBytes_of_lt .little (k := 4) i.isLt
  subst h
  rw [wordAt, List.drop_left, List.take_append_of_le_length (length_word .little i).ge,
    List.take_of_length_le (length_word .little i).le, word, hval, BitVec.ofNat_toNat, BitVec.setWidth_eq]

/-- The reader takes what the length word says. -/
theorem parseRecords_cons (htag : tag ≠ 0) (hle : 4 * len.toNat ≤ body.length) :
    parseRecords (fuel + 1) (word .little tag ++ (word .little len ++ body)) =
      (parsePayload tag (body.take (4 * len.toNat))).bind fun item =>
        (parseRecords fuel (body.drop (4 * len.toNat))).map (item :: ·) := by
  have hword0 : wordAt (word .little tag ++ (word .little len ++ body)) 0 = tag :=
    wordAt_word 0 [] tag (word .little len ++ body) rfl
  have hword4 : wordAt (word .little tag ++ (word .little len ++ body)) 4 = len :=
    wordAt_word 4 _ len body (length_word .little tag)
  have hend : word .little tag ++ (word .little len ++ body) ≠ List.replicate 8 0 := by
    intro heq
    rw [heq] at hword0
    exact htag (hword0.symm.trans (by decide))
  have hdrop : ∀ k, (word .little tag ++ (word .little len ++ body)).drop (8 + k) = body.drop k := by
    intro k
    rw [← List.append_assoc]
    exact drop_add_append (by simp) k body
  have hdrop8 := hdrop 0
  rw [Nat.add_zero, List.drop_zero] at hdrop8
  rw [parseRecords, if_neg hend]
  dsimp only
  rw [hword0, hword4, if_pos (by simp; omega), hdrop8, hdrop]

/-- A payload of the length that its word says. -/
theorem parseRecords_payload (htag : tag ≠ 0) (hlen : payload.length = 4 * len.toNat) :
    parseRecords (fuel + 1) (word .little tag ++ (word .little len ++ (payload ++ rest))) =
      (parsePayload tag payload).bind fun item => (parseRecords fuel rest).map (item :: ·) := by
  rw [parseRecords_cons htag (by rw [List.length_append]; omega), ← hlen, List.take_left, List.drop_left]

end Record

/-! ## Counters -/

section Counters
variable {n : ℕ} {c : ℕ → BitVec 64}

theorem parseCounters_countersBytes (n : ℕ) (c : ℕ → BitVec 64) :
    parseCounters (countersBytes .little n c) = (List.range n).map c := by
  rw [parseCounters, length_countersBytes, Nat.mul_div_cancel_left n (by decide)]
  refine List.map_congr_left fun j hj => ?_
  obtain ⟨r,hr⟩ := countersBytes_drop .little c (List.mem_range.mp hj)
  rw [hr, readCounter_counterBytes, Option.getD_some]

theorem toNat_mul_two (n : BitVec 32) : (n * 2).toNat = n.toNat * 2 % 2^32 := by
  have htwo : (2 : BitVec 32).toNat = 2 := rfl
  rw [BitVec.toNat_mul, htwo]

theorem length_parseCounters (payload : List Byte) : (parseCounters payload).length = payload.length / 8 := by
  rw [parseCounters, List.length_map, List.length_range]

end Counters

/-! ## Names -/

section Names
variable {ident : BitVec 32} {name rest : List Byte}

/-- What follows tag and length of a function record. -/
def functionPayload (ident : BitVec 32) (name : List Byte) : List Byte :=
  word .little ident ++ (word .little 0 ++ (word .little 0 ++ (word .little (lengthOfString name) ++
    (name ++ List.replicate (4 - name.length % 4) 0))))

theorem functionRecord_eq (ident : BitVec 32) (name : List Byte) : functionRecord .little ident name =
    word .little 0x01000000 ++ (word .little (3 + 1 + lengthOfString name) ++ functionPayload ident name) := by
  have htag : functionTag = word .little 0x01000000 := by decide
  rw [functionRecord, functionPayload, htag]
  simp only [List.append_assoc]

theorem length_functionPayload : (functionPayload ident name).length = 4 * (4 + (name.length / 4 + 1)) := by
  simp only [functionPayload, List.length_append, length_word, List.length_replicate]
  omega

theorem toNat_lengthOfString (h : name.length / 4 + 1 < 2^32) : (lengthOfString name).toNat = name.length / 4 + 1 := by
  rw [lengthOfString, BitVec.toNat_ofNat, Nat.mod_eq_of_lt h]

theorem toNat_functionLength (name : List Byte) :
    (3 + 1 + lengthOfString name).toNat = (4 + (name.length / 4 + 1)) % 2^32 := by
  have hfour : (3 + 1 : BitVec 32).toNat = 4 := rfl
  rw [BitVec.toNat_add, hfour, lengthOfString, BitVec.toNat_ofNat, Nat.add_mod_mod]

theorem parseFunction_payload (h : 4 + (name.length / 4 + 1) < 2^32) (h0 : 0 ∉ name) :
    parseFunction (functionPayload ident name) = some (.function ident name) := by
  have hword0 : wordAt (functionPayload ident name) 0 = ident := wordAt_word 0 [] ident _ rfl
  have hword4 : wordAt (functionPayload ident name) 4 = 0 := wordAt_word 4 _ 0 _ (length_word .little ident)
  have hword8 : wordAt (functionPayload ident name) 8 = 0 := by
    rw [functionPayload, ← List.append_assoc]
    exact wordAt_word 8 _ 0 _ (by simp)
  have hword12 : wordAt (functionPayload ident name) 12 = lengthOfString name := by
    rw [functionPayload, ← List.append_assoc, ← List.append_assoc]
    exact wordAt_word 12 _ _ _ (by simp)
  have hname : (functionPayload ident name).drop 16 = name ++ List.replicate (4 - name.length % 4) 0 := by
    rw [functionPayload, ← List.append_assoc, ← List.append_assoc, ← List.append_assoc]
    exact drop_add_append (by simp) 0 _
  have hstring : (name ++ List.replicate (4 - name.length % 4) 0).takeWhile (· ≠ 0) = name := by
    rw [List.takeWhile_append_of_pos]
    · cases hk : 4 - name.length % 4 with
      | zero => simp
      | succ k => simp [List.replicate_succ]
    · intro b hb
      exact decide_eq_true fun heq => h0 (heq ▸ hb)
  rw [parseFunction, hword0, hword4, hword8, hword12, hname, hstring, if_pos]
  rw [length_functionPayload, toNat_lengthOfString (by omega)]
  exact ⟨by omega,rfl,rfl⟩

/-- A name is not longer than the payload that it is found in. -/
theorem length_of_parseFunction {payload : List Byte} (h : parseFunction payload = some (.function ident name)) :
    16 + name.length ≤ payload.length := by
  rw [parseFunction] at h
  split_ifs at h with hp
  cases h
  have hle := (List.takeWhile_sublist (· ≠ (0 : Byte)) (l := payload.drop 16)).length_le
  rw [List.length_drop] at hle
  omega

end Names

/-! ## Records of the writer -/

section Items
variable {fuel : ℕ} {item : Item} {c : ℕ → BitVec 64} {rest : List Byte}

theorem parseRecords_record (hfit : FitsWord item) (h0 : NoZero item) :
    parseRecords (fuel + 1) (record .little c item ++ rest) =
      (parseRecords fuel rest).map (expected c item :: ·) := by
  cases item with
  | function ident name =>
    change 4 + (name.length / 4 + 1) < 2^32 at hfit
    have hlen : (3 + 1 + lengthOfString name).toNat = 4 + (name.length / 4 + 1) := by
      rw [toNat_functionLength, Nat.mod_eq_of_lt hfit]
    rw [record, functionRecord_eq, List.append_assoc, List.append_assoc,
      parseRecords_payload (by decide) (by rw [length_functionPayload, hlen]), parsePayload, if_pos rfl,
      parseFunction_payload hfit h0]
    rfl
  | arcs n =>
    change 2 * n.toNat < 2^32 at hfit
    have hlen : (n * 2).toNat = 2 * n.toNat := by
      rw [toNat_mul_two]
      omega
    have hpayload : (countersBytes .little n.toNat c).length = 4 * (n * 2).toNat := by
      rw [length_countersBytes, hlen]
      omega
    rw [record, arcsRecord, arcsTag_little, List.append_assoc, List.append_assoc,
      parseRecords_payload (by decide) hpayload, parsePayload, if_neg (by decide), if_pos rfl,
      parseCounters_countersBytes]
    rfl

/-- Behind a length that has wrapped the reader misses a part of the payload. -/
theorem parseRecords_record_ne (hfit : ¬FitsWord item) (items : List Parsed) :
    parseRecords (fuel + 1) (record .little c item ++ rest) ≠ some (expected c item :: items) := by
  intro h
  cases item with
  | function ident name =>
    have hwrap : 2^32 ≤ 4 + (name.length / 4 + 1) := Nat.not_lt.mp hfit
    have hlen : (3 + 1 + lengthOfString name).toNat + 2^32 ≤ 4 + (name.length / 4 + 1) := by
      rw [toNat_functionLength]
      omega
    rw [record, functionRecord_eq, List.append_assoc, List.append_assoc, parseRecords_cons (by decide)] at h
    · rw [parsePayload, if_pos rfl, Option.bind_eq_some_iff] at h
      obtain ⟨found,hfound,h⟩ := h
      obtain ⟨items',-,h⟩ := Option.map_eq_some_iff.mp h
      rw [(List.cons.inj h).1] at hfound
      have hle := length_of_parseFunction hfound
      rw [List.length_take] at hle
      omega
    · rw [List.length_append, length_functionPayload]
      omega
  | arcs n =>
    have hwrap : 2^32 ≤ 2 * n.toNat := Nat.not_lt.mp hfit
    have hlen : (n * 2).toNat < 2 * n.toNat := by
      rw [toNat_mul_two]
      omega
    rw [record, arcsRecord, arcsTag_little, List.append_assoc, List.append_assoc, parseRecords_cons (by decide)] at h
    · rw [parsePayload, if_neg (by decide), if_pos rfl, Option.bind_some, Option.map_eq_some_iff] at h
      obtain ⟨items',-,h⟩ := h
      have hlengths := congrArg List.length (Parsed.arcs.inj (List.cons.inj h).1)
      rw [length_parseCounters, List.length_take, List.length_map, List.length_range] at hlengths
      omega
    · rw [List.length_append, length_countersBytes]
      omega

end Items

/-! ## Files -/

section Files
variable {v : Counters}

theorem parseRecords_records (items : List Item) (i fuel : ℕ) (hfuel : items.length < fuel)
    (h0 : ∀ item ∈ items, NoZero item) :
    parseRecords fuel (records .little v i items ++ List.replicate 8 0) = some (expectedAll v i items) ↔
      ∀ item ∈ items, FitsWord item := by
  obtain ⟨fuel,rfl⟩ : ∃ m, fuel = m + 1 := ⟨fuel - 1,by omega⟩
  induction items generalizing i fuel with
  | nil => simp [parseRecords, records, expectedAll]
  | cons item items ih =>
    rw [records, List.append_assoc, expectedAll, List.forall_mem_cons]
    obtain ⟨h0item,h0⟩ := List.forall_mem_cons.mp h0
    by_cases hfit : FitsWord item
    · rw [List.length_cons] at hfuel
      obtain ⟨fuel,rfl⟩ : ∃ m, fuel = m + 1 := ⟨fuel - 1,by omega⟩
      rw [parseRecords_record hfit h0item, Option.map_eq_some_iff, ← ih (i + 1) h0 fuel (by omega)]
      constructor
      · rintro ⟨items',h,heq⟩
        rw [(List.cons.inj heq).2] at h
        exact ⟨hfit,h⟩
      · rintro ⟨-,h⟩
        exact ⟨_,h,rfl⟩
    · constructor
      · intro h
        exact absurd h (parseRecords_record_ne hfit _)
      · rintro ⟨h,-⟩
        exact absurd h hfit

theorem length_le_records (items : List Item) (i : ℕ) : items.length ≤ (records .little v i items).length := by
  induction items generalizing i with
  | nil => exact Nat.zero_le _
  | cons item items ih =>
    have hrecord : 1 ≤ (record .little (v i) item).length := by
      cases item with
      | function ident name =>
        rw [record, functionRecord_eq, List.length_append, length_word]
        omega
      | arcs n =>
        rw [record, arcsRecord, arcsTag_little, List.length_append, List.length_append, length_word]
        omega
    have hitems := ih (i + 1)
    rw [records, List.length_append, List.length_cons]
    omega

theorem parseFile_fileImage (items : List Item) (v : Counters) (h0 : ∀ item ∈ items, NoZero item) :
    parseFile (fileImage .little v items) = some (expectedAll v 0 items) ↔ ∀ item ∈ items, FitsWord item := by
  have hlen := length_le_records (v := v) items 0
  have htake : (fileImage .little v items).take fileHeader.length = fileHeader := by
    rw [fileImage, List.append_assoc, List.take_left]
  have hdrop : (fileImage .little v items).drop fileHeader.length =
      records .little v 0 items ++ List.replicate 8 0 := by
    rw [fileImage, List.append_assoc, List.drop_left]
  have hfuel : items.length < (fileImage .little v items).length := by
    rw [fileImage, List.length_append, List.length_append, List.length_replicate]
    omega
  rw [← parseRecords_records items 0 _ hfuel h0, parseFile, if_pos htake, hdrop]

/-- The reader finds what the writer was told, unless a length does not fit its word. -/
theorem parseFile_iff (items : List Item) (v : Counters) (h0 : ∀ item ∈ items, NoZero item) :
    (∃ file, processRun .little items none v = some file ∧ parseFile file = some (expectedAll v 0 items)) ↔
      ∀ item ∈ items, FitsWord item := by
  rw [← parseFile_fileImage items v h0, processRun_none]
  constructor
  · rintro ⟨file,hfile,hparse⟩
    cases hfile
    exact hparse
  · intro h
    exact ⟨_,rfl,h⟩

theorem parseFile_example : (∃ file, processRun .little [.function 7 [0x66, 0x6f, 0x6f], .arcs 2] none
      (fun _ j => BitVec.ofNat 64 j) = some file ∧
    parseFile file = some [.function 7 [0x66, 0x6f, 0x6f], .arcs [0, 1]]) ↔
    ∀ item ∈ [Item.function 7 [0x66, 0x6f, 0x6f], .arcs 2], FitsWord item :=
  parseFile_iff [.function 7 [0x66, 0x6f, 0x6f], .arcs 2] (fun _ j => BitVec.ofNat 64 j) (by
    intro item hitem
    rcases List.mem_cons.mp hitem with rfl | hitem
    · change (0 : Byte) ∉ [0x66, 0x6f, 0x6f]
      decide
    · rw [List.mem_singleton.mp hitem]
      exact trivial)

/-- With 2^31 counters the number of words is 2^32, and the length word is 0. -/
theorem parseFile_wraps : ¬∃ file, processRun .little [.arcs (2^31)] none (fun _ _ => 0) = some file ∧
    parseFile file = some (expectedAll (fun _ _ => 0) 0 [.arcs (2^31)]) := by
  rintro ⟨file,hfile,hparse⟩
  rw [processRun_none] at hfile
  cases hfile
  have hfit := (parseFile_fileImage [.arcs (2^31)] (fun _ _ => 0) fun item hitem => by
    rw [List.mem_singleton.mp hitem]
    exact trivial).mp hparse (.arcs (2^31)) List.mem_cons_self
  exact absurd hfit (by change ¬2 * (2^31 : BitVec 32).toNat < 2^32; decide)

end Files

end CompilerRt.Profile.Framing
