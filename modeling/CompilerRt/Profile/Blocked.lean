import CompilerRt.Profile.Accumulate
import Mathlib

/-! # When the counters do not accumulate

A record that is not recognised stays in the file with its tag, so that every later run stops at it as well. What is
written afterwards lies before its place, and a reader finds nothing of the last run's first lost counter.
-/
namespace CompilerRt.Profile
open ByteOrder

/-! ## What lies before the position does not matter -/

theorem emitArcs_push (order : Order) (n : BitVec 32) (c : ℕ → BitVec 64) (xs : List Byte) (f : Stream) :
    emitArcs order n c (f.push xs) = (emitArcs order n c f).push xs := by
  have hwrite : ∀ (g : Stream) (old : Option (List (BitVec 64))),
      writeArcs order (f.push xs).ftell n c old (g.push xs) = (writeArcs order f.ftell n c old g).push xs :=
    fun g old => by
      rw [writeArcs_eq,writeArcs_eq,FileStream.ftell_push,FileStream.fseek_push,FileStream.fwrite_push]
  unfold emitArcs
  rw [readInt32_push]
  rcases readInt32 order f with ⟨val,f₁⟩
  dsimp only
  by_cases hend : val = -1
  · rw [if_pos hend,if_pos hend,hwrite]
  rw [if_neg hend,if_neg hend]
  by_cases htag : val ≠ 0x01a10000
  · rw [if_pos htag,if_pos htag]
  rw [if_neg htag,if_neg htag,readInt32_push]
  rcases readInt32 order f₁ with ⟨len,f₂⟩
  dsimp only
  by_cases hlen : len = -1 ∨ len / 2 ≠ n
  · rw [if_pos hlen,if_pos hlen]
  · rw [if_neg hlen,if_neg hlen,readCounters_push]
    dsimp only
    rw [hwrite]

theorem emitStream_push (order : Order) (c : ℕ → BitVec 64) (item : Item) (xs : List Byte) (f : Stream) :
    emitStream order c item (f.push xs) = (emitStream order c item f).push xs := by
  cases item with
  | function ident name => exact FileStream.fwrite_push _ xs f
  | arcs n => exact emitArcs_push order n c xs f

theorem emitAll_push (order : Order) (v : Counters) (i : ℕ) (items : List Item) (xs : List Byte) (f : Stream) :
    emitAll order v i items (f.push xs) = (emitAll order v i items f).push xs := by
  induction items generalizing i f with
  | nil => rfl
  | cons item items ih => rw [emitAll,emitStream_push,ih,emitAll]

theorem ended_push (xs : List Byte) (f : Stream) : ended (f.push xs) = xs ++ ended f := by
  rw [ended,FileStream.fwrite_push,FileStream.contents_push,ended]

/-- Writing at the position, each counter with a fixed addend. -/
theorem writeArcs_back (order : Order) (n : BitVec 32) (old : Option (List (BitVec 64))) {f g : Stream}
    (hg : g.contents = f.contents) : ∃ (old' : ℕ → BitVec 64) (r : List Byte), ∀ c,
      writeArcs order f.ftell n c old g = ⟨f.before ++ arcsRecord order n fun j => c j + old' j,r⟩ :=
  ⟨fun i => old.elim 0 fun old => old.getD i 0,f.after.drop (8 + 8 * n.toNat),fun c => by
    rw [writeArcs_eq,FileStream.fseek_of_contents hg,FileStream.fwrite,length_arcsRecord]⟩

/-- Either the counters are not written at all, or at the position and each with a fixed addend. -/
theorem emitArcs_cases (order : Order) (n : BitVec 32) (f : Stream) :
    (∃ g : Stream, g.ftell ≤ f.ftell + 8 + 8 * n.toNat ∧ ∀ c, emitArcs order n c f = g) ∨
      ∃ (old : ℕ → BitVec 64) (r : List Byte), ∀ c,
        emitArcs order n c f = ⟨f.before ++ arcsRecord order n fun j => c j + old j,r⟩ := by
  have h₁ := readInt32_contents order f
  have hp₁ := readInt32_ftell_le order f
  unfold emitArcs
  generalize readInt32 order f = p at h₁ hp₁ ⊢
  rcases p with ⟨val,f₁⟩
  dsimp only at h₁ hp₁ ⊢
  by_cases hend : val = -1
  · obtain ⟨old,r,hw⟩ := writeArcs_back order n none h₁
    refine Or.inr ⟨old,r,fun c => ?_⟩
    rw [if_pos hend,hw]
  by_cases htag : val ≠ 0x01a10000
  · refine Or.inl ⟨f₁,by omega,fun c => ?_⟩
    rw [if_neg hend,if_pos htag]
  have h₂ := (readInt32_contents order f₁).trans h₁
  have hp₂ := readInt32_ftell_le order f₁
  generalize readInt32 order f₁ = p at h₂ hp₂ ⊢
  rcases p with ⟨len,f₂⟩
  dsimp only at h₂ hp₂ ⊢
  by_cases hlen : len = -1 ∨ len / 2 ≠ n
  · refine Or.inl ⟨f₂,by omega,fun c => ?_⟩
    rw [if_neg hend,if_neg htag,if_pos hlen]
  · obtain ⟨old,r,hw⟩ := writeArcs_back order n (some (readCounters order n.toNat f₂).1)
      ((readCounters_contents order n.toNat f₂).trans h₂)
    refine Or.inr ⟨old,r,fun c => ?_⟩
    rw [if_neg hend,if_neg htag,if_neg hlen,hw]

theorem emitArcs_ftell_le (order : Order) (n : BitVec 32) (c : ℕ → BitVec 64) (f : Stream) :
    (emitArcs order n c f).ftell ≤ f.ftell + 8 + 8 * n.toNat := by
  rcases emitArcs_cases order n f with ⟨g,hg,h⟩ | ⟨old,r,h⟩
  · rw [h c]
    exact hg
  · rw [h c]
    simp only [FileStream.ftell,List.length_append,length_arcsRecord]
    omega

/-- No emitter moves the position by more than its record is long. -/
theorem emitAll_ftell_le (order : Order) (v : Counters) (i : ℕ) (items : List Item) (f : Stream) :
    (emitAll order v i items f).ftell ≤ f.ftell + recordsSize items := by
  induction items generalizing i f with
  | nil => exact Nat.le_refl _
  | cons item items ih =>
    have hstep : (emitStream order (v i) item f).ftell ≤ f.ftell + recordSize item := by
      cases item with
      | function ident name =>
        have hlen := length_record order (v i) (.function ident name)
        simp only [emitStream,FileStream.fwrite,FileStream.ftell,List.length_append]
        exact Nat.le_of_eq (congrArg _ hlen)
      | arcs n =>
        have hle := emitArcs_ftell_le order n (v i) f
        rwa [Nat.add_assoc] at hle
    have htail := ih (i + 1) (emitStream order (v i) item f)
    rw [emitAll,recordsSize,List.map_cons,List.sum_cons]
    rw [recordsSize] at htail
    omega

/-! ## The record that is not recognised -/

/-- The bytes that are read before the function gives up. -/
def guard (order : Order) (n : BitVec 32) : List Byte :=
  match order with
  | .little => arcsTag ++ word .little (n * 2)
  | .big => arcsTag

theorem emitArcs_skip {order : Order} {n : BitVec 32} (h : Blocked order (.arcs n)) (c : ℕ → BitVec 64)
    (b r : List Byte) : emitArcs order n c ⟨b,guard order n ++ r⟩ = ⟨b ++ guard order n,r⟩ := by
  cases order with
  | little =>
    have hn : 2 ^ 31 ≤ n.toNat := h.resolve_left nofun
    have htag : (0x01a10000 : BitVec 32) ≠ -1 := by decide
    rw [guard,List.append_assoc,emitArcs,arcsTag_little,readInt32_word]
    dsimp only
    rw [if_neg htag,if_neg (not_not_intro rfl),readInt32_word]
    dsimp only
    rw [if_pos (Or.inr (half_double_ne hn)),List.append_assoc]
  | big =>
    have hend : (0x0000a101 : BitVec 32) ≠ -1 := by decide
    have htag : (0x0000a101 : BitVec 32) ≠ 0x01a10000 := by decide
    rw [guard,arcsTag_big,emitArcs,readInt32_word]
    dsimp only
    rw [if_neg hend,if_pos htag]

theorem guard_prefix_arcsRecord (order : Order) (n : BitVec 32) (c : ℕ → BitVec 64) :
    ∃ r, arcsRecord order n c = guard order n ++ r := by
  cases order with
  | little => exact ⟨countersBytes .little n.toNat c,rfl⟩
  | big => exact ⟨word .big (n * 2) ++ countersBytes .big n.toNat c,List.append_assoc ..⟩

/-- The file is in order up to the tag of the first record that is not recognised. -/
def StuckAt (order : Order) (pre : List Item) (n : BitVec 32) (bytes : List Byte) : Prop :=
  ∃ (s : Counters) (junk : List Byte), bytes = fileHeader ++ (records order s 0 pre ++ (guard order n ++ junk))

theorem stuckAt_fileImage (order : Order) (v : Counters) (pre post : List Item) (n : BitVec 32) :
    StuckAt order pre n (fileImage order v (pre ++ .arcs n :: post)) := by
  obtain ⟨r,hr⟩ := guard_prefix_arcsRecord order n (v (0 + pre.length))
  refine ⟨v,r ++ records order v (0 + pre.length + 1) post ++ List.replicate 8 0,?_⟩
  rw [fileImage,records_append,records,record,hr]
  simp only [List.append_assoc]

section Stuck
variable {order : Order} {pre : List Item} (post : List Item) {n : BitVec 32} {bytes : List Byte}
variable (hpre : ∀ item ∈ pre, ¬Blocked order item) (hn : Blocked order (.arcs n)) (h : StuckAt order pre n bytes)
include hpre h

theorem StuckAt.emitAll_pre : ∃ (s : Counters) (junk : List Byte), ∀ v, emitAll order v 0 pre (started bytes) =
    ⟨fileHeader ++ records order (addCounters v s) 0 pre,guard order n ++ junk⟩ := by
  obtain ⟨s,junk,rfl⟩ := h
  refine ⟨s,junk,fun v => ?_⟩
  rw [started_append,emitAll_merge v s 0 hpre]

include hn

/-- At the record the emitter stops, whatever its counters are. -/
theorem StuckAt.emitAll_skip : ∃ (s : Counters) (junk : List Byte), ∀ v,
    emitAll order v 0 (pre ++ [.arcs n]) (started bytes) =
      ⟨fileHeader ++ records order (addCounters v s) 0 pre ++ guard order n,junk⟩ := by
  obtain ⟨s,junk,h⟩ := h.emitAll_pre hpre
  refine ⟨s,junk,fun v => ?_⟩
  rw [emitAll_append,h]
  exact emitArcs_skip hn _ _ _

theorem StuckAt.processRun (v : Counters) : ∃ bytes',
    processRun order (pre ++ .arcs n :: post) (some bytes) v = some bytes' ∧ StuckAt order pre n bytes' := by
  obtain ⟨s,junk,h⟩ := h.emitAll_skip hpre hn
  have hpush : (⟨fileHeader ++ records order (addCounters v s) 0 pre ++ guard order n,junk⟩ : Stream) =
      (FileStream.ofContents junk).push (fileHeader ++ records order (addCounters v s) 0 pre ++ guard order n) := by
    rw [FileStream.ofContents,FileStream.push_mk,List.append_nil]
  have hitems : pre ++ .arcs n :: post = (pre ++ [.arcs n]) ++ post := by simp
  refine ⟨_,processRun_eq ..,addCounters v s,
    ended (emitAll order v (0 + (pre ++ [Item.arcs n]).length) post (FileStream.ofContents junk)),?_⟩
  rw [Option.getD_some,hitems,emitAll_append,h,hpush,emitAll_push,ended_push]
  simp only [List.append_assoc]

omit h in
theorem stuckAt_processRuns (first : Counters) (rest : List Counters) : ∃ bytes,
    processRuns order (pre ++ .arcs n :: post) (first :: rest) = some bytes ∧ StuckAt order pre n bytes := by
  rw [processRuns,List.foldl_cons,processRun_none]
  have h₀ := stuckAt_fileImage order first pre post n
  generalize fileImage order first (pre ++ .arcs n :: post) = bytes at h₀
  induction rest generalizing bytes with
  | nil => exact ⟨bytes,rfl,h₀⟩
  | cons v rest ih =>
    obtain ⟨bytes',hrun,h₁⟩ := h₀.processRun post hpre hn v
    rw [List.foldl_cons,hrun]
    exact ih bytes' h₁

end Stuck

/-! ## A counter whose value does not reach its place -/

def noCounters : Counters := fun _ _ => 0

/-- Only the first counter of the `i`-th call is not zero. -/
def single (i : ℕ) (x : BitVec 64) : Counters := fun k j => if k = i ∧ j = 0 then x else 0

theorem single_ne {i k : ℕ} (x : BitVec 64) (h : k ≠ i) : single i x k = noCounters k :=
  funext fun _ => if_neg fun hk => h hk.1

theorem single_zero (i : ℕ) (x : BitVec 64) : single i x i 0 = x := if_pos ⟨rfl,rfl⟩

theorem single_succ (i : ℕ) (x : BitVec 64) (j : ℕ) : single i x i (j + 1) = 0 := if_neg fun h => nomatch h.2

/-- The records of two arrays that differ in the low word of the first counter. -/
theorem arcsRecord_low (order : Order) {n : BitVec 32} (hn : 0 < n.toNat) (rest : ℕ → BitVec 64) :
    ∃ q, ∀ (x : BitVec 64) (c : ℕ → BitVec 64), x >>> 32 = 0 → c 0 = x → (∀ j, c (j + 1) = rest j) →
      ∃ lo : List Byte, lo.length = 4 ∧ arcsRecord order n c = arcsTag ++ word order (n * 2) ++ lo ++ q := by
  obtain ⟨k,hk⟩ := Nat.exists_eq_succ_of_ne_zero (Nat.ne_of_gt hn)
  refine ⟨word order 0 ++ countersBytes order k rest,fun x c hx h₀ hs => ⟨word order (x.setWidth 32),length_word ..,?_⟩⟩
  rw [arcsRecord,hk,countersBytes_cons,h₀,countersBytes_congr order fun j _ => hs j,counterBytes,hx]
  simp only [List.append_assoc]
  rfl

/-- What follows the four bytes is the same in both files. -/
theorem drop_middle {α : Type*} {p lo lo' q : List α} {k : ℕ} (hlo : lo.length = 4) (hlo' : lo'.length = 4)
    (hk : p.length + 4 ≤ k) : (p ++ lo ++ q).drop k = (p ++ lo' ++ q).drop k := by
  obtain ⟨m,rfl⟩ := Nat.exists_eq_add_of_le hk
  rw [drop_add_append (by rw [List.length_append,hlo]),drop_add_append (by rw [List.length_append,hlo'])]

/-- The last run's value of the first counter of this array does not reach its place. -/
def Unseen (order : Order) (pre : List Item) (n : BitVec 32) (bytes : List Byte) : Prop :=
  (∃ g, ∀ c, emitArcs order n c (emitAll order noCounters 0 pre (started bytes)) = g) ∨
    (emitAll order noCounters 0 pre (started bytes)).ftell + 4 ≤ fileHeader.length + recordsSize pre

section Unseen
variable {order : Order} {pre : List Item} (post : List Item) {n : BitVec 32} {bytes : List Byte}

/-- The file that a last run with these counters leaves. -/
theorem processRun_single (x : BitVec 64) : processRun order (pre ++ .arcs n :: post) (some bytes) (single pre.length x) =
    some (ended (emitAll order noCounters (pre.length + 1) post
      (emitArcs order n (single pre.length x pre.length) (emitAll order noCounters 0 pre (started bytes))))) := by
  have hpre : emitAll order (single pre.length x) 0 pre (started bytes) =
      emitAll order noCounters 0 pre (started bytes) :=
    emitAll_congr order 0 pre _ fun k _ hk => single_ne x (by omega)
  rw [processRun_eq,Option.getD_some,emitAll_append,hpre,emitAll,Nat.zero_add,emitStream]
  rw [emitAll_congr order (pre.length + 1) post _ fun k hk _ => single_ne x (show k ≠ pre.length by omega)]

/-- Two values of the counter that leave the same bytes from its place on. -/
theorem exists_unseen (hn : 0 < n.toNat)
    (hf : Unseen order pre n bytes) :
    ∃ (x : BitVec 64) (file file' : List Byte),
      processRun order (pre ++ .arcs n :: post) (some bytes) (single pre.length x) = some file ∧
      processRun order (pre ++ .arcs n :: post) (some bytes) (single pre.length (x + 1)) = some file' ∧
      storedCounter order (pre ++ .arcs n :: post) pre.length 0 file =
        storedCounter order (pre ++ .arcs n :: post) pre.length 0 file' := by
  unfold Unseen at hf
  generalize hs : emitAll order noCounters 0 pre (started bytes) = f at hf
  rcases hf with ⟨g,hg⟩ | hpos
  · refine ⟨0,_,_,processRun_single post 0,processRun_single post (0 + 1),?_⟩
    rw [hs,hg,hg]
  rcases emitArcs_cases order n f with ⟨g,-,hg⟩ | ⟨old,r,hw⟩
  · refine ⟨0,_,_,processRun_single post 0,processRun_single post (0 + 1),?_⟩
    rw [hs,hg,hg]
  -- The sums that are written are 0 and 1, which have the same high word.
  obtain ⟨q,hq⟩ := arcsRecord_low order hn fun j => old (j + 1)
  have hsucc : ∀ (x : BitVec 64) (j : ℕ), single pre.length x pre.length (j + 1) + old (j + 1) = old (j + 1) :=
    fun x j => by
      rw [single_succ]
      exact BitVec.zero_add _
  obtain ⟨lo,hlo,hrec⟩ := hq 0 (fun j => single pre.length (-old 0) pre.length j + old j) (by decide)
    (by rw [single_zero]; ring) (hsucc _)
  obtain ⟨lo',hlo',hrec'⟩ := hq 1 (fun j => single pre.length (-old 0 + 1) pre.length j + old j) (by decide)
    (by rw [single_zero]; ring) (hsucc _)
  refine ⟨-old 0,_,_,processRun_single post _,processRun_single post _,?_⟩
  have hpush : ∀ b : List Byte, (⟨b,r⟩ : Stream) = (FileStream.ofContents r).push b := fun b => by
    rw [FileStream.ofContents,FileStream.push_mk,List.append_nil]
  rw [hs,hw,hw,hrec,hrec',hpush,hpush,emitAll_push,emitAll_push,ended_push,ended_push]
  unfold storedCounter
  congr 1
  have hdrop := drop_middle (p := f.before ++ (arcsTag ++ word order (n * 2))) (q := q ++
    ended (emitAll order noCounters (pre.length + 1) post (FileStream.ofContents r)))
    (k := counterOffset (pre ++ .arcs n :: post) pre.length 0) hlo hlo' (by
      have hhead : (arcsTag ++ word order (n * 2)).length = 8 := by simp [arcsTag]
      rw [counterOffset,List.take_left,List.length_append,hhead]
      rw [FileStream.ftell] at hpos
      omega)
  simpa only [List.append_assoc] using hdrop

end Unseen

/-! ## The condition -/

/-- At the record itself the emitter gives up. -/
theorem StuckAt.unseen {order : Order} {pre : List Item} {n : BitVec 32} {bytes : List Byte}
    (hpre : ∀ item ∈ pre, ¬Blocked order item) (hn : Blocked order (.arcs n)) (h : StuckAt order pre n bytes) :
    Unseen order pre n bytes := by
  obtain ⟨s,junk,h⟩ := h.emitAll_pre hpre
  refine Or.inl ⟨⟨fileHeader ++ records order (addCounters noCounters s) 0 pre ++ guard order n,junk⟩,fun c => ?_⟩
  rw [h]
  exact emitArcs_skip hn c _ _

/-- After an empty record whose tag is not recognised everything is written four bytes too early. -/
theorem StuckAt.unseen_later {pre mid : List Item} {bytes : List Byte} {n : BitVec 32}
    (hpre : ∀ item ∈ pre, ¬Blocked .big item) (h : StuckAt .big pre 0 bytes) :
    Unseen .big (pre ++ .arcs 0 :: mid) n bytes := by
  obtain ⟨s,junk,h⟩ := h.emitAll_skip hpre (Or.inl rfl)
  have hitems : pre ++ .arcs 0 :: mid = (pre ++ [.arcs 0]) ++ mid := by simp
  have hle := emitAll_ftell_le .big noCounters (0 + (pre ++ [Item.arcs 0]).length) mid
    ⟨fileHeader ++ records .big (addCounters noCounters s) 0 pre ++ guard .big 0,junk⟩
  have hguard : (guard .big 0).length = 4 := rfl
  refine Or.inr ?_
  have hsize : recordsSize (pre ++ [.arcs 0] ++ mid) = recordsSize pre + 8 + recordsSize mid := by
    rw [recordsSize_append,recordsSize_append]
    rfl
  rw [hitems,emitAll_append,h,hsize]
  simp only [FileStream.ftell,List.length_append,length_records,hguard] at hle ⊢
  omega

/-- The first item of a list with some property. -/
theorem exists_first {p : Item → Prop} [DecidablePred p] {items : List Item} (h : ∃ item ∈ items, p item) :
    ∃ pre item post, items = pre ++ item :: post ∧ p item ∧ ∀ x ∈ pre, ¬p x := by
  have hs : (items.find? fun x => decide (p x)).isSome := by
    rw [List.find?_isSome]
    obtain ⟨item,hmem,hp⟩ := h
    exact ⟨item,hmem,decide_eq_true hp⟩
  obtain ⟨item,hfind⟩ := Option.isSome_iff_exists.mp hs
  obtain ⟨hp,pre,post,heq,hnot⟩ := List.find?_eq_some_iff_append.mp hfind
  refine ⟨pre,item,post,heq,of_decide_eq_true hp,fun x hx hpx => ?_⟩
  have hx' := hnot x hx
  rw [decide_eq_true hpx] at hx'
  exact absurd hx' (by decide)

/-- An array with counters. -/
def HasCounters : Item → Prop
  | .function _ _ => False
  | .arcs n => 0 < n.toNat

instance (item : Item) : Decidable (HasCounters item) := match item with
  | .function _ _ => inferInstanceAs (Decidable False)
  | .arcs n => inferInstanceAs (Decidable (0 < n.toNat))

theorem exists_target {order : Order} {items : List Item} (hb : ∃ item ∈ items, Blocked order item)
    (hc : ∃ item ∈ items, HasCounters item) : ∃ pre n post pre' n' post',
      items = pre ++ .arcs n :: post ∧ (∀ item ∈ pre, ¬Blocked order item) ∧ Blocked order (.arcs n) ∧
      items = pre' ++ .arcs n' :: post' ∧ 0 < n'.toNat ∧
      ∀ bytes, StuckAt order pre n bytes → Unseen order pre' n' bytes := by
  obtain ⟨pre,item,post,rfl,hitem,hpre⟩ := exists_first hb
  cases item with
  | function ident name => exact hitem.elim
  | arcs n =>
  by_cases hn : 0 < n.toNat
  · exact ⟨pre,n,post,pre,n,post,rfl,hpre,hitem,rfl,hn,fun bytes h => h.unseen hpre hitem⟩
  -- Only on a big-endian target is an empty array not recognised.
  have hzero : n = 0 := BitVec.eq_of_toNat_eq (Nat.eq_zero_of_not_pos hn)
  subst hzero
  have hbig : order = .big := hitem.resolve_right (by decide)
  subst hbig
  have hpost : ∃ item ∈ post, HasCounters item := by
    obtain ⟨item,hmem,hcount⟩ := hc
    rcases List.mem_append.mp hmem with hmem | hmem
    · cases item with
      | function ident name => exact hcount.elim
      | arcs n => exact absurd (Or.inl rfl) (hpre _ hmem)
    rcases List.mem_cons.mp hmem with rfl | hmem
    · exact absurd hcount hn
    · exact ⟨item,hmem,hcount⟩
  obtain ⟨mid,item,post',rfl,hcount,-⟩ := exists_first hpost
  cases item with
  | function ident name => exact hcount.elim
  | arcs n' =>
    exact ⟨pre,0,mid ++ .arcs n' :: post',pre ++ .arcs 0 :: mid,n',post',rfl,hpre,hitem,by simp,hcount,
      fun bytes h => h.unseen_later hpre⟩

theorem total_concat (runs : List Counters) (v : Counters) (i j : ℕ) :
    total (runs ++ [v]) i j = total runs i j + v i j := by
  induction runs with
  | nil => rw [List.nil_append,total_cons,BitVec.add_comm]
  | cons w runs ih => rw [List.cons_append,total_cons,ih,total_cons,BitVec.add_assoc]

theorem exists_not_accumulates {order : Order} {items : List Item} (hb : ∃ item ∈ items, Blocked order item)
    (hc : ∃ item ∈ items, HasCounters item) (k : ℕ) : ∃ (first : Counters) (rest : List Counters),
      rest.length = k + 1 ∧ ¬Accumulates order items (first :: rest) := by
  obtain ⟨pre,n,post,pre',n',post',hitems,hpre,hn,hitems',hn',hunseen⟩ := exists_target hb hc
  obtain ⟨bytes,hruns,hstuck⟩ := stuckAt_processRuns post hpre hn noCounters
    (List.replicate k noCounters)
  obtain ⟨x,file,file',hfile,hfile',hsame⟩ := exists_unseen post' hn' (hunseen bytes hstuck)
  rw [← hitems] at hruns
  rw [← hitems'] at hfile hfile' hsame
  have hlast : ∀ v, processRuns order items (noCounters :: (List.replicate k noCounters ++ [v])) =
      processRun order items (some bytes) v := fun v => by
    rw [← List.cons_append,processRuns,List.foldl_append,← processRuns,hruns]
    rfl
  have hget : items[pre'.length]? = some (.arcs n') := by
    rw [hitems',List.getElem?_append_right (Nat.le_refl _),Nat.sub_self]
    rfl
  -- If both runs left the sums, the two values of the counter would be equal.
  by_contra hno
  have hacc : ∀ v, Accumulates order items (noCounters :: (List.replicate k noCounters ++ [v])) :=
    fun v => by
      by_contra hv
      exact hno ⟨_,_,by simp,hv⟩
  obtain ⟨f₁,h₁,hs₁⟩ := hacc (single pre'.length x)
  obtain ⟨f₂,h₂,hs₂⟩ := hacc (single pre'.length (x + 1))
  rw [hlast,hfile,Option.some.injEq] at h₁
  rw [hlast,hfile',Option.some.injEq] at h₂
  subst h₁ h₂
  have heq := (hs₁ pre'.length n' 0 hget hn').symm.trans (hsame.trans (hs₂ pre'.length n' 0 hget hn'))
  rw [Option.some.injEq,← List.cons_append,total_concat,← List.cons_append,total_concat,single_zero,single_zero] at heq
  have hx : x + 0 = x + 1 := (add_zero x).trans (add_left_cancel heq)
  exact absurd (add_left_cancel hx) (by decide)

/-- Any number of runs of any program leaves the sums exactly if there is only one run, or there are no counters, or
the target is little-endian and every array has fewer than `2 ^ 31` counters. -/
theorem accumulates_iff (order : Order) (items : List Item) (k : ℕ) :
    (∀ (first : Counters) (rest : List Counters), rest.length = k → Accumulates order items (first :: rest)) ↔
      k = 0 ∨ (∀ n, .arcs n ∈ items → n = 0) ∨ (order = .little ∧ ∀ n, .arcs n ∈ items → n.toNat < 2 ^ 31) := by
  constructor
  · intro h
    by_contra hno
    obtain ⟨hk,hno⟩ := not_or.mp hno
    obtain ⟨hcount,hblock⟩ := not_or.mp hno
    have hc : ∃ item ∈ items, HasCounters item := by
      by_contra hnone
      refine hcount fun n hn => BitVec.eq_of_toNat_eq (Nat.eq_zero_of_not_pos fun hpos => hnone ⟨_,hn,hpos⟩)
    have hb : ∃ item ∈ items, Blocked order item := by
      by_contra hnone
      cases order with
      | little =>
        refine hblock ⟨rfl,fun n hn => ?_⟩
        by_contra hlt
        exact hnone ⟨_,hn,Or.inr (Nat.le_of_not_lt hlt)⟩
      | big =>
        refine hcount fun n hn => ?_
        exact absurd ⟨_,hn,Or.inl rfl⟩ hnone
    obtain ⟨k,rfl⟩ := Nat.exists_eq_succ_of_ne_zero hk
    obtain ⟨first,rest,hlen,hbad⟩ := exists_not_accumulates hb hc k
    exact hbad (h first rest hlen)
  · rintro (rfl | hcount | ⟨rfl,hsmall⟩) first rest hlen
    · rw [List.length_eq_zero_iff.mp hlen]
      exact accumulates_single order items first
    · obtain ⟨bytes,hruns⟩ := processRuns_some order items first rest
      refine ⟨bytes,hruns,fun i n j hi hj => ?_⟩
      rw [hcount n (List.mem_of_getElem? hi)] at hj
      exact absurd hj (Nat.not_lt_zero j)
    · refine accumulates_of_not_blocked (fun item hitem => ?_) first rest
      cases item with
      | function ident name => exact id
      | arcs n => exact not_or.mpr ⟨by decide,Nat.not_le_of_lt (hsmall n hitem)⟩

/-- Two runs on a big-endian target with one counter that is 1 in both leave 0: the second run's end record is written
over the length and the low word. -/
theorem not_accumulates_big : ¬∀ (items : List Item) (first : Counters) (rest : List Counters),
    Accumulates .big items (first :: rest) := by
  intro h
  obtain ⟨file,hrun,hsum⟩ := h [.function 1 [0x66],.arcs 1] (fun _ _ => 1) [fun _ _ => 1]
  have hs := hsum 1 1 0 rfl (by decide)
  have hfile : (processRuns .big [.function 1 [0x66],.arcs 1] [fun _ _ => 1,fun _ _ => 1]).bind
      (storedCounter .big [.function 1 [0x66],.arcs 1] 1 0) = some 0 := by decide +kernel
  rw [hrun,Option.bind_some,hs] at hfile
  exact absurd hfile (by decide)

end CompilerRt.Profile
