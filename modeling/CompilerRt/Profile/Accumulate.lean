import CompilerRt.Profile.GCDAProfiling
import Mathlib.Tactic.Ring
import Mathlib.Data.BitVec

/-! # Arc counters over several runs

From the second run on, `llvm_gcda_emit_arcs` reads the tag, the length and the counters that it finds. On a
big-endian target the tag never compares equal, and with `2 ^ 31` counters or more the length does not; then the
function returns with the position inside the record. Elsewhere a run adds its counters to those in the file.
-/
namespace CompilerRt.Profile
open ByteOrder

/-- What an emitter does to an open file. -/
def emitStream (order : Order) (c : ℕ → BitVec 64) : Item → Stream → Stream
  | .function ident name, f => f.fwrite (functionRecord order ident name)
  | .arcs n, f => emitArcs order n c f

def emitAll (order : Order) (v : Counters) : ℕ → List Item → Stream → Stream
  | _, [], f => f
  | i, item :: items, f => emitAll order v (i + 1) items (emitStream order (v i) item f)

def started (bytes : List Byte) : Stream := (FileStream.ofContents bytes).fwrite fileHeader

def ended (f : Stream) : List Byte := (f.fwrite (List.replicate 8 0)).contents

theorem emitFrom_some (order : Order) (v : Counters) (i : ℕ) (items : List Item) (f : Stream) :
    emitFrom order v i items (some f) = some (emitAll order v i items f) := by
  induction items generalizing i f with
  | nil => rfl
  | cons item items ih =>
    rw [emitFrom,emitAll,← ih]
    cases item with
    | function ident name => rw [emit,llvmGcdaEmitFunction_some,emitStream]
    | arcs n => rfl

theorem processRun_eq (order : Order) (items : List Item) (disk : Option (List Byte)) (v : Counters) :
    processRun order items disk v = some (ended (emitAll order v 0 items (started (disk.getD [])))) := by
  rw [processRun,fopen,llvmGcdaStartFile,Option.map_some,emitFrom_some]
  rfl

theorem processRuns_some (order : Order) (items : List Item) (first : Counters) (rest : List Counters) :
    ∃ file, processRuns order items (first :: rest) = some file := by
  rw [processRuns,List.foldl_cons]
  generalize hd : processRun order items none first = disk
  have hsome : ∃ file, disk = some file := ⟨_,hd.symm.trans (processRun_eq ..)⟩
  clear hd
  induction rest generalizing disk with
  | nil => exact hsome
  | cons v rest ih => exact ih _ ⟨_,processRun_eq ..⟩

theorem emitAll_append (order : Order) (v : Counters) (i : ℕ) (xs ys : List Item) (f : Stream) :
    emitAll order v i (xs ++ ys) f = emitAll order v (i + xs.length) ys (emitAll order v i xs f) := by
  induction xs generalizing i f with
  | nil => rfl
  | cons item xs ih =>
    rw [List.cons_append,emitAll,emitAll,ih,List.length_cons,Nat.add_right_comm,Nat.add_assoc]

theorem emitAll_congr (order : Order) {v w : Counters} (i : ℕ) (items : List Item) (f : Stream)
    (h : ∀ k, i ≤ k → k < i + items.length → v k = w k) : emitAll order v i items f = emitAll order w i items f := by
  induction items generalizing i f with
  | nil => rfl
  | cons item items ih =>
    rw [List.length_cons] at h
    rw [emitAll,emitAll,h i (Nat.le_refl i) (by omega)]
    exact ih (i + 1) _ fun k h₁ h₂ => h k (by omega) (by omega)

/-! ## Records and their places -/

def record (order : Order) (c : ℕ → BitVec 64) : Item → List Byte
  | .function ident name => functionRecord order ident name
  | .arcs n => arcsRecord order n c

def recordSize : Item → ℕ
  | .function _ name => 24 + name.length + (4 - name.length % 4)
  | .arcs n => 8 + 8 * n.toNat

def records (order : Order) (v : Counters) : ℕ → List Item → List Byte
  | _, [] => []
  | i, item :: items => record order (v i) item ++ records order v (i + 1) items

def recordsSize (items : List Item) : ℕ := (items.map recordSize).sum

@[simp] theorem length_record (order : Order) (c : ℕ → BitVec 64) (item : Item) :
    (record order c item).length = recordSize item := by
  cases item with
  | function ident name =>
    simp only [record,functionRecord,functionTag,recordSize,List.length_append,length_word,List.length_cons,
      List.length_nil,List.length_replicate]
  | arcs n => exact length_arcsRecord order n c

@[simp] theorem length_records (order : Order) (v : Counters) (i : ℕ) (items : List Item) :
    (records order v i items).length = recordsSize items := by
  induction items generalizing i with
  | nil => rfl
  | cons item items ih => rw [records,List.length_append,ih,length_record,recordsSize,recordsSize,List.map_cons,
      List.sum_cons]

theorem records_append (order : Order) (v : Counters) (i : ℕ) (xs ys : List Item) :
    records order v i (xs ++ ys) = records order v i xs ++ records order v (i + xs.length) ys := by
  induction xs generalizing i with
  | nil => rfl
  | cons item xs ih =>
    rw [List.cons_append,records,records,ih,List.append_assoc,List.length_cons,Nat.add_right_comm,Nat.add_assoc]

theorem recordsSize_append (xs ys : List Item) : recordsSize (xs ++ ys) = recordsSize xs + recordsSize ys := by
  simp [recordsSize]

/-- Where the `j`-th counter of the `i`-th call is in the file. -/
def counterOffset (items : List Item) (i j : ℕ) : ℕ := fileHeader.length + recordsSize (items.take i) + 8 + 8 * j

/-- Reads a low word and then a high word. -/
def readCounter (order : Order) (bytes : List Byte) : Option (BitVec 64) :=
  if 8 ≤ bytes.length then
    some (BitVec.ofNat 64 (ofBytes order (bytes.take 4) + 2 ^ 32 * ofBytes order ((bytes.drop 4).take 4)))
  else none

def storedCounter (order : Order) (items : List Item) (i j : ℕ) (file : List Byte) : Option (BitVec 64) :=
  readCounter order (file.drop (counterOffset items i j))

/-- The sum of this counter over the runs, modulo `2 ^ 64`. -/
def total (runs : List Counters) (i j : ℕ) : BitVec 64 := BitVec.ofNat 64 (runs.map fun v => (v i j).toNat).sum

/-- After these runs every counter in the file is the sum of the runs' counters. -/
def Accumulates (order : Order) (items : List Item) (runs : List Counters) : Prop :=
  ∃ file, processRuns order items runs = some file ∧
    ∀ i n j, items[i]? = some (.arcs n) → j < n.toNat → storedCounter order items i j file = some (total runs i j)

theorem drop_add_append {α : Type*} {k : ℕ} {xs : List α} (h : xs.length = k) (m : ℕ) (ys : List α) :
    (xs ++ ys).drop (k + m) = ys.drop m := by
  subst h
  exact List.drop_length_add_append m

theorem readCounter_counterBytes (order : Order) (c : BitVec 64) (r : List Byte) :
    readCounter order (counterBytes order c ++ r) = some c := by
  have hlo := ofBytes_toBytes_of_lt order (k := 4) (c.setWidth 32).isLt
  have hhi := ofBytes_toBytes_of_lt order (k := 4) ((c >>> 32).setWidth 32).isLt
  have hlt := c.isLt
  have ht : (counterBytes order c ++ r).take 4 = word order (c.setWidth 32) := by
    rw [counterBytes,List.append_assoc,List.take_append_of_le_length (by simp),List.take_of_length_le (by simp)]
  have hd : ((counterBytes order c ++ r).drop 4).take 4 = word order ((c >>> 32).setWidth 32) := by
    rw [counterBytes,List.append_assoc,List.drop_append_of_le_length (by simp),List.drop_of_length_le (by simp),
      List.nil_append,List.take_append_of_le_length (by simp),List.take_of_length_le (by simp)]
  rw [readCounter,if_pos (by simp),ht,hd,word,word,hlo,hhi]
  congr 1
  apply BitVec.eq_of_toNat_eq
  rw [BitVec.toNat_ofNat,BitVec.toNat_setWidth,BitVec.toNat_setWidth,BitVec.toNat_ushiftRight,
    Nat.shiftRight_eq_div_pow]
  omega

theorem countersBytes_drop (order : Order) {n j : ℕ} (c : ℕ → BitVec 64) (hj : j < n) :
    ∃ r, (countersBytes order n c).drop (8 * j) = counterBytes order (c j) ++ r := by
  induction n with
  | zero => omega
  | succ n ih =>
    rw [countersBytes_succ]
    rcases Nat.lt_or_eq_of_le (Nat.le_of_lt_succ hj) with h | rfl
    · obtain ⟨r,hr⟩ := ih h
      refine ⟨r ++ counterBytes order (c n),?_⟩
      rw [List.drop_append_of_le_length (by rw [length_countersBytes]; omega),hr,List.append_assoc]
    · refine ⟨[],?_⟩
      rw [List.drop_append_of_le_length (by rw [length_countersBytes]),
        List.drop_of_length_le (by rw [length_countersBytes]),List.nil_append,List.append_nil]

/-- The file with these counters. -/
def fileImage (order : Order) (v : Counters) (items : List Item) : List Byte :=
  fileHeader ++ records order v 0 items ++ List.replicate 8 0

theorem storedCounter_fileImage (order : Order) (v : Counters) {items : List Item} {i j : ℕ} {n : BitVec 32}
    (hi : items[i]? = some (.arcs n)) (hj : j < n.toNat) :
    storedCounter order items i j (fileImage order v items) = some (v i j) := by
  obtain ⟨hlt,hget⟩ := List.getElem?_eq_some_iff.mp hi
  have hsplit : items = items.take i ++ .arcs n :: items.drop (i + 1) := by
    rw [← hget,List.cons_getElem_drop_succ,List.take_append_drop]
  have hlen : (items.take i).length = i := by rw [List.length_take]; omega
  obtain ⟨r,hr⟩ := countersBytes_drop order (v i) hj
  have hbytes : (fileImage order v items).drop (counterOffset items i j) = counterBytes order (v i j) ++
      (r ++ (records order v (i + 1) (items.drop (i + 1)) ++ List.replicate 8 0)) := by
    have himage : fileImage order v items = fileHeader ++ (records order v 0 (items.take i) ++
        (arcsTag ++ word order (n * 2) ++ (countersBytes order n.toNat (v i) ++
          (records order v (i + 1) (items.drop (i + 1)) ++ List.replicate 8 0)))) := by
      rw [fileImage]
      conv_lhs => rw [hsplit,records_append,hlen,Nat.zero_add,records,record,arcsRecord]
      simp only [List.append_assoc]
    have hhead : (arcsTag ++ word order (n * 2)).length = 8 := by simp [arcsTag]
    rw [himage,counterOffset,Nat.add_assoc,Nat.add_assoc,drop_add_append rfl,drop_add_append (length_records ..),
      drop_add_append hhead,List.drop_append_of_le_length (by rw [length_countersBytes]; omega),hr,List.append_assoc]
  rw [storedCounter,hbytes,readCounter_counterBytes]

/-! ## The first run and the runs that merge -/

theorem arcsTag_little : arcsTag = word .little 0x01a10000 := by decide

theorem arcsTag_big : arcsTag = word .big 0x0000a101 := by decide

theorem emitArcs_end (order : Order) (n : BitVec 32) (c : ℕ → BitVec 64) (b : List Byte) :
    emitArcs order n c ⟨b,[]⟩ = ⟨b ++ arcsRecord order n c,[]⟩ := by
  have hseek := FileStream.fseek_of_contents (f := (⟨b,[]⟩ : Stream)) (g := ⟨b,[]⟩) rfl
  rw [emitArcs,readInt32_end]
  dsimp only
  have hsum : (fun i => c i + (none : Option (List (BitVec 64))).elim 0 fun old => old.getD i 0) = c :=
    funext fun i => BitVec.add_zero (c i)
  rw [if_pos rfl,writeArcs_eq,hseek,FileStream.fwrite_end,hsum]

theorem emitStream_end (order : Order) (c : ℕ → BitVec 64) (item : Item) (b : List Byte) :
    emitStream order c item ⟨b,[]⟩ = ⟨b ++ record order c item,[]⟩ := by
  cases item with
  | function ident name => exact FileStream.fwrite_end _ b
  | arcs n => exact emitArcs_end order n c b

theorem emitAll_end (order : Order) (v : Counters) (i : ℕ) (items : List Item) (b : List Byte) :
    emitAll order v i items ⟨b,[]⟩ = ⟨b ++ records order v i items,[]⟩ := by
  induction items generalizing i b with
  | nil => simp [emitAll,records]
  | cons item items ih => rw [emitAll,emitStream_end,ih,records,List.append_assoc]

theorem processRun_none (order : Order) (items : List Item) (v : Counters) :
    processRun order items none v = some (fileImage order v items) := by
  have hs : started [] = ⟨fileHeader,[]⟩ := rfl
  rw [processRun_eq,Option.getD_none,hs,emitAll_end,ended,FileStream.fwrite_end,FileStream.contents,List.append_nil]
  rfl

/-- The array's record is not recognised when it is read back. -/
def Blocked (order : Order) : Item → Prop
  | .function _ _ => False
  | .arcs n => order = .big ∨ 2 ^ 31 ≤ n.toNat

instance (order : Order) (item : Item) : Decidable (Blocked order item) := by
  cases item <;> unfold Blocked <;> infer_instance

theorem half_double {n : BitVec 32} (h : n.toNat < 2 ^ 31) : n * 2 / 2 = n := by
  apply BitVec.eq_of_toNat_eq
  rw [BitVec.toNat_udiv,BitVec.toNat_mul]
  change n.toNat * 2 % 2 ^ 32 / 2 = n.toNat
  omega

theorem half_double_ne {n : BitVec 32} (h : 2 ^ 31 ≤ n.toNat) : n * 2 / 2 ≠ n := by
  intro he
  have hn := congrArg BitVec.toNat he
  have hlt := n.isLt
  rw [BitVec.toNat_udiv,BitVec.toNat_mul] at hn
  change n.toNat * 2 % 2 ^ 32 / 2 = n.toNat at hn
  omega

theorem double_ne (n : BitVec 32) : n * 2 ≠ -1 := by
  intro he
  have hn := congrArg BitVec.toNat he
  rw [BitVec.toNat_mul] at hn
  change n.toNat * 2 % 2 ^ 32 = 2 ^ 32 - 1 at hn
  omega

theorem emitArcs_merge {n : BitVec 32} (hn : n.toNat < 2 ^ 31) (c s : ℕ → BitVec 64) (b r : List Byte) :
    emitArcs .little n c ⟨b,arcsRecord .little n s ++ r⟩ = ⟨b ++ arcsRecord .little n (fun j => c j + s j),r⟩ := by
  have htag : ((0x01a10000 : BitVec 32) = -1) = False := by decide
  rw [emitArcs,arcsRecord,List.append_assoc,List.append_assoc,arcsTag_little,readInt32_word]
  dsimp only
  rw [if_neg htag.mp,if_neg (not_not_intro rfl),readInt32_word]
  dsimp only
  rw [if_neg (not_or.mpr ⟨double_ne n,not_not_intro (half_double hn)⟩),writeArcs_eq,readCounters_countersBytes]
  have hback := FileStream.fseek_of_contents
    (f := (⟨b,word .little 0x01a10000 ++ (word .little (n * 2) ++ (countersBytes .little n.toNat s ++ r))⟩ : Stream))
    (g := (readCounters .little n.toNat ⟨b ++ word .little 0x01a10000 ++ word .little (n * 2),
      countersBytes .little n.toNat s ++ r⟩).2)
    (by rw [readCounters_contents]; simp [FileStream.contents])
  have hsum : countersBytes .little n.toNat (fun i => c i + ((List.range n.toNat).map s).getD i 0) =
      countersBytes .little n.toNat fun j => c j + s j :=
    countersBytes_congr .little fun i hi => by
      rw [List.getD_eq_getElem?_getD,List.getElem?_map,List.getElem?_range hi]
      rfl
  rw [hback,← List.append_assoc,← List.append_assoc,← arcsTag_little]
  rw [FileStream.fwrite_over (by
    rw [length_arcsRecord]
    simp only [List.length_append,length_word,length_countersBytes]
    rfl)]
  simp only [Option.elim_some,arcsRecord,hsum]

theorem emitStream_merge {order : Order} {item : Item} (h : ¬Blocked order item) (c s : ℕ → BitVec 64)
    (b r : List Byte) :
    emitStream order c item ⟨b,record order s item ++ r⟩ = ⟨b ++ record order (fun j => c j + s j) item,r⟩ := by
  cases item with
  | function ident name => exact FileStream.fwrite_over rfl b r
  | arcs n =>
    obtain ⟨ho,hn⟩ := not_or.mp h
    cases order with
    | little => exact emitArcs_merge (Nat.lt_of_not_le hn) c s b r
    | big => exact absurd rfl ho

def addCounters (v s : Counters) : Counters := fun i j => v i j + s i j

theorem emitAll_merge {order : Order} (v s : Counters) (i : ℕ) {items : List Item}
    (h : ∀ item ∈ items, ¬Blocked order item) (b r : List Byte) :
    emitAll order v i items ⟨b,records order s i items ++ r⟩ =
      ⟨b ++ records order (addCounters v s) i items,r⟩ := by
  induction items generalizing i b with
  | nil => simp [emitAll,records]
  | cons item items ih =>
    rw [emitAll,records,List.append_assoc,emitStream_merge (h item List.mem_cons_self),
      ih (i + 1) fun x hx => h x (List.mem_cons_of_mem _ hx),records,List.append_assoc]
    rfl

theorem started_append (r : List Byte) : started (fileHeader ++ r) = ⟨fileHeader,r⟩ := by
  have hlen : fileHeader.length = fileHeader.length := rfl
  exact FileStream.fwrite_over hlen [] r

theorem processRun_merge {order : Order} (v s : Counters) {items : List Item}
    (h : ∀ item ∈ items, ¬Blocked order item) :
    processRun order items (some (fileImage order s items)) v =
      some (fileImage order (addCounters v s) items) := by
  have hlen : (List.replicate 8 (0 : Byte)).length = (List.replicate 8 (0 : Byte)).length := rfl
  have hend := FileStream.fwrite_over hlen (fileHeader ++ records order (addCounters v s) 0 items) []
  rw [List.append_nil] at hend
  rw [processRun_eq,Option.getD_some,fileImage,List.append_assoc,started_append,emitAll_merge v s 0 h,ended,hend,
    FileStream.contents,List.append_nil]
  rfl

theorem total_cons (v : Counters) (rest : List Counters) (i j : ℕ) :
    total (v :: rest) i j = v i j + total rest i j := by
  rw [total,List.map_cons,List.sum_cons,BitVec.ofNat_add,BitVec.ofNat_toNat,BitVec.setWidth_eq]
  rfl

/-- A further run adds its counters, and so any number of runs leaves the sums. -/
theorem foldl_processRun_merge {order : Order} {items : List Item} (h : ∀ item ∈ items, ¬Blocked order item)
    (s : Counters) (rest : List Counters) :
    rest.foldl (processRun order items) (some (fileImage order s items)) =
      some (fileImage order (fun i j => s i j + total rest i j) items) := by
  induction rest generalizing s with
  | nil =>
    have hs : (fun i j => s i j + total [] i j) = s := funext fun i => funext fun j => BitVec.add_zero (s i j)
    rw [List.foldl_nil,hs]
  | cons v rest ih =>
    have hs : (fun i j => addCounters v s i j + total rest i j) = fun i j => s i j + total (v :: rest) i j := by
      funext i j
      rw [total_cons,addCounters,BitVec.add_comm (v i j),BitVec.add_assoc]
    rw [List.foldl_cons,processRun_merge v s h,ih,hs]

theorem accumulates_single (order : Order) (items : List Item) (v : Counters) :
    Accumulates order items [v] := by
  refine ⟨fileImage order v items,processRun_none order items v,fun i n j hi hj => ?_⟩
  rw [storedCounter_fileImage order v hi hj,total_cons]
  simp [total]

theorem accumulates_of_not_blocked {order : Order} {items : List Item} (h : ∀ item ∈ items, ¬Blocked order item)
    (v : Counters) (rest : List Counters) : Accumulates order items (v :: rest) := by
  refine ⟨fileImage order (fun i j => v i j + total rest i j) items,?_,fun i n j hi hj => ?_⟩
  · rw [processRuns,List.foldl_cons,processRun_none,foldl_processRun_merge h]
  · rw [storedCounter_fileImage order _ hi hj,total_cons]

end CompilerRt.Profile
