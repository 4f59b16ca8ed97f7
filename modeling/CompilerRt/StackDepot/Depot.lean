import CompilerRt.Lib.Interleaving
import Mathlib.Data.BitVec

/-! # The stack depot

The depot maps stack traces to ids and back. Each bucket of the hash table is a list of nodes; the low bit of its head is
a lock. Nodes come from a region that is bumped without a lock, and are never freed. Each access to the table, to the
region and to a sequence number is a step, and so is each write to a node and the examination of a node.
-/
namespace CompilerRt.StackDepot

inductive Arch
  | bits32
  | bits64
  deriving DecidableEq,Repr

/-- `sizeof(uptr)` -/
def Arch.sizeofUptr : Arch → ℕ
  | .bits32 => 4
  | .bits64 => 8

/-- The addresses are below this. -/
def Arch.space (A : Arch) : ℕ := 2 ^ (8 * A.sizeofUptr)

abbrev Uptr (A : Arch) := BitVec (8 * A.sizeofUptr)

abbrev U32 := BitVec 32

abbrev Stack (A : Arch) := List (Uptr A)

def kTabSize : ℕ := 1024 * 1024

def kPartBits : ℕ := 8

def kPartShift : ℕ := 4 * 8 - kPartBits - 1

def kPartCount : ℕ := 1 <<< kPartBits

def kPartSize : ℕ := kTabSize / kPartCount

def kMaxId : ℕ := 1 <<< kPartShift

structure StackDesc (A : Arch) where
  link : ℕ
  id : U32
  hash : U32
  size : ℕ
  stack : ℕ → Uptr A

variable {A : Arch}

/-- The words from `stack` on. -/
def StackDesc.trace (s : StackDesc A) : Stack A := (List.range s.size).map s.stack

/-- `sizeof(StackDesc)` -/
def Arch.sizeofStackDesc (A : Arch) : ℕ := A.sizeofUptr + 4 + 4 + A.sizeofUptr + A.sizeofUptr

/-- The bytes of a node with `size` words. -/
def descBytes (A : Arch) (size : ℕ) : ℕ := A.sizeofStackDesc + (size - 1) * A.sizeofUptr

/-- murmur2 -/
def hash (stack : Stack A) : U32 :=
  let m : U32 := 0x5bd1e995
  let seed : U32 := 0x9747b28c
  let h := seed ^^^ BitVec.ofNat 32 (stack.length * A.sizeofUptr)
  let h := stack.foldl
    (fun h x =>
      let k : U32 := x.setWidth 32
      let k := k * m
      let k := k ^^^ (k >>> 24)
      let k := k * m
      let h := h * m
      h ^^^ k) h
  let h := h ^^^ (h >>> 13)
  let h := h * m
  h ^^^ (h >>> 15)

def bucket (stack : Stack A) : ℕ := (hash stack).toNat % kTabSize

/-- The part of the table that the bucket lies in. -/
def partOf (b : ℕ) : ℕ := b / kPartSize

/-- The id with a sequence number of a part. -/
def idOf (part : ℕ) (n : U32) : U32 := n ||| BitVec.ofNat 32 (part <<< kPartShift)

/-- What `find` looks for. -/
def StackDesc.Holds (s : StackDesc A) (stack : Stack A) : Prop :=
  s.hash = StackDepot.hash stack ∧ s.size = stack.length ∧ s.trace = stack

instance (s : StackDesc A) (stack : Stack A) : Decidable (s.Holds stack) := by
  unfold StackDesc.Holds
  infer_instance

/-- The pointer in the head of a bucket, without the lock. -/
def pointer (v : ℕ) : ℕ := v - v % 2

/-- A call of `StackDepotGet` that has returned, with the number of calls of `StackDepotPut` that had returned when it
began. -/
structure Got (A : Arch) where
  id : U32
  since : ℕ
  result : Option (Stack A)

structure Depot (A : Arch) where
  mtx : Bool
  regionPos : ℕ
  regionEnd : ℕ
  tab : ℕ → ℕ
  seq : ℕ → U32
  memory : ℕ → StackDesc A
  /-- What has been mapped: where from and how many bytes. -/
  regions : List (ℕ × ℕ)
  /-- A `CHECK` has failed. -/
  died : Bool
  /-- The nodes that `allocDesc` has handed out: where and how many bytes. -/
  allocated : List (ℕ × ℕ)
  /-- What `StackDepotPut` has returned. -/
  returned : List (Stack A × U32)
  /-- What `StackDepotGet` has returned. -/
  got : List (Got A)

inductive AllocPc
  /-- `tryallocDesc`, which is also called with the mutex held. -/
  | tryLoad (locked : Bool)
  | tryEnd (locked : Bool) (cmp : ℕ)
  | tryCas (locked : Bool) (cmp last : ℕ)
  | lock
  | clear
  | map
  | storeEnd (mem allocsz : ℕ)
  | storePos (mem : ℕ)
  | unlock (s : ℕ)
  deriving DecidableEq,Repr

inductive Field
  | id
  | hash
  | size
  | word (i : ℕ)
  | link
  deriving DecidableEq,Repr

inductive Pc (A : Arch)
  | idle
  /-- `StackDepotPut` -/
  | load (stack : Stack A)
  | find (stack : Stack A) (head s : ℕ)
  | lockLoad (stack : Stack A) (head : ℕ)
  | lockCas (stack : Stack A) (head cmp : ℕ)
  | findAgain (stack : Stack A) (s2 s : ℕ)
  | unlockFound (stack : Stack A) (s2 : ℕ) (id : U32)
  | fetchAdd (stack : Stack A) (s2 : ℕ)
  | alloc (stack : Stack A) (s2 : ℕ) (id : U32) (pc : AllocPc)
  | write (stack : Stack A) (s2 : ℕ) (id : U32) (s : ℕ) (field : Field)
  | unlock (stack : Stack A) (s2 : ℕ) (id : U32) (s : ℕ)
  /-- `StackDepotGet` -/
  | get (id : U32) (since i : ℕ)
  | getFind (id : U32) (since i s : ℕ)

inductive Action (A : Arch)
  | put (stack : Stack A)
  | get (id : U32)
  | step
  /-- `compare_exchange_weak` fails although the value is the expected one. -/
  | spurious
  /-- `MmapOrDie` returns the address. -/
  | map (mem : ℕ)

/-- Fresh memory: page-aligned, not null, and apart from what has been mapped. -/
def Depot.Mappable (d : Depot A) (mem len : ℕ) : Prop :=
  0 < mem ∧ mem % 4096 = 0 ∧ mem + len < A.space ∧ ∀ r ∈ d.regions, mem + len ≤ r.1 ∨ r.1 + r.2 ≤ mem

instance (d : Depot A) (mem len : ℕ) : Decidable (d.Mappable mem len) := by
  unfold Depot.Mappable
  infer_instance

/-- `tryallocDesc` returns null. -/
def tryFailed (locked : Bool) : AllocPc := if locked then .clear else .lock

/-- The size that `allocDesc` computes. -/
def memsz (A : Arch) (size : ℕ) : ℕ := descBytes A size % A.space

/-- A step of `allocDesc`, which goes on or returns the node. -/
def allocDesc (size : ℕ) (a : Action A) (d : Depot A) : AllocPc → Option (Depot A × (AllocPc ⊕ ℕ))
  | .tryLoad locked =>
    match a with
    | .step => some (d,.inl (.tryEnd locked d.regionPos))
    | _ => none
  | .tryEnd locked cmp =>
    match a with
    | .step =>
      if cmp = 0 ∨ d.regionEnd < (cmp + memsz A size) % A.space then some (d,.inl (tryFailed locked))
      else some (d,.inl (.tryCas locked cmp d.regionEnd))
    | _ => none
  | .tryCas locked cmp _ =>
    match a with
    | .step =>
      if d.regionPos = cmp then
        some ({ d with regionPos := (cmp + memsz A size) % A.space
                       allocated := (cmp,descBytes A size) :: d.allocated },
          if locked then .inl (.unlock cmp) else .inr cmp)
      else some (d,.inl (.tryLoad locked))
    | .spurious => some (d,.inl (.tryLoad locked))
    | _ => none
  | .lock =>
    match a with
    | .step => if d.mtx then none else some ({ d with mtx := true },.inl (.tryLoad true))
    | _ => none
  | .clear =>
    match a with
    | .step => some ({ d with regionPos := 0 },.inl .map)
    | _ => none
  | .map =>
    match a with
    | .map mem =>
      let allocsz := if 64 * 1024 < memsz A size then memsz A size else 64 * 1024
      if d.Mappable mem allocsz then
        some ({ d with regions := (mem,allocsz) :: d.regions },.inl (.storeEnd mem allocsz))
      else none
    | _ => none
  | .storeEnd mem allocsz =>
    match a with
    | .step => some ({ d with regionEnd := mem + allocsz },.inl (.storePos mem))
    | _ => none
  | .storePos mem =>
    match a with
    | .step => some ({ d with regionPos := mem },.inl (.tryLoad true))
    | _ => none
  | .unlock s =>
    match a with
    | .step => some ({ d with mtx := false },.inr s)
    | _ => none

/-- `s->field = ..` -/
def StackDesc.write (s : StackDesc A) (stack : Stack A) (s2 : ℕ) (id : U32) : Field → StackDesc A
  | .id => { s with id := id }
  | .hash => { s with hash := StackDepot.hash stack }
  | .size => { s with size := stack.length }
  | .word i => { s with stack := Function.update s.stack i (stack.getD i 0) }
  | .link => { s with link := s2 }

/-- What is written after a field. The words are copied one after the other. -/
def Field.next (size : ℕ) : Field → Option Field
  | .id => some .hash
  | .hash => some .size
  | .size => some (.word 0)
  | .word i => if i + 1 < size then some (.word (i + 1)) else some .link
  | .link => none

def Depot.put (d : Depot A) (stack : Stack A) (id : U32) : Depot A := { d with returned := d.returned ++ [(stack,id)] }

def Depot.get (d : Depot A) (id : U32) (since : ℕ) (result : Option (Stack A)) : Depot A :=
  { d with got := ⟨id,since,result⟩ :: d.got }

/-- A step of a thread. Most take the action `step`. -/
def stepOf (d : Depot A) : Pc A → Option (Depot A × Pc A)
  | .idle => none
  | .load stack =>
    let s := pointer (d.tab (bucket stack))
    some (d,.find stack s s)
  | .find stack head s =>
    if s = 0 then some (d,.lockLoad stack head)
    else if (d.memory s).Holds stack then some (d.put stack (d.memory s).id,.idle)
    else some (d,.find stack head (d.memory s).link)
  | .lockLoad stack head =>
    let cmp := d.tab (bucket stack)
    if cmp % 2 = 0 then some (d,.lockCas stack head cmp) else some (d,.lockLoad stack head)
  | .lockCas stack head cmp =>
    if d.tab (bucket stack) = cmp then
      some ({ d with tab := Function.update d.tab (bucket stack) (cmp + 1) },
        if cmp = head then .fetchAdd stack cmp else .findAgain stack cmp cmp)
    else some (d,.lockLoad stack head)
  | .findAgain stack s2 s =>
    if s = 0 then some (d,.fetchAdd stack s2)
    else if (d.memory s).Holds stack then some (d,.unlockFound stack s2 (d.memory s).id)
    else some (d,.findAgain stack s2 (d.memory s).link)
  | .unlockFound stack s2 id =>
    some ({ d with tab := Function.update d.tab (bucket stack) s2 }.put stack id,.idle)
  | .fetchAdd stack s2 =>
    let part := partOf (bucket stack)
    let n := d.seq part + 1
    let d := { d with seq := Function.update d.seq part n }
    let id := idOf part n
    if n.toNat < kMaxId ∧ id ≠ 0 ∧ id &&& (1 <<< 31) = 0 then some (d,.alloc stack s2 id (.tryLoad false))
    else some ({ d with died := true },.idle)
  | .alloc .. => none
  | .write stack s2 id s field =>
    let d := { d with memory := Function.update d.memory s ((d.memory s).write stack s2 id field) }
    match field.next stack.length with
    | some field' => some (d,.write stack s2 id s field')
    | none => some (d,.unlock stack s2 id s)
  | .unlock stack _ id s =>
    some ({ d with tab := Function.update d.tab (bucket stack) s }.put stack id,.idle)
  | .get id since i =>
    if i = kPartSize then some (d.get id since none,.idle)
    else
      let idx := (id.toNat >>> kPartShift) * kPartSize + i
      if idx < kTabSize then some (d,.getFind id since i (pointer (d.tab idx)))
      else some ({ d with died := true },.idle)
  | .getFind id since i s =>
    if s = 0 then some (d,.get id since (i + 1))
    else if (d.memory s).id = id then some (d.get id since (some (d.memory s).trace),.idle)
    else some (d,.getFind id since i (d.memory s).link)

/-- What a thread does next; nothing, once a `CHECK` has failed. -/
def next {Tid : Type} (_ : Tid) (a : Action A) (d : Depot A) (pc : Pc A) : Option (Depot A × Pc A) :=
  if d.died then none
  else
    match a,pc with
    | .put stack,.idle => if stack = [] then some (d.put [] 0,.idle) else some (d,.load stack)
    | .get id,.idle =>
      if id = 0 then some (d.get 0 d.returned.length none,.idle)
      else if id &&& (1 <<< 31) = 0 then some (d,.get id d.returned.length 0)
      else some ({ d with died := true },.idle)
    | a,.alloc stack s2 id pc =>
      (allocDesc stack.length a d pc).map fun r =>
        (r.1,r.2.elim (.alloc stack s2 id) fun s => .write stack s2 id s .id)
    | .spurious,.lockCas stack head _ => some (d,.lockLoad stack head)
    | .step,pc => stepOf d pc
    | _,_ => none

abbrev Threads (A : Arch) (Tid : Type) := Interleaving.Config (Depot A) (Pc A) Tid

def step {Tid : Type} [DecidableEq Tid] : Threads A Tid → Tid × Action A → Option (Threads A Tid) :=
  Interleaving.step next

/-- The depot as it is at first, in any memory. -/
def empty (memory : ℕ → StackDesc A) : Depot A :=
  ⟨false,0,0,fun _ => 0,fun _ => 0,memory,[],false,[],[],[]⟩

def start {Tid : Type} (memory : ℕ → StackDesc A) : Threads A Tid := ⟨empty memory,fun _ => .idle⟩

/-- A node that is allocated fits into the region that is current then. The end of the region was read before. -/
def NotStale {Tid : Type} (c : Threads A Tid) (e : Tid × Action A) : Prop :=
  match c.threads e.1,e.2 with
  | .alloc stack _ _ (.tryCas _ cmp _),.step =>
    c.shared.regionPos = cmp → cmp + descBytes A stack.length ≤ c.shared.regionEnd
  | _,_ => True

instance {Tid : Type} (c : Threads A Tid) (e : Tid × Action A) : Decidable (NotStale c e) := by
  unfold NotStale
  split <;> infer_instance

end CompilerRt.StackDepot
