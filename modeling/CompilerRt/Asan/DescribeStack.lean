import CompilerRt.Sanitizer.Libc
import Mathlib

/-! # Stack frame descriptors

`DescribeAddressIfStack` of `lib/asan/asan_report.cc` reads a text that the compiler has made of the objects in a
frame, and copies names out of it into a local buffer.
-/
namespace CompilerRt.AsanReport
open Sanitizer

def kBufSize : ℕ := 4095

/-- A store outside the buffer, or a pointer that leaves the descriptor. -/
inductive Fault where
  | buffer
  | descriptor
  deriving DecidableEq

def store (buf : List Char) (i : ℕ) (c : Char) : Except Fault (List Char) :=
  if i < buf.length then .ok (buf.set i c) else .error .buffer

/-- The string in a buffer. -/
def bufferString (buf : List Char) : CString := buf.takeWhile (· ≠ '\x00')

def strncatLoop (dst : List Char) (pos : ℕ) : CString → ℕ → Except Fault (List Char × ℕ)
  | c :: src, n + 1 => do strncatLoop (← store dst pos c) (pos + 1) src n
  | _, _ => .ok (dst,pos)

def internal_strncat (dst : List Char) (src : CString) (n : ℕ) : Except Fault (List Char) := do
  let (dst,pos) ← strncatLoop dst (internal_strlen (bufferString dst)) src n
  store dst pos '\x00'

/-- `buf[0] = 0;` and a copy of at most `kBufSize` characters. -/
def copyName (buf : List Char) (name : CString) (len : ℕ) : Except Fault (List Char) := do
  internal_strncat (← store buf 0 '\x00') name (min kBufSize len)

def toUptr (v : ℤ) : ℕ := (v % 2^64).toNat

/-- The loop over the objects: the range and the name of each, and whether all could be parsed. -/
def describeObjects : ℕ → CString → List Char → Except Fault (List (ℕ × ℕ × CString) × Bool)
  | 0, _, _ => .ok ([],true)
  | n + 1, p, buf =>
    let (beg,p) := internal_simple_strtoll p
    let (size,p) := internal_simple_strtoll p
    let (len,p) := internal_simple_strtoll p
    if toUptr beg = 0 ∨ toUptr size = 0 ∨ len < 0 ∨ p.head? ≠ some ' ' then .ok ([],false)
    else do
      let p := p.tail
      let buf ← copyName buf p len.toNat
      if p.length < len.toNat then .error .descriptor
      else
        let (objects,parsed) ← describeObjects n (p.drop len.toNat) buf
        .ok ((toUptr beg,(toUptr beg + toUptr size) % 2^64,bufferString buf) :: objects,parsed)

/-- What is printed about the frame, if no check fails. -/
inductive Description where
  | died
  | frame (function : CString) (n_objects : ℕ) (objects : List (ℕ × ℕ × CString)) (parsed : Bool)

def DescribeAddressIfStack (frame_descr : CString) (buf : List Char) : Except Fault Description :=
  match internal_strchr frame_descr ' ' with
  | none => .ok .died
  | some name_end => do
    let buf ← copyName buf frame_descr (frame_descr.length - name_end.length)
    let (n,p) := internal_simple_strtoll name_end
    if toUptr n = 0 then .ok .died
    else
      let (objects,parsed) ← describeObjects (toUptr n) p buf
      .ok (.frame (bufferString buf) (toUptr n) objects parsed)

/-! ## Descriptors -/

structure StackObject where
  offset : CString
  size : CString
  len : CString
  name : CString

structure Frame where
  function : CString
  n : CString
  objects : List StackObject

/-- From the space before the first object on. -/
def objectsText : List StackObject → CString
  | [] => [' ']
  | o :: objects => ' ' :: o.offset ++ (' ' :: o.size ++ (' ' :: o.len ++ (' ' :: (o.name ++ objectsText objects))))

/-- "FunctionName n alloc_1 alloc_2 ... alloc_n" with objects "offset size len ObjectName " -/
def Frame.descriptor (f : Frame) : CString := f.function ++ (' ' :: f.n ++ objectsText f.objects)

def IsNumeral (s : CString) : Prop := s ≠ [] ∧ ∀ c ∈ s, IsDigit c

structure StackObject.WellFormed (o : StackObject) : Prop where
  offset : IsNumeral o.offset
  size : IsNumeral o.size
  len : IsNumeral o.len
  len_eq : decimal o.len = o.name.length
  name : '\x00' ∉ o.name

/-- The descriptor is a string in memory. -/
structure Frame.WellFormed (f : Frame) : Prop where
  function : ' ' ∉ f.function ∧ '\x00' ∉ f.function
  n : IsNumeral f.n
  n_eq : decimal f.n = f.objects.length
  objects : ∀ o ∈ f.objects, o.WellFormed
  fits : f.descriptor.length < 2^63

/-- An object with offset or size zero is taken for an error. -/
def StackObject.Readable (o : StackObject) : Bool := decimal o.offset ≠ 0 ∧ decimal o.size ≠ 0

def StackObject.shown (o : StackObject) : ℕ × ℕ × CString :=
  (min INT64_MAX (decimal o.offset),(min INT64_MAX (decimal o.offset) + min INT64_MAX (decimal o.size)) % 2^64,o.name)

def ShortNames (objects : List StackObject) : Prop := ∀ o ∈ objects.takeWhile StackObject.Readable, o.name.length < kBufSize

instance (objects : List StackObject) : Decidable (ShortNames objects) := inferInstanceAs (Decidable (∀ _ ∈ _, _))

/-- No store outside the buffer, and no pointer outside the descriptor. -/
def InBounds {α : Type} (r : Except Fault α) : Prop := ∀ fault, r ≠ .error fault

/-! ## Copies -/

section Copies
variable {buf src : List Char} {n : ℕ}

theorem store_append (done old : List Char) (a c : Char) :
    store (done ++ a :: old) done.length c = .ok (done ++ c :: old) := by
  rw [store, if_pos (by simp)]
  simp

/-- The loop replaces what is in the buffer from the position on, as long as there is room. -/
theorem strncatLoop_eq (done old src : List Char) (n : ℕ) (h : (src.take n).length ≤ old.length) :
    strncatLoop (done ++ old) done.length src n =
      .ok (done ++ src.take n ++ old.drop (src.take n).length,done.length + (src.take n).length) := by
  induction n generalizing done old src with
  | zero => cases src <;> simp [strncatLoop]
  | succ n ih =>
    cases src with
    | nil => simp [strncatLoop]
    | cons c src =>
      cases old with
      | nil => cases h
      | cons a old =>
        rw [List.take_succ_cons, List.length_cons, List.length_cons, Nat.add_le_add_iff_right] at h
        have hih := ih (done ++ [c]) old src h
        rw [List.length_append, List.length_singleton, List.append_assoc, List.singleton_append] at hih
        rw [strncatLoop, store_append]
        simp only [bind, Except.bind]
        rw [hih, List.take_succ_cons]
        simp [Nat.add_right_comm, Nat.add_assoc]

/-- A name of `kBufSize` characters leaves no room for the NUL. -/
theorem copyName_eq (hbuf : buf.length = kBufSize) (hn : n ≤ src.length) : copyName buf src n =
    if n < kBufSize then .ok (src.take n ++ '\x00' :: buf.drop (n + 1)) else .error .buffer := by
  obtain ⟨a,old,rfl⟩ : ∃ a old, buf = a :: old := by
    cases buf with
    | nil => cases hbuf
    | cons a old => exact ⟨a,old,rfl⟩
  rw [List.length_cons] at hbuf
  have hstore : store (a :: old) 0 '\x00' = .ok ('\x00' :: old) := store_append [] old a '\x00'
  have hlen : (src.take (min kBufSize n)).length = min kBufSize n := by
    rw [List.length_take]
    omega
  have hloop := strncatLoop_eq [] ('\x00' :: old) src (min kBufSize n) (by
    rw [hlen, List.length_cons]
    omega)
  rw [hlen, List.nil_append, List.nil_append, List.length_nil, Nat.zero_add] at hloop
  have hstring : internal_strlen (bufferString ('\x00' :: old)) = 0 := by
    simp [bufferString]
  rw [copyName, hstore]
  simp only [bind, Except.bind, internal_strncat]
  rw [hstring, hloop]
  dsimp only
  split_ifs with hlt
  · rw [Nat.min_eq_right hlt.le] at hlen ⊢
    obtain ⟨b,rest,hrest⟩ : ∃ b rest, ('\x00' :: old).drop n = b :: rest :=
      List.exists_cons_of_ne_nil (List.ne_nil_of_length_pos (by simp; omega))
    have htail : rest = (a :: old).drop (n + 1) := by
      rw [List.drop_succ_cons]
      have h := congrArg List.tail hrest
      rw [List.tail_drop, List.drop_succ_cons] at h
      exact h.symm
    have h := store_append (src.take n) rest b '\x00'
    rw [hlen] at h
    rw [hrest, h, htail]
  · rw [Nat.min_eq_left (Nat.not_lt.mp hlt)] at hlen ⊢
    rw [store, if_neg]
    rw [List.length_append, hlen, List.length_drop, List.length_cons]
    omega

theorem bufferString_append (h : '\x00' ∉ src) (rest : List Char) : bufferString (src ++ '\x00' :: rest) = src := by
  rw [bufferString, List.takeWhile_append_of_pos]
  · simp
  · intro c hc
    exact decide_eq_true fun heq => h (heq ▸ hc)

end Copies

/-! ## Parsing -/

section Parsing
variable {s rest : CString} {o : StackObject} {objects : List StackObject} {buf : List Char} {f : Frame}

theorem strtoll_numeral (h : IsNumeral s) (hr : rest.head? = some ' ') :
    internal_simple_strtoll (' ' :: s ++ rest) = (((min INT64_MAX (decimal s) : ℕ) : ℤ),rest) := by
  obtain ⟨c,t,rfl⟩ := List.exists_cons_of_ne_nil h.1
  have hc := h.2 c List.mem_cons_self
  have hplain : ¬IsSpace c ∧ c ≠ '+' ∧ c ≠ '-' := by
    have hdigit : ∀ d : Char, ¬IsDigit d → c ≠ d := fun d hd heq => hd (heq ▸ hc)
    refine ⟨?_,hdigit _ (by decide),hdigit _ (by decide)⟩
    simp only [IsSpace, Bool.or_eq_true, decide_eq_true_eq, not_or]
    exact ⟨⟨⟨⟨⟨hdigit _ (by decide),hdigit _ (by decide)⟩,hdigit _ (by decide)⟩,hdigit _ (by decide)⟩,
      hdigit _ (by decide)⟩,hdigit _ (by decide)⟩
  have hnum : Number [' '] [] (c :: t) rest := by
    refine ⟨fun d hd => ?_,Or.inl rfl,h.2,fun d hd => ?_,fun _ d hd => ?_,fun d hd => ?_⟩
    · rw [List.mem_singleton.mp hd]
      rfl
    · cases hd
      exact hplain.1
    · cases hd
      exact hplain.2
    · rw [hr] at hd
      cases hd
      decide
  have hread := strtoll_number hnum
  rw [List.append_nil, if_neg (List.cons_ne_nil c t), if_neg (by simp), one_mul] at hread
  refine hread.trans (Prod.ext ?_ rfl)
  unfold INT64_MAX INT64_MIN
  omega

theorem objectsText_head : (objectsText objects).head? = some ' ' := by
  cases objects <;> rfl

theorem toUptr_min (n : ℕ) : toUptr ((min INT64_MAX n : ℕ) : ℤ) = min INT64_MAX n := by
  unfold toUptr INT64_MAX
  omega

theorem min_eq_zero_iff (n : ℕ) : min INT64_MAX n = 0 ↔ n = 0 := by
  unfold INT64_MAX
  omega

theorem readable_iff : o.Readable = true ↔ decimal o.offset ≠ 0 ∧ decimal o.size ≠ 0 := by
  simp [StackObject.Readable]

theorem shortNames_cons (h : o.Readable = true) :
    ShortNames (o :: objects) ↔ o.name.length < kBufSize ∧ ShortNames objects := by
  rw [ShortNames, List.takeWhile_cons_of_pos h]
  simp [ShortNames]

/-- The objects are read one after the other, up to one that is taken for an error. -/
theorem describeObjects_eq (hwf : ∀ o ∈ objects, o.WellFormed) (hfits : (objectsText objects).length < 2^63)
    (hbuf : buf.length = kBufSize) : describeObjects objects.length (objectsText objects) buf =
      if ShortNames objects then
        .ok ((objects.takeWhile StackObject.Readable).map StackObject.shown,objects.all StackObject.Readable)
      else .error .buffer := by
  induction objects generalizing buf with
  | nil => rfl
  | cons o objects ih =>
    have ho := hwf o List.mem_cons_self
    have hlen : o.name.length + (objectsText objects).length < 2^63 := by
      refine lt_of_le_of_lt ?_ hfits
      simp only [objectsText, List.length_append, List.length_cons]
      omega
    have hname : min INT64_MAX (decimal o.len) = o.name.length := by
      rw [ho.len_eq]
      unfold INT64_MAX
      omega
    rw [List.length_cons, describeObjects, objectsText, strtoll_numeral ho.offset rfl]
    dsimp only
    rw [strtoll_numeral ho.size rfl]
    dsimp only
    rw [strtoll_numeral ho.len rfl]
    simp only [toUptr_min, min_eq_zero_iff, hname, Int.toNat_natCast, List.tail_cons, List.head?_cons, not_true_eq_false,
      or_false, ne_eq]
    by_cases hr : o.Readable = true
    · obtain ⟨hoff,hsize⟩ := readable_iff.mp hr
      rw [if_neg (by simp [hoff, hsize]), copyName_eq hbuf (by simp)]
      simp only [shortNames_cons hr, List.takeWhile_cons_of_pos hr, List.map_cons, List.all_cons, hr, Bool.true_and]
      by_cases hlt : o.name.length < kBufSize
      · have hbuf' : ((o.name ++ objectsText objects).take o.name.length ++
            '\x00' :: buf.drop (o.name.length + 1)).length = kBufSize := by
          simp only [List.take_left, List.length_append, List.length_cons, List.length_drop, hbuf]
          omega
        have hih := ih (fun o ho => hwf o (List.mem_cons_of_mem _ ho)) (by omega) hbuf'
        rw [if_pos hlt]
        simp only [bind, Except.bind, List.drop_left, hih]
        rw [if_neg (by simp), List.take_left, bufferString_append ho.name]
        simp only [hlt, true_and]
        split_ifs <;> rfl
      · rw [if_neg hlt, if_neg fun h => hlt h.1]
        rfl
    · have hno : decimal o.offset = 0 ∨ decimal o.size = 0 := by
        by_contra hboth
        exact hr (readable_iff.mpr (not_or.mp hboth))
      rw [if_pos (by tauto), if_pos]
      · simp [List.takeWhile_cons_of_neg hr, hr]
      · simp [ShortNames, List.takeWhile_cons_of_neg hr]

/-- What the function does with the descriptor of a frame. -/
theorem DescribeAddressIfStack_eq (hwf : f.WellFormed) (hbuf : buf.length = kBufSize) :
    DescribeAddressIfStack f.descriptor buf =
      if f.function.length < kBufSize ∧ ShortNames f.objects then
        .ok (if f.objects = [] then .died
          else .frame f.function f.objects.length ((f.objects.takeWhile StackObject.Readable).map StackObject.shown)
            (f.objects.all StackObject.Readable))
      else .error .buffer := by
  have hfits := hwf.fits
  have hchr : internal_strchr f.descriptor ' ' = some (' ' :: f.n ++ objectsText f.objects) := by
    rw [Frame.descriptor, internal_strchr_append hwf.function.1]
    exact if_pos rfl
  have hlen : f.descriptor.length - (' ' :: f.n ++ objectsText f.objects).length = f.function.length := by
    rw [Frame.descriptor, List.length_append, Nat.add_sub_cancel]
  have htext : (objectsText f.objects).length < 2^63 := by
    refine lt_of_le_of_lt ?_ hfits
    rw [Frame.descriptor, List.length_append, List.length_append]
    omega
  have hcount : f.objects.length < 2^63 := by
    refine lt_of_le_of_lt ?_ htext
    have hle : ∀ objects : List StackObject, objects.length ≤ (objectsText objects).length := by
      intro objects
      induction objects with
      | nil => exact Nat.zero_le _
      | cons o objects ih =>
        simp only [objectsText, List.length_append, List.length_cons]
        omega
    exact hle f.objects
  have hn : toUptr (internal_simple_strtoll (' ' :: f.n ++ objectsText f.objects)).1 = f.objects.length := by
    rw [strtoll_numeral hwf.n objectsText_head, toUptr_min, hwf.n_eq]
    unfold INT64_MAX
    omega
  have hp : (internal_simple_strtoll (' ' :: f.n ++ objectsText f.objects)).2 = objectsText f.objects := by
    rw [strtoll_numeral hwf.n objectsText_head]
  rw [DescribeAddressIfStack, hchr]
  dsimp only
  rw [hlen, copyName_eq hbuf (by rw [Frame.descriptor]; simp)]
  by_cases hlt : f.function.length < kBufSize
  · have hbuf' : (f.descriptor.take f.function.length ++ '\x00' :: buf.drop (f.function.length + 1)).length =
        kBufSize := by
      rw [Frame.descriptor]
      simp only [List.take_left, List.length_append, List.length_cons, List.length_drop, hbuf]
      omega
    rw [if_pos hlt]
    simp only [bind, Except.bind, hn, hp, hlt, true_and, List.length_eq_zero_iff,
      describeObjects_eq hwf.objects htext hbuf']
    by_cases hnil : f.objects = []
    · rw [if_pos hnil, if_pos hnil, if_pos]
      rw [hnil]
      simp [ShortNames]
    · rw [if_neg hnil, if_neg hnil, Frame.descriptor, List.take_left, bufferString_append hwf.function.2]
      split_ifs <;> rfl
  · rw [if_neg hlt, if_neg fun h => hlt h.1]
    rfl

/-- The parsing stays in the descriptor; the stores stay in the buffer if all names that are copied leave room for the
NUL. -/
theorem DescribeAddressIfStack_iff (hwf : f.WellFormed) (hbuf : buf.length = kBufSize) :
    (InBounds (DescribeAddressIfStack f.descriptor buf) ↔ f.function.length < kBufSize ∧ ShortNames f.objects) ∧
      DescribeAddressIfStack f.descriptor buf ≠ .error .descriptor := by
  rw [DescribeAddressIfStack_eq hwf hbuf]
  by_cases h : f.function.length < kBufSize ∧ ShortNames f.objects
  · rw [if_pos h]
    exact ⟨iff_of_true (fun _ => nofun) h,nofun⟩
  · rw [if_neg h]
    exact ⟨iff_of_false (fun hin => hin .buffer rfl) h,by simp⟩

theorem isNumeral_of_all (hne : s ≠ []) (h : s.all IsDigit = true) : IsNumeral s := ⟨hne,List.all_eq_true.mp h⟩

/-- A frame with one object of four bytes. -/
def Frame.simple (function : CString) : Frame := ⟨function,['1'],[⟨['3','2'],['4'],['1'],['x']⟩]⟩

theorem Frame.simple_wellFormed {function : CString} (h : ' ' ∉ function ∧ '\x00' ∉ function)
    (hlen : function.length < 2^62) : (simple function).WellFormed := by
  refine ⟨h,isNumeral_of_all (List.cons_ne_nil _ _) rfl,rfl,?_,?_⟩
  · intro o ho
    rw [simple, List.mem_singleton] at ho
    subst ho
    exact ⟨isNumeral_of_all (List.cons_ne_nil _ _) rfl,isNumeral_of_all (List.cons_ne_nil _ _) rfl,
      isNumeral_of_all (List.cons_ne_nil _ _) rfl,rfl,by decide⟩
  · simp only [descriptor, simple, objectsText, List.length_append, List.length_cons, List.length_nil]
    omega

theorem DescribeAddressIfStack_simple :
    (InBounds (DescribeAddressIfStack (Frame.simple ['f']).descriptor (List.replicate kBufSize 'a')) ↔
      (Frame.simple ['f']).function.length < kBufSize ∧ ShortNames (Frame.simple ['f']).objects) ∧
      DescribeAddressIfStack (Frame.simple ['f']).descriptor (List.replicate kBufSize 'a') ≠ .error .descriptor :=
  DescribeAddressIfStack_iff (Frame.simple_wellFormed ⟨by decide,by decide⟩ (by decide)) List.length_replicate

/-- A function name that fills the buffer. -/
theorem DescribeAddressIfStack_long : (Frame.simple (List.replicate kBufSize 'f')).WellFormed ∧
    ¬InBounds (DescribeAddressIfStack (Frame.simple (List.replicate kBufSize 'f')).descriptor
      (List.replicate kBufSize 'a')) := by
  have hwf : (Frame.simple (List.replicate kBufSize 'f')).WellFormed := by
    refine Frame.simple_wellFormed ⟨?_,?_⟩ ?_
    · exact fun h => absurd (List.eq_of_mem_replicate h) (by decide)
    · exact fun h => absurd (List.eq_of_mem_replicate h) (by decide)
    · rw [List.length_replicate]
      decide
  refine ⟨hwf,fun hin => hin .buffer ?_⟩
  rw [DescribeAddressIfStack_eq hwf List.length_replicate, if_neg]
  intro h
  have hlt := h.1
  rw [Frame.simple, List.length_replicate] at hlt
  exact lt_irrefl _ hlt

end Parsing
end CompilerRt.AsanReport
