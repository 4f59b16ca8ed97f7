import Mathlib.Data.Nat.Notation

/-! # Files open for reading and writing

An open file is what lies before its position and what lies after it. Writing replaces what follows; a read
that finds too little fails and leaves the position at the end. What lies before the position does not matter to
any operation that stays after it.
-/
namespace CompilerRt

structure FileStream (α : Type*) where
  before : List α
  after : List α
  deriving DecidableEq,Repr

namespace FileStream
variable {α : Type*}

def ofContents (bytes : List α) : FileStream α := ⟨[],bytes⟩

def contents (f : FileStream α) : List α := f.before ++ f.after

def ftell (f : FileStream α) : ℕ := f.before.length

def fseek (pos : ℕ) (f : FileStream α) : FileStream α := ⟨f.contents.take pos,f.contents.drop pos⟩

def fwrite (data : List α) (f : FileStream α) : FileStream α := ⟨f.before ++ data,f.after.drop data.length⟩

def fread (n : ℕ) (f : FileStream α) : Option (List α) × FileStream α :=
  if n ≤ f.after.length then (some (f.after.take n),⟨f.before ++ f.after.take n,f.after.drop n⟩)
  else (none,⟨f.before ++ f.after,[]⟩)

theorem fwrite_fwrite (xs ys : List α) (f : FileStream α) : (f.fwrite xs).fwrite ys = f.fwrite (xs ++ ys) := by
  simp [fwrite,List.drop_drop]

@[simp] theorem fwrite_nil (f : FileStream α) : f.fwrite [] = f := by
  simp [fwrite]

theorem fwrite_over {data old : List α} (h : data.length = old.length) (b r : List α) :
    fwrite data ⟨b,old ++ r⟩ = ⟨b ++ data,r⟩ := by
  simp [fwrite,h]

theorem fwrite_end (data b : List α) : fwrite data ⟨b,[]⟩ = ⟨b ++ data,[]⟩ := by
  simp [fwrite]

theorem fread_append {n : ℕ} {xs : List α} (h : xs.length = n) (b r : List α) :
    fread n ⟨b,xs ++ r⟩ = (some xs,⟨b ++ xs,r⟩) := by
  subst h
  simp [fread]

theorem fread_end {n : ℕ} (hn : 0 < n) (b : List α) : fread n ⟨b,[]⟩ = (none,⟨b,[]⟩) := by
  rw [fread,if_neg (by simp; omega)]
  simp

theorem fread_contents (n : ℕ) (f : FileStream α) : (f.fread n).2.contents = f.contents := by
  unfold fread contents
  split <;> simp

/-- A read moves the position by at most what it asks for. -/
theorem fread_ftell_le (n : ℕ) (f : FileStream α) : (f.fread n).2.ftell ≤ f.ftell + n := by
  unfold fread ftell
  split
  · simp only [List.length_append,List.length_take]
    omega
  · simp only [List.length_append]
    omega

/-- Reading and going back leaves the file as it was. -/
theorem fseek_of_contents {f g : FileStream α} (h : g.contents = f.contents) : g.fseek f.ftell = f := by
  rw [fseek,h]
  simp [contents,ftell]

/-- The file with `xs` put before it. -/
def push (xs : List α) (f : FileStream α) : FileStream α := ⟨xs ++ f.before,f.after⟩

@[simp] theorem push_mk (xs b a : List α) : push xs ⟨b,a⟩ = ⟨xs ++ b,a⟩ := rfl

@[simp] theorem contents_push (xs : List α) (f : FileStream α) : (f.push xs).contents = xs ++ f.contents := by
  simp [push,contents]

@[simp] theorem ftell_push (xs : List α) (f : FileStream α) : (f.push xs).ftell = xs.length + f.ftell := by
  simp [push,ftell]

theorem fwrite_push (data xs : List α) (f : FileStream α) : (f.push xs).fwrite data = (f.fwrite data).push xs := by
  simp [push,fwrite]

theorem fread_push (n : ℕ) (xs : List α) (f : FileStream α) :
    (f.push xs).fread n = ((f.fread n).1,(f.fread n).2.push xs) := by
  unfold fread push
  dsimp only
  split <;> simp

theorem fseek_push (pos : ℕ) (xs : List α) (f : FileStream α) :
    (f.push xs).fseek (xs.length + pos) = (f.fseek pos).push xs := by
  rw [fseek,contents_push,List.take_length_add_append,List.drop_length_add_append]
  rfl

end FileStream
end CompilerRt
