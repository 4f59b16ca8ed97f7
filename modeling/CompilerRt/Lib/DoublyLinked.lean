import Mathlib

/-! # Doubly linked lists

Each node of the list points to the one behind it and to the one before it. A node is put to the front or taken out
anywhere, and the list stands for the others as before.
-/
namespace CompilerRt.DoublyLinked
variable {α : Type*}

/-- The nodes from a pointer on are those of the list; `before` is the node in front of them. -/
def Links (next prev : α → Option α) : Option α → Option α → List α → Prop
  | _, p, [] => p = none
  | before, p, a :: l => p = some a ∧ prev a = before ∧ Links next prev (some a) (next a) l

variable {next prev next' prev' : α → Option α} {before p : Option α} {a b : α} {l l₁ l₂ : List α}

theorem Links.head (h : Links next prev before p l) : p = l.head? := by
  cases l with
  | nil => exact h
  | cons a l => exact h.1

/-- Only the links of the nodes of the list count. -/
theorem Links.congr (h : Links next prev before p l) (hnext : ∀ x ∈ l, next' x = next x)
    (hprev : ∀ x ∈ l, prev' x = prev x) : Links next' prev' before p l := by
  induction l generalizing before p with
  | nil => exact h
  | cons a l ih =>
    obtain ⟨hp,hbefore,htail⟩ := h
    refine ⟨hp,(hprev a List.mem_cons_self).trans hbefore,?_⟩
    rw [hnext a List.mem_cons_self]
    exact ih htail (fun x hx => hnext x (List.mem_cons_of_mem a hx)) fun x hx => hprev x (List.mem_cons_of_mem a hx)

/-- What is behind a node, with that node before it. -/
theorem Links.split (h : Links next prev before p (l₁ ++ a :: l₂)) :
    prev a = (l₁.getLast?).or before ∧ next a = l₂.head? ∧ Links next prev (some a) (next a) l₂ := by
  induction l₁ generalizing before p with
  | nil => exact ⟨h.2.1,h.2.2.head,h.2.2⟩
  | cons b l₁ ih =>
    obtain ⟨hprev,hrest⟩ := ih h.2.2
    refine ⟨?_,hrest⟩
    rw [hprev, List.getLast?_cons]
    cases l₁.getLast? <;> rfl

/-- A new node in front; the first node, if there is one, points back to it. -/
theorem Links.push (h : Links next prev none p l) (ha : a ∉ l) (hn : l.Nodup) (hnext : next' a = p)
    (hprev : prev' a = none) (hfirst : ∀ x, l.head? = some x → prev' x = some a)
    (hnexts : ∀ x ∈ l, next' x = next x) (hprevs : ∀ x ∈ l, l.head? ≠ some x → prev' x = prev x) :
    Links next' prev' none (some a) (a :: l) := by
  refine ⟨rfl,hprev,?_⟩
  rw [hnext]
  cases l with
  | nil => exact h
  | cons b l =>
    obtain ⟨hp,-,htail⟩ := h
    rw [List.nodup_cons] at hn
    refine ⟨hp,hfirst b rfl,?_⟩
    rw [hnexts b List.mem_cons_self]
    refine htail.congr (fun x hx => hnexts x (List.mem_cons_of_mem b hx)) fun x hx => ?_
    refine hprevs x (List.mem_cons_of_mem b hx) ?_
    rintro ⟨⟩
    exact hn.1 hx

variable [DecidableEq α]

/-- A node is taken out: its neighbours point to each other. -/
theorem Links.remove (h : Links next prev before p (l₁ ++ a :: l₂)) (hn : (l₁ ++ a :: l₂).Nodup)
    (hbefore : ∀ x, before = some x → x ∉ l₁ ++ a :: l₂)
    (hnext : ∀ x ∈ l₁ ++ l₂, next' x = if prev a = some x then next a else next x)
    (hprev : ∀ x ∈ l₁ ++ l₂, prev' x = if next a = some x then prev a else prev x) :
    Links next' prev' before (if p = some a then next a else p) (l₁ ++ l₂) := by
  induction l₁ generalizing before p with
  | nil =>
    obtain ⟨hp,hpa,htail⟩ := h
    rw [if_pos hp]
    rw [List.nil_append, List.nodup_cons] at hn
    cases l₂ with
    | nil => exact htail
    | cons c l₂ =>
      obtain ⟨hc,hpc,hrest⟩ := htail
      have hout : ∀ x ∈ c :: l₂, prev a ≠ some x := fun x hx heq =>
        hbefore x (hpa.symm.trans heq) (List.mem_cons_of_mem a hx)
      refine ⟨hc,?_,?_⟩
      · rw [hprev c List.mem_cons_self, if_pos hc, hpa]
      · rw [hnext c List.mem_cons_self, if_neg (hout c List.mem_cons_self)]
        refine hrest.congr (fun x hx => ?_) fun x hx => ?_
        · rw [hnext x (List.mem_cons_of_mem c hx), if_neg (hout x (List.mem_cons_of_mem c hx))]
        · have hne : next a ≠ some x := by
            rw [hc]
            rintro ⟨⟩
            exact (List.nodup_cons.mp hn.2).1 hx
          rw [hprev x (List.mem_cons_of_mem c hx), if_neg hne]
  | cons b l₁ ih =>
    obtain ⟨hp,hpb,htail⟩ := h
    obtain ⟨hpa,hna,-⟩ := htail.split
    rw [List.cons_append, List.nodup_cons] at hn
    have hba : b ≠ a := by
      rintro rfl
      exact hn.1 (List.mem_append_right l₁ List.mem_cons_self)
    have hpna : p ≠ some a := by
      rw [hp]
      exact fun heq => hba (Option.some.inj heq)
    have hnb : next a ≠ some b := by
      rw [hna]
      intro heq
      exact hn.1 (List.mem_append_right l₁ (List.mem_cons_of_mem a (List.mem_of_mem_head? heq)))
    have hlink : next' b = if next b = some a then next a else next b := by
      rw [hnext b List.mem_cons_self]
      have hhead := htail.head
      cases l₁ with
      | nil =>
        have hpb' : prev a = some b := hpa
        have hhead' : next b = some a := hhead
        rw [if_pos hpb', if_pos hhead']
      | cons c l₁ =>
        have hpb' : prev a ≠ some b := by
          rw [hpa]
          intro heq
          have hlast : (c :: l₁).getLast? = some b := by
            rw [List.getLast?_cons] at heq ⊢
            exact heq
          exact hn.1 (List.mem_append_left _ (List.mem_of_getLast? hlast))
        have hnb' : next b ≠ some a := by
          rw [hhead]
          rintro ⟨⟩
          exact (List.nodup_cons.mp hn.2).1 (List.mem_append_right l₁ List.mem_cons_self)
        rw [if_neg hpb', if_neg hnb']
    rw [if_neg hpna]
    refine ⟨hp,?_,?_⟩
    · rw [hprev b List.mem_cons_self, if_neg hnb, hpb]
    · rw [hlink]
      refine ih htail hn.2 (fun x hx => ?_) (fun x hx => hnext x (List.mem_cons_of_mem b hx))
        fun x hx => hprev x (List.mem_cons_of_mem b hx)
      cases hx
      exact hn.1

end CompilerRt.DoublyLinked
