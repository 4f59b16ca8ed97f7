import CompilerRt.Lib.Transition
import CompilerRt.Tsan.Platform
import CompilerRt.Tsan.Shadow
import Mathlib

/-! # Reports of races

`ReportRace` of `lib/tsan/rtl/tsan_rtl_report.cc`, with the tables of the stacks and of the addresses of the races that
were seen. A printed report extends both tables, a withheld one those that do not have it.
-/
namespace CompilerRt.Tsan.RaceReports
open Platform (uptr Layout ShadowCount)

inductive ReportType where
  | Race
  | UseAfterFree
  deriving DecidableEq

structure RacyAddress where
  addr_min : uptr
  addr_max : uptr

/-- The flags, and what is outside of the reports. -/
structure Env (MD5Hash : Type*) where
  layout : Layout
  shadowCount : ShadowCount
  report_bugs : Bool
  suppress_equal_stacks : Bool
  suppress_equal_addresses : Bool
  md5_hash : List u64 → MD5Hash
  IsExpectedReport : uptr → uptr → Bool
  IsSuppressed : ReportType → List u64 → uptr

/-- What the thread has of the race, with the stack that it is at and the one that is restored for the other access. -/
structure Race where
  racy_shadow_addr : uptr
  racy_state : u64 × u64
  current : List u64
  restored : List u64

structure Context (MD5Hash : Type*) where
  racy_stacks : List (MD5Hash × MD5Hash)
  racy_addresses : List RacyAddress
  fired_suppressions : List (ReportType × uptr)
  nreported : ℕ

/-- How a call ends: nobody hears of the race, or its report is withheld as doubled, or printed. -/
inductive Outcome where
  | ignored
  | withheld
  | printed
  deriving DecidableEq

section Code
variable {MD5Hash : Type*} [DecidableEq MD5Hash] [Inhabited MD5Hash] (env : Env MD5Hash)

def uptrMin (a b : uptr) : uptr := if a < b then a else b
def uptrMax (a b : uptr) : uptr := if a > b then a else b

/-- `RacyStacks::operator==`. -/
def equalStacks (hash other : MD5Hash × MD5Hash) : Bool :=
  if hash.1 = other.1 ∧ hash.2 = other.2 then true
  else if hash.1 = other.2 ∧ hash.2 = other.1 then true
  else false

def stackHash (r : Race) : MD5Hash × MD5Hash := (env.md5_hash r.current,env.md5_hash r.restored)

/-- Whether the report is withheld, with the tables as they are then. -/
def HandleRacyStacks (ctx : Context MD5Hash) (r : Race) (ra0 : RacyAddress) : Bool × Context MD5Hash :=
  let hash := if env.suppress_equal_stacks then stackHash env r else default
  let equal_stack := env.suppress_equal_stacks && ctx.racy_stacks.any (equalStacks hash)
  let equal_address := env.suppress_equal_addresses && ctx.racy_addresses.any fun ra2 =>
    uptrMax ra0.addr_min ra2.addr_min < uptrMin ra0.addr_max ra2.addr_max
  if equal_stack || equal_address then
    (true,{ ctx with
      racy_stacks := if equal_stack then ctx.racy_stacks else ctx.racy_stacks ++ [hash]
      racy_addresses := if equal_address then ctx.racy_addresses else ctx.racy_addresses ++ [ra0] })
  else (false,ctx)

def AddRacyStacks (ctx : Context MD5Hash) (r : Race) (ra0 : RacyAddress) : Context MD5Hash :=
  { ctx with
    racy_stacks := if env.suppress_equal_stacks then ctx.racy_stacks ++ [stackHash env r] else ctx.racy_stacks
    racy_addresses := if env.suppress_equal_addresses then ctx.racy_addresses ++ [ra0] else ctx.racy_addresses }

/-- `OnReport` is the weak one, which goes by the suppression. -/
def OutputReport (ctx : Context MD5Hash) (typ : ReportType) (suppress_stack : List u64) : Bool × Context MD5Hash :=
  let suppress_pc := env.IsSuppressed typ suppress_stack
  if suppress_pc ≠ 0 then (false,{ ctx with fired_suppressions := ctx.fired_suppressions ++ [(typ,suppress_pc)] })
  else (true,{ ctx with nreported := ctx.nreported + 1 })

def IsFiredSuppression (ctx : Context MD5Hash) (typ : ReportType) (trace : List u64) : Bool :=
  ctx.fired_suppressions.any fun supp => supp.1 = typ && trace.any fun pc => pc = supp.2

/-- `GetFreedAndReset`. -/
def freedAndReset (x : u64) : Bool × u64 := (x &&& FastState.kFreedBit ≠ 0,x &&& ~~~FastState.kFreedBit)

def racyAddress (r : Race) (addr : uptr) : RacyAddress :=
  let s1 := (freedAndReset r.racy_state.2).2
  let a0 := addr + Shadow.addr0 r.racy_state.1
  let a1 := addr + Shadow.addr0 s1
  let e0 := a0 + Shadow.size r.racy_state.1
  let e1 := a1 + Shadow.size s1
  ⟨uptrMin a0 a1,uptrMax e0 e1⟩

/-- None where the `CHECK` of `ShadowToMem` fails. -/
def ReportRace (ctx : Context MD5Hash) (r : Race) : Option (Outcome × Context MD5Hash) :=
  if env.report_bugs then
    (env.layout.ShadowToMem env.shadowCount r.racy_shadow_addr).map fun addr =>
      let typ := if (freedAndReset r.racy_state.2).1 then .UseAfterFree else .Race
      let ra := racyAddress r addr
      if env.IsExpectedReport ra.addr_min (ra.addr_max - ra.addr_min) then (.ignored,ctx)
      else if IsFiredSuppression ctx typ r.current then (.ignored,ctx)
      else
        let h := HandleRacyStacks env ctx r ra
        if h.1 then (.withheld,h.2)
        else
          let o := OutputReport env h.2 typ r.current
          if o.1 then (.printed,AddRacyStacks env o.2 r ra) else (.ignored,o.2)
  else some (.ignored,ctx)

/-- The tables with the races so far. -/
structure State (MD5Hash : Type*) where
  ctx : Context MD5Hash
  history : List (Race × Outcome)

def Init : State MD5Hash := ⟨⟨[],[],[],0⟩,[]⟩

def step (s : State MD5Hash) (r : Race) : Option (State MD5Hash) :=
  (ReportRace env s.ctx r).map fun o => ⟨o.2,s.history ++ [(r,o.1)]⟩

end Code

/-! ## What the tables are for -/

/-- The same pair of stacks, in one order or the other. -/
def SameStacks (r r' : Race) : Prop :=
  r.current = r'.current ∧ r.restored = r'.restored ∨ r.current = r'.restored ∧ r.restored = r'.current

def RacyAddress.Overlap (ra ra' : RacyAddress) : Prop :=
  ∃ x : uptr, (ra.addr_min ≤ x ∧ x < ra.addr_max) ∧ ra'.addr_min ≤ x ∧ x < ra'.addr_max

variable {MD5Hash : Type*} {env : Env MD5Hash}

/-- The racy ranges have a byte in common. -/
def OverlapOf (env : Env MD5Hash) (r r' : Race) : Prop :=
  ∃ addr addr', env.layout.ShadowToMem env.shadowCount r.racy_shadow_addr = some addr ∧
    env.layout.ShadowToMem env.shadowCount r'.racy_shadow_addr = some addr' ∧
      (racyAddress r addr).Overlap (racyAddress r' addr')

/-- No two reports are doubled, and a report is withheld only for an earlier race. -/
structure Deduplicated (env : Env MD5Hash) (history : List (Race × Outcome)) : Prop where
  printed : history.Pairwise fun h h' => h.2 = .printed → h'.2 = .printed →
    ¬SameStacks h.1 h'.1 ∧ ¬OverlapOf env h.1 h'.1
  withheld : ∀ before r after, history = before ++ (r,.withheld) :: after →
    ∃ h ∈ before, h.2 ≠ .ignored ∧ (SameStacks h.1 r ∨ OverlapOf env h.1 r)

theorem lt_uptrMin {x a b : uptr} : x < uptrMin a b ↔ x < a ∧ x < b := by
  rw [uptrMin]
  split_ifs <;> simp only [BitVec.lt_def] at * <;> omega

theorem uptrMax_le {x a b : uptr} : uptrMax a b ≤ x ↔ a ≤ x ∧ b ≤ x := by
  rw [uptrMax]
  split_ifs <;> simp only [BitVec.lt_def, BitVec.le_def] at * <;> omega

/-- The test of the loop finds a common byte. -/
theorem overlap_iff {ra ra' : RacyAddress} :
    uptrMax ra.addr_min ra'.addr_min < uptrMin ra.addr_max ra'.addr_max ↔ ra'.Overlap ra := by
  constructor
  · intro h
    obtain ⟨hmax,hmax'⟩ := lt_uptrMin.mp h
    obtain ⟨hmin,hmin'⟩ := uptrMax_le.mp (BitVec.le_refl (uptrMax ra.addr_min ra'.addr_min))
    exact ⟨_,⟨hmin',hmax'⟩,hmin,hmax⟩
  · rintro ⟨x,⟨hmin',hmax'⟩,hmin,hmax⟩
    have hle := uptrMax_le.mpr ⟨hmin,hmin'⟩
    have hlt := lt_uptrMin.mpr ⟨hmax,hmax'⟩
    rw [BitVec.le_def] at hle
    rw [BitVec.lt_def] at hlt ⊢
    exact hle.trans_lt hlt

/-- Both kinds of doubled reports are withheld, and nothing is annotated or suppressed by the user. -/
structure Plain (env : Env MD5Hash) : Prop where
  equalStacks : env.suppress_equal_stacks = true
  equalAddresses : env.suppress_equal_addresses = true
  expected : ∀ addr size, env.IsExpectedReport addr size = false
  suppressed : ∀ typ stack, env.IsSuppressed typ stack = 0
  md5 : Function.Injective env.md5_hash

section Runs
variable [DecidableEq MD5Hash]

theorem equalStacks_iff {hash other : MD5Hash × MD5Hash} : equalStacks hash other = true ↔
    hash.1 = other.1 ∧ hash.2 = other.2 ∨ hash.1 = other.2 ∧ hash.2 = other.1 := by
  rw [equalStacks]
  split_ifs with h h'
  · exact ⟨fun _ => .inl h,fun _ => rfl⟩
  · exact ⟨fun _ => .inr h',fun _ => rfl⟩
  · exact ⟨fun he => absurd he (by decide),fun hor => absurd hor (not_or.mpr ⟨h,h'⟩)⟩

/-- Equal hashes are those of equal pairs of stacks. -/
theorem equalStacks_stackHash (hmd5 : Function.Injective env.md5_hash) (r r' : Race) :
    equalStacks (stackHash env r) (stackHash env r') = true ↔ SameStacks r' r := by
  rw [equalStacks_iff, SameStacks, stackHash, stackHash, hmd5.eq_iff, hmd5.eq_iff, hmd5.eq_iff, hmd5.eq_iff]
  tauto

/-- The tables have the race, or one that doubles it. -/
def Doubled (env : Env MD5Hash) (ctx : Context MD5Hash) (r : Race) (ra : RacyAddress) : Prop :=
  (∃ hash ∈ ctx.racy_stacks, equalStacks (stackHash env r) hash = true) ∨ ∃ ra2 ∈ ctx.racy_addresses, ra2.Overlap ra

/-- A table is extended by one entry at most. -/
def Extended {α : Type*} (table table' : List α) (x : α) : Prop := table' = table ∨ table' = table ++ [x]

variable [Inhabited MD5Hash] {s s' : State MD5Hash} {ctx ctx' : Context MD5Hash} {r : Race} {ra : RacyAddress} {o : Outcome}

theorem HandleRacyStacks_spec (h : Plain env) (ctx : Context MD5Hash) (r : Race) (ra : RacyAddress) :
    (Doubled env ctx r ra ∧ (HandleRacyStacks env ctx r ra).1 = true ∧
      Extended ctx.racy_stacks (HandleRacyStacks env ctx r ra).2.racy_stacks (stackHash env r) ∧
      Extended ctx.racy_addresses (HandleRacyStacks env ctx r ra).2.racy_addresses ra ∧
      (HandleRacyStacks env ctx r ra).2.fired_suppressions = ctx.fired_suppressions) ∨
    (¬Doubled env ctx r ra ∧ HandleRacyStacks env ctx r ra = (false,ctx)) := by
  have hstack : ctx.racy_stacks.any (equalStacks (stackHash env r)) = true ↔
      ∃ hash ∈ ctx.racy_stacks, equalStacks (stackHash env r) hash = true := List.any_eq_true
  have haddress : (ctx.racy_addresses.any fun ra2 =>
        uptrMax ra.addr_min ra2.addr_min < uptrMin ra.addr_max ra2.addr_max) = true ↔
      ∃ ra2 ∈ ctx.racy_addresses, ra2.Overlap ra := by
    rw [List.any_eq_true]
    refine exists_congr fun ra2 => and_congr_right fun _ => ?_
    rw [decide_eq_true_iff, overlap_iff]
  rw [HandleRacyStacks, h.equalStacks, h.equalAddresses, Doubled, ← hstack, ← haddress, if_pos rfl,
    Bool.true_and, Bool.true_and]
  generalize ctx.racy_stacks.any (equalStacks (stackHash env r)) = equal_stack
  generalize (ctx.racy_addresses.any _) = equal_address
  cases equal_stack <;> cases equal_address
  · exact .inr ⟨by decide,rfl⟩
  · exact .inl ⟨by decide,rfl,.inr rfl,.inl rfl,rfl⟩
  · exact .inl ⟨by decide,rfl,.inl rfl,.inr rfl,rfl⟩
  · exact .inl ⟨by decide,rfl,.inl rfl,.inl rfl,rfl⟩

/-- What one call does: nothing at all, or what the tables say of the race. -/
theorem ReportRace_cases (h : Plain env) (hfired : ctx.fired_suppressions = [])
    (he : ReportRace env ctx r = some (o,ctx')) : (o = .ignored ∧ ctx' = ctx) ∨
    ∃ addr, env.layout.ShadowToMem env.shadowCount r.racy_shadow_addr = some addr ∧
      ctx'.fired_suppressions = [] ∧
      Extended ctx.racy_stacks ctx'.racy_stacks (stackHash env r) ∧
      Extended ctx.racy_addresses ctx'.racy_addresses (racyAddress r addr) ∧
      ((o = .withheld ∧ Doubled env ctx r (racyAddress r addr)) ∨
        (o = .printed ∧ ¬Doubled env ctx r (racyAddress r addr) ∧
          ctx'.racy_stacks = ctx.racy_stacks ++ [stackHash env r] ∧
          ctx'.racy_addresses = ctx.racy_addresses ++ [racyAddress r addr])) := by
  rw [ReportRace] at he
  by_cases hbugs : env.report_bugs = true
  · rw [if_pos hbugs, Option.map_eq_some_iff] at he
    obtain ⟨addr,haddr,he⟩ := he
    have hunfired : ∀ typ trace, IsFiredSuppression ctx typ trace = false := by
      intro typ trace
      rw [IsFiredSuppression, hfired]
      rfl
    dsimp only at he
    rw [h.expected, if_neg Bool.false_ne_true, hunfired, if_neg Bool.false_ne_true] at he
    refine .inr ⟨addr,haddr,?_⟩
    rcases HandleRacyStacks_spec h ctx r (racyAddress r addr) with
      ⟨hdoubled,hwithheld,hstacks,haddresses,hf⟩ | ⟨hnew,hprinted⟩
    · rw [if_pos hwithheld] at he
      cases he
      exact ⟨hf.trans hfired,hstacks,haddresses,.inl ⟨rfl,hdoubled⟩⟩
    · rw [hprinted, if_neg Bool.false_ne_true, OutputReport, h.suppressed] at he
      dsimp only at he
      rw [if_neg (not_not_intro rfl), if_pos rfl, AddRacyStacks, h.equalStacks, h.equalAddresses, if_pos rfl, if_pos rfl] at he
      cases he
      exact ⟨hfired,.inr rfl,.inr rfl,.inr ⟨rfl,hnew,rfl,rfl⟩⟩
  · rw [if_neg hbugs] at he
    cases he
    exact .inl ⟨rfl,rfl⟩

/-- The tables are those of the races so far: every entry is of a race that was withheld or printed, and those that were
printed have their entries. -/
structure State.Inv (env : Env MD5Hash) (s : State MD5Hash) : Prop where
  fired : s.ctx.fired_suppressions = []
  fromStacks : ∀ hash ∈ s.ctx.racy_stacks, ∃ p ∈ s.history, p.2 ≠ .ignored ∧ hash = stackHash env p.1
  fromAddress : ∀ ra ∈ s.ctx.racy_addresses, ∃ p ∈ s.history, p.2 ≠ .ignored ∧ ∃ addr,
    env.layout.ShadowToMem env.shadowCount p.1.racy_shadow_addr = some addr ∧ ra = racyAddress p.1 addr
  hasStacks : ∀ p ∈ s.history, p.2 = .printed → stackHash env p.1 ∈ s.ctx.racy_stacks
  hasAddress : ∀ p ∈ s.history, p.2 = .printed → ∀ addr,
    env.layout.ShadowToMem env.shadowCount p.1.racy_shadow_addr = some addr →
      racyAddress p.1 addr ∈ s.ctx.racy_addresses
  deduplicated : Deduplicated env s.history

theorem Extended.mem {α : Type*} {table table' : List α} {x y : α} (h : Extended table table' x) (hy : y ∈ table) :
    y ∈ table' := by
  rcases h with rfl | rfl
  · exact hy
  · exact List.mem_append_left _ hy

theorem Extended.of_mem {α : Type*} {table table' : List α} {x y : α} (h : Extended table table' x) (hy : y ∈ table') :
    y ∈ table ∨ y = x := by
  rcases h with rfl | rfl
  · exact .inl hy
  · exact (List.mem_append.mp hy).imp_right List.mem_singleton.mp

omit [Inhabited MD5Hash] in
/-- A race that the tables have was seen before. -/
theorem State.Inv.seen (h : Plain env) (hs : s.Inv env) {addr : uptr}
    (haddr : env.layout.ShadowToMem env.shadowCount r.racy_shadow_addr = some addr)
    (hdoubled : Doubled env s.ctx r (racyAddress r addr)) :
    ∃ p ∈ s.history, p.2 ≠ .ignored ∧ (SameStacks p.1 r ∨ OverlapOf env p.1 r) := by
  rcases hdoubled with ⟨hash,hmem,hequal⟩ | ⟨ra2,hmem,hoverlap⟩
  · obtain ⟨p,hp,hseen,rfl⟩ := hs.fromStacks hash hmem
    exact ⟨p,hp,hseen,.inl ((equalStacks_stackHash h.md5 r p.1).mp hequal)⟩
  · obtain ⟨p,hp,hseen,addr',haddr',rfl⟩ := hs.fromAddress ra2 hmem
    exact ⟨p,hp,hseen,.inr ⟨addr',addr,haddr',haddr,hoverlap⟩⟩

omit [Inhabited MD5Hash] in
/-- A race that doubles a printed one is in the tables. -/
theorem State.Inv.doubled (h : Plain env) (hs : s.Inv env) {addr : uptr} {p : Race × Outcome}
    (haddr : env.layout.ShadowToMem env.shadowCount r.racy_shadow_addr = some addr) (hp : p ∈ s.history)
    (hprinted : p.2 = .printed) (hsame : SameStacks p.1 r ∨ OverlapOf env p.1 r) :
    Doubled env s.ctx r (racyAddress r addr) := by
  rcases hsame with hsame | ⟨addr₁,addr₂,haddr₁,haddr₂,hoverlap⟩
  · exact .inl ⟨_,hs.hasStacks p hp hprinted,(equalStacks_stackHash h.md5 r p.1).mpr hsame⟩
  · rw [haddr] at haddr₂
    cases haddr₂
    exact .inr ⟨_,hs.hasAddress p hp hprinted addr₁ haddr₁,hoverlap⟩

omit [DecidableEq MD5Hash] [Inhabited MD5Hash] in
/-- One more race: if printed it doubles no printed one, if withheld it doubles one that was seen. -/
theorem Deduplicated.snoc {history : List (Race × Outcome)} (h : Deduplicated env history)
    (hprinted : o = .printed → ∀ p ∈ history, p.2 = .printed → ¬SameStacks p.1 r ∧ ¬OverlapOf env p.1 r)
    (hwithheld : o = .withheld → ∃ p ∈ history, p.2 ≠ .ignored ∧ (SameStacks p.1 r ∨ OverlapOf env p.1 r)) :
    Deduplicated env (history ++ [(r,o)]) := by
  refine ⟨?_,fun before r' after heq => ?_⟩
  · rw [List.pairwise_append]
    refine ⟨h.printed,List.pairwise_singleton _ _,fun p hp p' hp' hpr hpr' => ?_⟩
    rw [List.mem_singleton] at hp'
    subst hp'
    exact hprinted hpr' p hp hpr
  · rcases List.eq_nil_or_concat after with rfl | ⟨after,last,rfl⟩
    · obtain ⟨rfl,hlast⟩ := List.append_inj' heq rfl
      cases hlast
      exact hwithheld rfl
    · rw [List.concat_eq_append, ← List.cons_append, ← List.append_assoc] at heq
      obtain ⟨hhistory,-⟩ := List.append_inj' heq rfl
      exact h.withheld before r' after hhistory

omit [DecidableEq MD5Hash] [Inhabited MD5Hash] in
theorem init_inv (env : Env MD5Hash) : (Init : State MD5Hash).Inv env where
  fired := rfl
  fromStacks := fun _ h => absurd h List.not_mem_nil
  fromAddress := fun _ h => absurd h List.not_mem_nil
  hasStacks := fun _ h => absurd h List.not_mem_nil
  hasAddress := fun _ h => absurd h List.not_mem_nil
  deduplicated := ⟨List.Pairwise.nil,fun _ _ _ h => nomatch (List.append_eq_nil_iff.mp h.symm).2⟩

theorem step_inv (h : Plain env) (hs : s.Inv env) (he : step env s r = some s') : s'.Inv env := by
  obtain ⟨⟨o,ctx'⟩,hreport,rfl⟩ := Option.map_eq_some_iff.mp he
  have hold : ∀ p ∈ s.history, p ∈ s.history ++ [(r,o)] := fun p hp => List.mem_append_left _ hp
  rcases ReportRace_cases h hs.fired hreport with
    ⟨rfl,rfl⟩ | ⟨addr,haddr,hfired,hstacks,haddresses,hcase⟩
  · have hprinted : ∀ p ∈ s.history ++ [(r,.ignored)], p.2 = .printed → p ∈ s.history := by
      intro p hp hpr
      refine (List.mem_append.mp hp).resolve_right fun hlast => ?_
      rw [List.mem_singleton.mp hlast] at hpr
      cases hpr
    refine ⟨hs.fired,fun hash hmem => ?_,fun ra hmem => ?_,fun p hp hpr => ?_,fun p hp hpr => ?_,?_⟩
    · obtain ⟨p,hp,hrest⟩ := hs.fromStacks hash hmem
      exact ⟨p,hold p hp,hrest⟩
    · obtain ⟨p,hp,hrest⟩ := hs.fromAddress ra hmem
      exact ⟨p,hold p hp,hrest⟩
    · exact hs.hasStacks p (hprinted p hp hpr) hpr
    · exact hs.hasAddress p (hprinted p hp hpr) hpr
    · exact hs.deduplicated.snoc (fun h => nomatch h) fun h => nomatch h
  · have hseen : o ≠ .ignored := by
      rcases hcase with ⟨rfl,-⟩ | ⟨rfl,-⟩ <;> decide
    have hself : (r,o) ∈ s.history ++ [(r,o)] := List.mem_append_right _ (List.mem_singleton.mpr rfl)
    refine ⟨hfired,fun hash hmem => ?_,fun ra hmem => ?_,fun p hp hpr => ?_,fun p hp hpr addr' haddr' => ?_,?_⟩
    · rcases hstacks.of_mem hmem with hmem | rfl
      · obtain ⟨p,hp,hrest⟩ := hs.fromStacks hash hmem
        exact ⟨p,hold p hp,hrest⟩
      · exact ⟨_,hself,hseen,rfl⟩
    · rcases haddresses.of_mem hmem with hmem | rfl
      · obtain ⟨p,hp,hrest⟩ := hs.fromAddress ra hmem
        exact ⟨p,hold p hp,hrest⟩
      · exact ⟨_,hself,hseen,addr,haddr,rfl⟩
    · rcases List.mem_append.mp hp with hp | hlast
      · exact hstacks.mem (hs.hasStacks p hp hpr)
      · rw [List.mem_singleton] at hlast
        subst hlast
        obtain ⟨-,-,htable,-⟩ := hcase.resolve_left fun hw => nomatch hw.1.symm.trans hpr
        dsimp only
        rw [htable]
        exact List.mem_append_right _ (List.mem_singleton.mpr rfl)
    · rcases List.mem_append.mp hp with hp | hlast
      · exact haddresses.mem (hs.hasAddress p hp hpr addr' haddr')
      · rw [List.mem_singleton] at hlast
        subst hlast
        obtain ⟨-,-,-,htable⟩ := hcase.resolve_left fun hw => nomatch hw.1.symm.trans hpr
        rw [haddr] at haddr'
        cases haddr'
        dsimp only
        rw [htable]
        exact List.mem_append_right _ (List.mem_singleton.mpr rfl)
    · refine hs.deduplicated.snoc (fun hpr p hp hprinted => ?_) fun hw => ?_
      · obtain ⟨-,hnew,-⟩ := hcase.resolve_left fun hwithheld => nomatch hwithheld.1.symm.trans hpr
        exact ⟨fun hsame => hnew (hs.doubled h haddr hp hprinted (.inl hsame)),
          fun hoverlap => hnew (hs.doubled h haddr hp hprinted (.inr hoverlap))⟩
      · obtain ⟨-,hdoubled⟩ := hcase.resolve_right fun hprinted => nomatch hprinted.1.symm.trans hw
        exact hs.seen h haddr hdoubled

end Runs
end CompilerRt.Tsan.RaceReports
