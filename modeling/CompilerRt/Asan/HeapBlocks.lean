import CompilerRt.Asan.HeapRuns
import CompilerRt.Asan.Poisoning
import Mathlib

/-! # Blocks and their shadow

Wherever calls lead to, the shadow of the groups tells the bytes of the blocks from all other bytes, and blocks lie apart.
-/
namespace CompilerRt.AsanAllocator
open Sanitizer AsanMapping
open AsanChunk

variable {flags : Flags} {mmap : ℕ → ℕ} {h h' : Heap} {s : MallocInfo} {L L' : Layout} {g : Group} {p q : ℕ × ℕ}
  {m t a pg : ℕ} {acts : List Act} {shadow : Shadow}

/-! ## The shadow of a group -/

theorem Used.eight_dvd (hused : Used flags g.size_class g.size) : 8 ∣ g.size := by
  rcases hused.shape with ⟨k,h5,-,hk⟩ | ⟨-,hdvd,-⟩
  · rw [hk]
    exact Nat.pow_dvd_pow 2 (by omega : 3 ≤ k)
  · exact Dvd.dvd.trans (by decide) hdvd

theorem Core.eight_dvd (hc : Core flags s L) (hg : g ∈ L.groups) (n : ℕ) : 8 ∣ g.beg + n * g.size := by
  have hbeg : 8 ∣ g.beg := Dvd.dvd.trans (by decide) (hc.mapped g hg).2.1
  exact hbeg.add (Dvd.dvd.mul_left (hc.used g hg).eight_dvd n)

/-- An address before the structure behind the chunks is in a chunk. -/
theorem Group.exists_chunk (hsize : 0 < g.size) (hlow : g.beg ≤ a) (hhigh : a < g.pg) :
    ∃ m ∈ g.chunks, m ≤ a ∧ a < m + g.size := by
  rw [Group.pg] at hhigh
  have hdiv := Nat.div_add_mod (a - g.beg) g.size
  have hmod := Nat.mod_lt (a - g.beg) hsize
  rw [Nat.mul_comm] at hdiv
  refine ⟨_,Group.mem_chunks.mpr ⟨(a - g.beg) / g.size,?_,rfl⟩,by omega,by omega⟩
  exact Nat.div_lt_of_lt_mul (by rw [Nat.mul_comm]; omega)

theorem Negative.poisoned {b c : ℕ} (hn : Negative shadow b c) (hb : 8 ∣ b) (hlow : b ≤ a) (hhigh : a < c) :
    Poisoned (shadow (WordSize.w64.SHADOW_OFFSET + a / 8)) (a % 8) := by
  have hneg := hn (a / 8) (by omega) (by omega)
  exact ⟨by omega,by omega⟩

/-- The granules of a block. -/
theorem redzoneValue_poisoned {size i k : ℕ} (hk : k < 8) :
    Poisoned (redzoneValue size i kAsanHeapRightRedzoneMagic) k ↔ size ≤ i + k := by
  have hgranularity : SHADOW_GRANULARITY = 8 := rfl
  have hmagic : kAsanHeapRightRedzoneMagic.toInt = -5 := by decide
  rw [redzoneValue, hgranularity]
  split_ifs with hwhole hout
  · refine iff_of_false (fun hp => hp.1 rfl) (by omega)
  · exact iff_of_true ⟨by rw [hmagic]; decide,by omega⟩ (by omega)
  · have hvalue : (BitVec.ofNat 8 (size - i)).toInt = (size - i : ℕ) := by
      rw [BitVec.toInt_eq_toNat_of_lt, BitVec.toNat_ofNat, Nat.mod_eq_of_lt (by omega)]
      rw [BitVec.toNat_ofNat, Nat.mod_eq_of_lt (by omega)]
      omega
    rw [Poisoned, hvalue]
    omega

theorem Owned.poisoned_iff {addr size : ℕ} (hown : Owned flags s.memory s.shadow size m addr) (hm : 8 ∣ m) (hlow : m ≤ a)
    (hhigh : a < m + size) : Poisoned (s.shadow (WordSize.w64.SHADOW_OFFSET + a / 8)) (a % 8) ↔
      a < addr ∨ addr + get s.memory m .used_size ≤ a := by
  have hred : 8 ∣ flags.redzone := Dvd.dvd.trans (by decide) flags.le_redzone.2
  have haddr : 8 ∣ addr := hred.trans hown.aligned
  have hround : 8 ∣ roundedUp flags.redzone (get s.memory m .used_size) := hred.trans (dvd_roundedUp _ _)
  have hle := (le_roundedUp flags.pos (get s.memory m .used_size)).1
  rcases Nat.lt_or_ge a addr with hleft | hge
  · exact iff_of_true (hown.left.poisoned hm hlow hleft) (.inl hleft)
  rcases Nat.lt_or_ge a (addr + roundedUp flags.redzone (get s.memory m .used_size)) with hin | hright
  · rw [hown.inside (a / 8) (by omega) (by omega), redzoneValue_poisoned (Nat.mod_lt a (by decide))]
    omega
  · exact iff_of_true (hown.right.poisoned (haddr.add hround) hright hhigh) (by omega)

theorem Core.inMem (hc : Core flags s L) (hg : g ∈ L.groups) (hlow : g.beg ≤ a) (hhigh : a < g.end_) :
    WordSize.w64.AddrIsInMem a = true := by
  have hrange := inOneRange_sub (hc.mapped g hg).2.2 hlow le_rfl hhigh.le
  rw [WordSize.InOneRange] at hrange
  rw [WordSize.AddrIsInMem, Bool.or_eq_true]
  exact hrange.imp And.left And.left

/-- The chunk of a group that has an address, if the user has it, and what lies around it. -/
theorem Core.poisoned_iff (hc : Core flags s L) (hg : g ∈ L.groups) (hlow : g.beg ≤ a) (hhigh : a < g.end_) :
    Poisoned (s.shadow (WordSize.w64.SHADOW_OFFSET + a / 8)) (a % 8) ↔ ∀ m ∈ L.held .user, ∀ addr,
      Beg s.memory m = some addr → a < addr ∨ addr + get s.memory m .used_size ≤ a := by
  have hsize := hc.le_size hg
  -- the block of a chunk is in it, so that only the chunk with the address counts
  have hblock : ∀ m ∈ L.held .user, ∀ addr, Beg s.memory m = some addr → ∃ g' ∈ L.groups, m ∈ g'.chunks ∧ m ≤ addr ∧
      addr + get s.memory m .used_size ≤ m + g'.size := by
    intro m hm addr hbeg
    obtain ⟨g',hg',hmg,hok⟩ := hc.ok hm
    obtain ⟨b,hb,hlt,hle⟩ := hok.headed
    obtain rfl : addr = b := Option.some.inj (hbeg.symm.trans hb)
    exact ⟨g',hg',hmg,hlt.le,hle⟩
  rcases Nat.lt_or_ge a g.pg with hchunk | hpage
  · obtain ⟨m,hmg,hmlow,hmhigh⟩ := Group.exists_chunk (by omega) hlow hchunk
    have hm8 : 8 ∣ m := by
      obtain ⟨i,-,rfl⟩ := Group.mem_chunks.mp hmg
      exact hc.eight_dvd hg i
    have hother : ∀ m' ∈ L.held .user, m' ≠ m → ∀ addr, Beg s.memory m' = some addr →
        a < addr ∨ addr + get s.memory m' .used_size ≤ a := by
      intro m' hm' hne addr hbeg
      obtain ⟨g',hg',hmg',hl,hr⟩ := hblock m' hm' addr hbeg
      have hap := hc.chunks_apart hg hg' hmg hmg' hne.symm
      omega
    obtain ⟨place,hplace⟩ := (hc.spread.mem_iff m).mp (List.mem_flatMap.mpr ⟨g,hg,hmg⟩)
    have hok := hc.chunk g hg m hmg place hplace
    by_cases huser : place = .user
    · subst huser
      obtain ⟨addr,hown⟩ := hok.owned rfl
      rw [hown.poisoned_iff hm8 hmlow hmhigh]
      refine ⟨fun hout m' hm' addr' hbeg => ?_,fun hall => hall m hplace addr hown.beg⟩
      by_cases hne : m' = m
      · subst hne
        obtain rfl : addr' = addr := Option.some.inj (hbeg.symm.trans hown.beg)
        exact hout
      · exact hother m' hm' hne addr' hbeg
    · refine iff_of_true ((hok.poisoned huser).poisoned hm8 hmlow hmhigh) fun m' hm' addr hbeg => ?_
      refine hother m' hm' (fun heq => ?_) addr hbeg
      exact huser (hc.spread.disjoint place .user m hplace (heq ▸ hm'))
  · refine iff_of_true ((hc.tail g hg).poisoned (hc.eight_dvd hg g.n_chunks) hpage hhigh) fun m hm addr hbeg => ?_
    obtain ⟨g',hg',hmg,hl,hr⟩ := hblock m hm addr hbeg
    have hrange := hc.chunk_range hg' hmg
    by_cases hgg : g' = g
    · subst hgg
      omega
    · have hap := hc.groups_apart hg' hg hgg
      omega

theorem Core.exists_group (hc : Core flags s L) (hpg : pg ∈ s.page_groups_) :
    ∃ g ∈ L.groups, g.pg = pg ∧ PageGroup.read s.memory pg = g.page := by
  obtain ⟨g,hg,rfl⟩ := List.mem_map.mp (hc.pages.mem_iff.mp hpg)
  exact ⟨g,hg,rfl,hc.page g hg⟩

theorem Heap.Inv.poisoned (hi : h.Inv flags L) (hg : g ∈ L.groups) (hlow : g.beg ≤ a) (hhigh : a < g.end_) :
    AddressIsPoisoned .w64 h.info.shadow a = some (decide (∀ p ∈ h.user, a < p.1 ∨ p.1 + max p.2 1 ≤ a)) := by
  rw [addressIsPoisoned_mem (hi.core.inMem hg hlow hhigh)]
  refine congrArg some (decide_eq_decide.mpr ?_)
  rw [hi.core.poisoned_iff hg hlow hhigh]
  refine ⟨fun hall p hp => ?_,fun hall m hm addr hbeg => ?_⟩
  · obtain ⟨m,hm,hb⟩ := hi.block p hp
    exact hb.used ▸ hall m hm p.1 hb.beg
  · obtain ⟨p,hp,hb⟩ := hi.chunk m hm
    obtain rfl : addr = p.1 := Option.some.inj (hbeg.symm.trans hb.beg)
    exact hb.used ▸ hall p hp

/-- In the groups the shadow lets just the bytes of the blocks be addressed. -/
theorem Heap.shadow_exact (hr : Heap.Reached flags mmap acts h) (hred : flags.redzone ≤ 4096)
    (hpg : pg ∈ h.info.page_groups_) (ha : (PageGroup.read h.info.memory pg).InRange a = true) :
    AddressIsPoisoned .w64 h.info.shadow a = some (decide (∀ p ∈ h.user, a < p.1 ∨ p.1 + max p.2 1 ≤ a)) := by
  obtain ⟨L,hi,-⟩ := hr.inv hred
  obtain ⟨g,hg,-,hread⟩ := hi.core.exists_group hpg
  rw [hread, PageGroup.InRange, Bool.and_eq_true, decide_eq_true_iff, decide_eq_true_iff] at ha
  exact hi.poisoned hg ha.1 ha.2

theorem Heap.shadow_exact_five : AddressIsPoisoned .w64 (sampleHeap sampleFlags 5).info.shadow (2^45 + 128) =
    some (decide (∀ p ∈ (sampleHeap sampleFlags 5).user, 2^45 + 128 < p.1 ∨ p.1 + max p.2 1 ≤ 2^45 + 128)) :=
  Heap.shadow_exact sampleHeap_five (by decide)
    (show 2^45 + 2^22 ∈ (sampleHeap sampleFlags 5).info.page_groups_ by decide +kernel) (by decide +kernel)

/-! ## Where blocks lie -/

theorem Heap.Inv.apart (hi : h.Inv flags L) (hp : p ∈ h.user) (hq : q ∈ h.user) (hne : p.1 ≠ q.1) :
    p.1 + max p.2 1 + flags.redzone ≤ q.1 ∨ q.1 + max q.2 1 + flags.redzone ≤ p.1 := by
  obtain ⟨m,hm,hb⟩ := hi.block p hp
  obtain ⟨m',hm',hb'⟩ := hi.block q hq
  obtain ⟨g,hg,hmg,hin⟩ := hi.core.inside hm hb
  obtain ⟨g',hg',hmg',hin'⟩ := hi.core.inside hm' hb'
  have hmm : m ≠ m' := by
    rintro rfl
    exact hne (Option.some.inj (hb.beg.symm.trans hb'.beg))
  have h1 := hin.low
  have h2 := hin.high
  have h3 := hin.room
  have h4 := hin'.low
  have h5 := hin'.high
  have h6 := hin'.room
  rcases hi.core.chunks_apart hg hg' hmg hmg' hmm with hap | hap
  · exact .inl (by omega)
  · exact .inr (by omega)

theorem Heap.Inv.block_eq (hi : h.Inv flags L) (hp : p ∈ h.user) (hq : q ∈ h.user) (heq : p.1 = q.1) : p = q :=
  List.inj_on_of_nodup_map hi.nodup hp hq heq

/-- Any two blocks have a redzone between them. Each of them is aligned and between the first and the last byte of the
chunks of a group, with a redzone before it. -/
theorem Heap.blocks_apart (hr : Heap.Reached flags mmap acts h) (hred : flags.redzone ≤ 4096) :
    h.user.Pairwise (fun p q => p.1 + max p.2 1 + flags.redzone ≤ q.1 ∨ q.1 + max q.2 1 + flags.redzone ≤ p.1) ∧
      ∀ p ∈ h.user, flags.redzone ∣ p.1 ∧ ∃ pg ∈ h.info.page_groups_,
        (PageGroup.read h.info.memory pg).beg + flags.redzone ≤ p.1 ∧ p.1 + max p.2 1 ≤ pg := by
  obtain ⟨L,hi,-⟩ := hr.inv hred
  refine ⟨?_,fun p hp => ?_⟩
  · have hne : h.user.Pairwise fun p q => p.1 ≠ q.1 := List.pairwise_map.mp hi.nodup
    exact hne.imp_of_mem fun hp hq hpq => hi.apart hp hq hpq
  · obtain ⟨m,hm,hb⟩ := hi.block p hp
    obtain ⟨g,hg,hmg,hin⟩ := hi.core.inside hm hb
    have hrange := hi.core.chunk_range hg hmg
    have h1 := hin.low
    have h2 := hin.high
    have h3 := hin.room
    have hbeg : (PageGroup.read h.info.memory g.pg).beg = g.beg := by rw [hi.core.page g hg]; rfl
    refine ⟨hin.owned.aligned,g.pg,hi.core.pages.mem_iff.mpr (List.mem_map_of_mem hg),?_,by omega⟩
    rw [hbeg]
    omega

theorem Heap.blocks_apart_four : (sampleHeap sampleFlags 4).user.Pairwise (fun p q =>
    p.1 + max p.2 1 + 128 ≤ q.1 ∨ q.1 + max q.2 1 + 128 ≤ p.1) :=
  (Heap.blocks_apart sampleHeap_four (by decide)).1

end CompilerRt.AsanAllocator
