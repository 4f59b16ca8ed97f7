import CompilerRt.Asan.TakeChunk
import Mathlib

/-! # The change of one chunk

A chunk changes its state and its place. Its bytes and its shadow are its own, so that no other chunk and no other list
changes.
-/
namespace CompilerRt.AsanAllocator
open Sanitizer AsanMapping
open AsanChunk

variable {flags : Flags} {s s' : MallocInfo} {L : Layout} {g g' : Group} {p i j : Place} {m x : ℕ} {u v : List ℕ}
  {mem' : FlatMemory} {shadow' : Shadow}

/-- Only bytes of this part of the memory change. -/
structure Within (s s' : MallocInfo) (m size : ℕ) : Prop where
  memory : ∀ a, a < m ∨ m + size ≤ a → s'.memory a = s.memory a
  shadow : ∀ k, 8 * k < m ∨ m + size ≤ 8 * k →
    s'.shadow (WordSize.w64.SHADOW_OFFSET + k) = s.shadow (WordSize.w64.SHADOW_OFFSET + k)

namespace Core

/-- Another chunk stays as it is. -/
theorem other_ok (h : Core flags s L) (hg : g ∈ L.groups) (hmg : m ∈ g.chunks) (hwithin : Within s s' m g.size)
    (hg' : g' ∈ L.groups) (hxg : x ∈ g'.chunks) (hne : x ≠ m) (hx : x ∈ L.held p) :
    ChunkOk flags s'.memory s'.shadow g' p x := by
  have hap := h.chunks_apart hg hg' hmg hxg hne.symm
  have hsize' := h.le_size hg'
  refine (h.chunk g' hg' x hxg p hx).congr (fun a ha hlt => hwithin.memory a (by omega)) (fun hu addr hbeg a ha hlt => ?_)
    fun k ha hlt => hwithin.shadow k (by omega)
  obtain ⟨addr',howned⟩ := (h.chunk g' hg' x hxg p hx).owned hu
  have haddr : addr = addr' := Option.some.inj (hbeg.symm.trans howned.beg)
  have hfits := howned.fits
  exact hwithin.memory a (by omega)

theorem other_get (h : Core flags s L) (hg : g ∈ L.groups) (hmg : m ∈ g.chunks) (hwithin : Within s s' m g.size)
    (hne : x ≠ m) (hx : x ∈ L.held p) (f : Field) : get s'.memory x f = get s.memory x f := by
  obtain ⟨g',hg',hxg⟩ := h.group_of hx
  have hap := h.chunks_apart hg hg' hmg hxg hne.symm
  have hsize' := h.le_size hg'
  have hle := f.le_bytes
  exact get_congr fun a ha hlt => hwithin.memory a (by omega)

/-- The place of a chunk that changes. -/
theorem change (h : Core flags s L) (hpages : s'.page_groups_ = s.page_groups_) (hg : g ∈ L.groups)
    (hmg : m ∈ g.chunks) (hm : m ∈ L.held i) (hij : i ≠ j) (hwithin : Within s s' m g.size)
    (hok : ChunkOk flags s'.memory s'.shadow g j m) (hp : (u ++ v).Perm (L.held i ++ L.held j)) (hmv : m ∈ v)
    (hu : ∀ x ∈ u, x ∈ L.held i) (hv : ∀ x ∈ v, x = m ∨ x ∈ L.held j) :
    Core flags s' { L with held := Function.update (Function.update L.held i u) j v } where
  pages := hpages ▸ h.pages
  used := h.used
  mapped := h.mapped
  page := fun g' hg' => by
    have hap := h.page_apart hg hg' hmg
    exact (page_congr fun a ha hlt => hwithin.memory a (by omega)).trans (h.page g' hg')
  tail := fun g' hg' => by
    refine (h.tail g' hg').congr fun k ha hlt => hwithin.shadow k ?_
    have hr := h.chunk_range hg hmg
    have hpage := h.page_le hg'
    by_cases heq : g = g'
    · subst heq
      exact .inr (hr.2.1.trans ha)
    · rcases h.groups_apart hg hg' heq with hlt' | hlt'
      · omega
      · omega
  apart := h.apart
  spread := h.spread.exchange hij hp
  chunk := fun g' hg' x hxg p hxp => by
    by_cases hxm : x = m
    · subst hxm
      obtain rfl := h.group_unique hg hg' hmg hxg
      have hpj : p = j := (h.spread.exchange hij hp).disjoint p j x hxp (by rwa [Function.update_self])
      rwa [hpj]
    · refine h.other_ok hg hmg hwithin hg' hxg hxm ?_
      dsimp only at hxp
      by_cases hpj : p = j
      · subst hpj
        rw [Function.update_self] at hxp
        exact (hv x hxp).resolve_left hxm
      · rw [Function.update_of_ne hpj] at hxp
        by_cases hpi : p = i
        · subst hpi
          rw [Function.update_self] at hxp
          exact hu x hxp
        · rwa [Function.update_of_ne hpi] at hxp

end Core

/-- The list of a place that does not have the chunk. -/
theorem ListAt.change (hc : Core flags s L) (hl : ListAt s (L.held p) p) (hhead : SameHead s s' p) (hg : g ∈ L.groups)
    (hmg : m ∈ g.chunks) (hwithin : Within s s' m g.size) (hm : m ∉ L.held p) : ListAt s' (L.held p) p := by
  have hother : ∀ x ∈ L.held p, ∀ f, get s'.memory x f = get s.memory x f :=
    fun x hx => hc.other_get hg hmg hwithin (ne_of_mem_of_not_mem hx hm) hx
  exact hl.congr hhead (fun x hx => hother x hx .next) fun x hx => by rw [Size, Size, hother x hx .size_class]

end CompilerRt.AsanAllocator
