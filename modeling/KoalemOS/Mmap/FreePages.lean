import KoalemOS.Mmap.Basic
import Mathlib.Algebra.BigOperators.Group.List.Basic
import Mathlib.Data.List.Perm.Basic
import Mathlib.Data.List.Nodup
import Mathlib.Tactic.Ring

/-!
# The pages of a memory map

What a memory map stands for is the list of pages in its ranges. The
representation invariant `MemoryMap.Wf` says that the ranges are non-empty,
page-aligned, pairwise disjoint, avoid address 0 and end at or below `2 ^ 64`;
under it no page is listed twice, and every operation is an exact statement
about the page list:

- `mmapGetPages_pages`: taking `n` pages removes `n` consecutive pages
- `mmapAddRange_pages`, `mmapAddRangeMerge_pages`: giving back adds the range
- a failing call changes nothing
-/

namespace KoalemOS.Mmap

open KoalemOS.Library

/-! ## Pages of a range -/

namespace MemoryRange

/-- The addresses of the pages of a range. -/
def pageList (r : MemoryRange) : List Nat :=
  (List.range r.pages).map fun i => r.baseAddr + 4096 * i

/-- One past the last byte of a range. -/
def endAddr (r : MemoryRange) : Nat := r.baseAddr + 4096 * r.pages

/-- A range the kernel may manage. -/
structure Wf (r : MemoryRange) : Prop where
  pos : 0 < r.pages
  aligned : r.baseAddr % 4096 = 0
  nonzero : 0 < r.baseAddr
  noWrap : r.endAddr ≤ 2 ^ 64

/-- Two ranges without a common byte. -/
def Disjoint (r q : MemoryRange) : Prop := r.endAddr ≤ q.baseAddr ∨ q.endAddr ≤ r.baseAddr

theorem Disjoint.symm {r q : MemoryRange} (h : r.Disjoint q) : q.Disjoint r := Or.symm h

theorem mem_pageList {r : MemoryRange} {p : Nat} :
    p ∈ r.pageList ↔ ∃ i < r.pages, p = r.baseAddr + 4096 * i := by
  simp [pageList, eq_comm]

theorem pageList_nodup (r : MemoryRange) : r.pageList.Nodup := by
  refine List.Nodup.map (fun i j (h : r.baseAddr + 4096 * i = r.baseAddr + 4096 * j) => ?_)
    List.nodup_range
  omega

/-- A page of a range lies between its two ends. -/
theorem mem_pageList_bounds {r : MemoryRange} {p : Nat} (h : p ∈ r.pageList) :
    r.baseAddr ≤ p ∧ p + 4096 ≤ r.endAddr := by
  obtain ⟨i, hi, rfl⟩ := mem_pageList.mp h
  unfold endAddr
  omega

theorem not_mem_both {r q : MemoryRange} {p : Nat} (h : r.Disjoint q) (hr : p ∈ r.pageList) :
    p ∉ q.pageList := by
  intro hq
  have h1 := mem_pageList_bounds hr
  have h2 := mem_pageList_bounds hq
  unfold Disjoint at h
  omega

/-- Cutting a range after its first `n` pages cuts its page list. -/
theorem pageList_split (b : Nat) {n k : Nat} :
    pageList ⟨b, n + k⟩ = pageList ⟨b, n⟩ ++ pageList ⟨b + 4096 * n, k⟩ := by
  simp only [pageList, List.range_add, List.map_append, List.map_map]
  congr 1
  refine List.map_congr_left fun i _ => ?_
  simp only [Function.comp_apply]
  ring

end MemoryRange

/-! ## The representation invariant -/

namespace MemoryMap

/-- All free pages of a map, in buffer order. -/
def freePages (m : MemoryMap) : List Nat := m.ranges.flatMap MemoryRange.pageList

/-- The representation invariant of a memory map. -/
structure Wf (m : MemoryMap) : Prop where
  ranges_wf : ∀ r ∈ m.ranges, r.Wf
  disjoint : m.ranges.Pairwise MemoryRange.Disjoint
  count_le : m.rangeCount ≤ m.maxRangeCount
  max_lt : m.maxRangeCount < 2 ^ 31

theorem Wf.freePages_nodup {m : MemoryMap} (h : m.Wf) : m.freePages.Nodup := by
  refine List.nodup_flatMap.mpr ⟨fun r _ => r.pageList_nodup, ?_⟩
  exact h.disjoint.imp fun hd p hp => MemoryRange.not_mem_both hd hp

/-- No range is empty. -/
theorem Wf.rangeCount_le {m : MemoryMap} (h : m.Wf) : m.rangeCount ≤ m.freePages.length := by
  rw [← length_ranges, freePages, List.length_flatMap]
  have hpos : ∀ x ∈ m.ranges.map fun r => r.pageList.length, 1 ≤ x := by
    intro x hx
    obtain ⟨r, hr, rfl⟩ := List.mem_map.mp hx
    have hrpos := (h.ranges_wf r hr).pos
    simp only [MemoryRange.pageList, List.length_map, List.length_range]
    omega
  simpa using List.length_le_sum_of_one_le _ hpos

end MemoryMap

/-! ## Taking pages -/

/-- First fit fails exactly when every range is too short. -/
theorem firstFit_eq_none {n : Nat} {l : List MemoryRange} :
    firstFit n l = none ↔ ∀ r ∈ l, r.pages < n := by
  induction l with
  | nil => simp [firstFit]
  | cons r rs ih =>
    simp only [firstFit, List.forall_mem_cons]
    split_ifs with h1 h2
    · simp [h1]
    · simp only [false_iff, not_and]
      intro h
      omega
    · rw [Option.map_eq_none_iff, ih]
      constructor
      · exact fun h => ⟨by omega, h⟩
      · exact fun h => h.2

/-- The ranges left by first fit are ranges of the list, one of them shortened. -/
theorem firstFit_some {n : Nat} {l rs : List MemoryRange} {a : Nat}
    (h : firstFit n l = some (a, rs)) :
    ∃ pre r post, l = pre ++ r :: post ∧ r.baseAddr = a ∧ n ≤ r.pages ∧
      rs = pre ++ (if r.pages = n then [] else
        [⟨wrap (a + 4096 * n), r.pages - n⟩]) ++ post := by
  induction l generalizing a rs with
  | nil => simp [firstFit] at h
  | cons r l ih =>
    simp only [firstFit] at h
    split_ifs at h with h1 h2
    · simp only [Option.some.injEq, Prod.mk.injEq] at h
      obtain ⟨rfl, rfl⟩ := h
      exact ⟨[], r, _, rfl, rfl, h1.ge, by simp [h1]⟩
    · simp only [Option.some.injEq, Prod.mk.injEq] at h
      obtain ⟨rfl, rfl⟩ := h
      exact ⟨[], r, l, rfl, rfl, by omega, by simp [h1]⟩
    · obtain ⟨⟨a', rs'⟩, hff, heq⟩ := Option.map_eq_some_iff.mp h
      simp only [Prod.mk.injEq] at heq
      obtain ⟨rfl, rfl⟩ := heq
      obtain ⟨pre, q, post, rfl, hq, hn, rfl⟩ := ih hff
      exact ⟨r :: pre, q, post, by simp, hq, hn, by simp⟩

/-- What first fit takes out of a well-formed list of ranges. -/
theorem firstFit_pages {n : Nat} {l rs : List MemoryRange} {a : Nat} (hn : 0 < n)
    (hwf : ∀ r ∈ l, r.Wf) (hd : l.Pairwise MemoryRange.Disjoint)
    (h : firstFit n l = some (a, rs)) :
    (∀ r ∈ rs, r.Wf) ∧ rs.Pairwise MemoryRange.Disjoint ∧ MemoryRange.Wf ⟨a, n⟩ ∧
      (l.flatMap MemoryRange.pageList).Perm
        (MemoryRange.pageList ⟨a, n⟩ ++ rs.flatMap MemoryRange.pageList) := by
  obtain ⟨pre, ⟨b, k⟩, post, rfl, rfl, hle, rfl⟩ := firstFit_some h
  simp only at hle
  have hr : MemoryRange.Wf ⟨b, k⟩ := hwf _ (by simp)
  have hpos := hr.pos
  have halign := hr.aligned
  have hnz := hr.nonzero
  have hnw := hr.noWrap
  simp only [MemoryRange.endAddr] at hpos halign hnz hnw
  have htaken : MemoryRange.Wf ⟨b, n⟩ :=
    ⟨hn, halign, hnz, by simp only [MemoryRange.endAddr]; omega⟩
  rw [List.pairwise_append, List.pairwise_cons] at hd
  obtain ⟨hpre, ⟨hrpost, hpost⟩, hcross⟩ := hd
  by_cases hfit : k = n
  · subst hfit
    simp only [if_true, List.append_nil]
    refine ⟨fun q hq => hwf q ?_, ?_, htaken, ?_⟩
    · rcases List.mem_append.mp hq with hq | hq <;> simp [hq]
    · rw [List.pairwise_append]
      exact ⟨hpre, hpost, fun x hx y hy => hcross x hx y (by simp [hy])⟩
    · simp only [List.flatMap_append, List.flatMap_cons]
      rw [← List.append_assoc, ← List.append_assoc]
      exact List.perm_append_comm.append_right _
  · have hkn : k = n + (k - n) := by omega
    have hwrap : wrap (b + 4096 * n) = b + 4096 * n := wrap_of_lt (by omega)
    simp only [hfit, if_false, hwrap]
    have hrest : MemoryRange.Wf ⟨b + 4096 * n, k - n⟩ :=
      ⟨by simp only; omega, by simp only; omega, by simp only; omega,
        by simp only [MemoryRange.endAddr]; omega⟩
    -- the shortened range lies inside the old one, so it inherits its disjointness
    have hsub : ∀ q : MemoryRange, q.Disjoint ⟨b, k⟩ → q.Disjoint ⟨b + 4096 * n, k - n⟩ := by
      intro q hq
      simp only [MemoryRange.Disjoint, MemoryRange.endAddr] at hq ⊢
      omega
    refine ⟨fun q hq => ?_, ?_, htaken, ?_⟩
    · simp only [List.append_assoc, List.singleton_append, List.mem_append, List.mem_cons] at hq
      rcases hq with hq | rfl | hq
      · exact hwf q (by simp [hq])
      · exact hrest
      · exact hwf q (by simp [hq])
    · simp only [List.append_assoc, List.singleton_append]
      rw [List.pairwise_append, List.pairwise_cons]
      refine ⟨hpre, ⟨fun q hq => ?_, hpost⟩, fun x hx y hy => ?_⟩
      · exact (hsub q (hrpost q hq).symm).symm
      · rcases List.mem_cons.mp hy with rfl | hy
        · exact hsub x (hcross x hx _ (by simp))
        · exact hcross x hx y (by simp [hy])
    · simp only [List.flatMap_append, List.flatMap_cons, List.flatMap_nil, List.append_nil]
      have hsplit : MemoryRange.pageList ⟨b, k⟩ =
          MemoryRange.pageList ⟨b, n⟩ ++ MemoryRange.pageList ⟨b + 4096 * n, k - n⟩ := by
        rw [← MemoryRange.pageList_split, ← hkn]
      rw [hsplit, List.append_assoc, ← List.append_assoc, ← List.append_assoc _ _ _]
      simp only [← List.append_assoc]
      exact ((List.perm_append_comm.append_right _).append_right _)

/-- Address 0 is returned exactly when no single range holds `n` pages, and then
the map is unchanged. -/
theorem mmapGetPages_zero {m : MemoryMap} (hwf : m.Wf) {n : Nat} :
    ((mmapGetPages m n).1 = 0 ↔ ∀ r ∈ m.ranges, r.pages < n) ∧
      ((mmapGetPages m n).1 = 0 → (mmapGetPages m n).2 = m) := by
  have h := mmapGetPages_eq m n
  cases hff : firstFit n m.ranges with
  | none =>
    rw [hff] at h
    simp only at h
    rw [h]
    exact ⟨⟨fun _ => firstFit_eq_none.mp hff, fun _ => rfl⟩, fun _ => rfl⟩
  | some p =>
    obtain ⟨a, rs⟩ := p
    rw [hff] at h
    obtain ⟨m', hm', -, -, -⟩ := h
    obtain ⟨pre, r, post, hl, ha, hle, -⟩ := firstFit_some hff
    have hr : r ∈ m.ranges := by simp [hl]
    have hnz := (hwf.ranges_wf r hr).nonzero
    rw [hm']
    simp only
    refine ⟨⟨fun h0 => by omega, fun hall => ?_⟩, fun h0 => by omega⟩
    have := hall r hr
    omega

/-- A successful call takes `n` consecutive free pages, exactly those, and keeps
the invariant. -/
theorem mmapGetPages_pages {m : MemoryMap} (hwf : m.Wf) {n : Nat} (hn : 0 < n)
    (h : (mmapGetPages m n).1 ≠ 0) :
    (mmapGetPages m n).2.Wf ∧ MemoryRange.Wf ⟨(mmapGetPages m n).1, n⟩ ∧
      m.freePages.Perm
        (MemoryRange.pageList ⟨(mmapGetPages m n).1, n⟩ ++ (mmapGetPages m n).2.freePages) := by
  have heq := mmapGetPages_eq m n
  cases hff : firstFit n m.ranges with
  | none =>
    rw [hff] at heq
    simp only at heq
    rw [heq] at h
    exact absurd rfl h
  | some p =>
    obtain ⟨a, rs⟩ := p
    rw [hff] at heq
    obtain ⟨m', hm', hrs, hmax, hcnt⟩ := heq
    obtain ⟨hwf', hd', htaken, hperm⟩ := firstFit_pages hn hwf.ranges_wf hwf.disjoint hff
    rw [hm']
    refine ⟨⟨?_, ?_, ?_, ?_⟩, htaken, ?_⟩
    · rw [hrs]
      exact hwf'
    · rw [hrs]
      exact hd'
    · rw [hmax]
      exact hcnt.trans hwf.count_le
    · rw [hmax]
      exact hwf.max_lt
    · unfold MemoryMap.freePages
      rw [hrs]
      exact hperm

/-- Whatever `mmap_get_pages` returns, the map it leaves satisfies the invariant. -/
theorem mmapGetPages_wf {m : MemoryMap} (hwf : m.Wf) {n : Nat} (hn : 0 < n) :
    (mmapGetPages m n).2.Wf := by
  by_cases h : (mmapGetPages m n).1 = 0
  · rw [(mmapGetPages_zero hwf).2 h]
    exact hwf
  · exact (mmapGetPages_pages hwf hn h).1

/-! ## Giving pages back -/

/-- The range may be added to the map: it is well formed and shares no page with it. -/
def MemoryMap.CanAdd (m : MemoryMap) (r : MemoryRange) : Prop :=
  r.Wf ∧ ∀ q ∈ m.ranges, q.Disjoint r

/-- `mmap_add_range` adds exactly the range or leaves the map alone. -/
theorem mmapAddRange_pages {m : MemoryMap} (hwf : m.Wf) {b n : Nat} (hadd : m.CanAdd ⟨b, n⟩) :
    (mmapAddRange m b n).2.Wf ∧
      ((mmapAddRange m b n).1 = true →
        (mmapAddRange m b n).2.freePages.Perm (MemoryRange.pageList ⟨b, n⟩ ++ m.freePages)) ∧
      ((mmapAddRange m b n).1 = false → (mmapAddRange m b n).2 = m) := by
  obtain ⟨hr, hdis⟩ := hadd
  have heq := mmapAddRange_eq m b (Nat.pos_iff_ne_zero.mp hr.pos)
  split_ifs at heq with hroom
  · obtain ⟨m', hm', hrs, hmax, hcnt⟩ := heq
    rw [hm']
    refine ⟨⟨?_, ?_, ?_, ?_⟩, fun _ => ?_, by simp⟩
    · rw [hrs]
      intro q hq
      rcases List.mem_append.mp hq with hq | hq
      · exact hwf.ranges_wf q hq
      · rw [List.mem_singleton.mp hq]
        exact hr
    · rw [hrs, List.pairwise_append]
      refine ⟨hwf.disjoint, List.pairwise_singleton _ _, fun x hx y hy => ?_⟩
      rw [List.mem_singleton.mp hy]
      exact hdis x hx
    · rw [hcnt, hmax]
      exact hroom
    · rw [hmax]
      exact hwf.max_lt
    · unfold MemoryMap.freePages
      rw [hrs]
      simp only [List.flatMap_append, List.flatMap_cons, List.flatMap_nil, List.append_nil]
      exact List.perm_append_comm
  · rw [heq]
    exact ⟨hwf, by simp, fun _ => rfl⟩

/-- A successful merge extends the one range that starts where the new one ends. -/
theorem mergeFirst_some {b n a : Nat} {l rs : List MemoryRange}
    (h : mergeFirst b n a l = some rs) :
    ∃ pre r post, l = pre ++ r :: post ∧ r.baseAddr = a ∧
      rs = pre ++ ⟨b, wrap (r.pages + n)⟩ :: post := by
  induction l generalizing rs with
  | nil => simp [mergeFirst] at h
  | cons r l ih =>
    simp only [mergeFirst] at h
    split_ifs at h with h1
    · simp only [Option.some.injEq] at h
      exact ⟨[], r, l, rfl, h1, h.symm⟩
    · obtain ⟨rs', hrs', rfl⟩ := Option.map_eq_some_iff.mp h
      obtain ⟨pre, q, post, rfl, hq, rfl⟩ := ih hrs'
      exact ⟨r :: pre, q, post, by simp, hq, by simp⟩

/-- `mmap_add_range_merge` adds exactly the range or leaves the map alone. -/
theorem mmapAddRangeMerge_pages {m : MemoryMap} (hwf : m.Wf) {b n : Nat}
    (hadd : m.CanAdd ⟨b, n⟩) :
    (mmapAddRangeMerge m b n).2.Wf ∧
      ((mmapAddRangeMerge m b n).1 = true →
        (mmapAddRangeMerge m b n).2.freePages.Perm (MemoryRange.pageList ⟨b, n⟩ ++ m.freePages)) ∧
      ((mmapAddRangeMerge m b n).1 = false → (mmapAddRangeMerge m b n).2 = m) := by
  have heq := mmapAddRangeMerge_eq m b (Nat.pos_iff_ne_zero.mp hadd.1.pos)
  cases hmf : mergeFirst b n (wrap (b + 4096 * n)) m.ranges with
  | none =>
    rw [hmf] at heq
    simp only at heq
    rw [heq]
    exact mmapAddRange_pages hwf hadd
  | some rs =>
    rw [hmf] at heq
    obtain ⟨m', hm', hrs, hmax, hcnt⟩ := heq
    obtain ⟨hr, hdis⟩ := hadd
    obtain ⟨pre, ⟨c, k⟩, post, hl, hc, rfl⟩ := mergeFirst_some hmf
    simp only at hc
    have hq : MemoryRange.Wf ⟨c, k⟩ := hwf.ranges_wf _ (by simp [hl])
    have hq1 := hq.pos
    have hq2 := hq.nonzero
    have hq3 := hq.noWrap
    have hr1 := hr.pos
    have hr2 := hr.noWrap
    simp only [MemoryRange.endAddr] at hq1 hq2 hq3 hr1 hr2
    -- address 0 is in no range, so the merge address has not wrapped
    have hend : c = b + 4096 * n := by
      rw [hc] at hq2 ⊢
      unfold wrap at hq2 ⊢
      omega
    have hsum : wrap (k + n) = n + k := by
      rw [wrap_of_lt (by omega), Nat.add_comm]
    have hmerged : MemoryRange.Wf ⟨b, n + k⟩ :=
      ⟨by simp only; omega, hr.aligned, hr.nonzero, by simp only [MemoryRange.endAddr]; omega⟩
    have hpair := hwf.disjoint
    rw [hl, List.pairwise_append, List.pairwise_cons] at hpair
    obtain ⟨hpre, ⟨hqpost, hpost⟩, hcross⟩ := hpair
    -- a range disjoint from both parts is disjoint from their union
    have hjoin : ∀ q : MemoryRange, q.Wf → q.Disjoint ⟨b, n⟩ → q.Disjoint ⟨c, k⟩ →
        q.Disjoint ⟨b, n + k⟩ := by
      intro q hqwf h1 h2
      have := hqwf.pos
      simp only [MemoryRange.Disjoint, MemoryRange.endAddr] at h1 h2 ⊢
      omega
    simp only [hsum] at hrs
    rw [hm']
    refine ⟨⟨?_, ?_, ?_, ?_⟩, fun _ => ?_, by simp⟩
    · rw [hrs]
      intro q hq
      rcases List.mem_append.mp hq with hq | hq
      · exact hwf.ranges_wf q (by simp [hl, hq])
      · rcases List.mem_cons.mp hq with rfl | hq
        · exact hmerged
        · exact hwf.ranges_wf q (by simp [hl, hq])
    · rw [hrs, List.pairwise_append, List.pairwise_cons]
      refine ⟨hpre, ⟨fun q hq => ?_, hpost⟩, fun x hx y hy => ?_⟩
      · have hmem : q ∈ m.ranges := by simp [hl, hq]
        exact (hjoin q (hwf.ranges_wf q hmem) (hdis q hmem) (hqpost q hq).symm).symm
      · have hmem : x ∈ m.ranges := by simp [hl, hx]
        rcases List.mem_cons.mp hy with rfl | hy
        · exact hjoin x (hwf.ranges_wf x hmem) (hdis x hmem) (hcross x hx _ (by simp))
        · exact hcross x hx y (by simp [hy])
    · rw [hcnt, hmax]
      exact hwf.count_le
    · rw [hmax]
      exact hwf.max_lt
    · unfold MemoryMap.freePages
      rw [hrs, hl]
      simp only [List.flatMap_append, List.flatMap_cons]
      rw [MemoryRange.pageList_split, ← hend]
      simp only [List.append_assoc]
      rw [← List.append_assoc, ← List.append_assoc _ (List.flatMap _ pre)]
      exact List.perm_append_comm.append_right _

end KoalemOS.Mmap
