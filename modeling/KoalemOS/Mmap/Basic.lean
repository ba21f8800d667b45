import KoalemOS.Library.Words
import Mathlib.Data.List.Basic

/-!
# Memory maps (`src/kernel/mmap.c`)

A memory map is a buffer of page ranges of which the first `rangeCount` slots
are in use. The kernel keeps two of them: the free physical pages and the free
virtual pages.

- `mmapAddRange`, `mmapAddRangeMerge`: give a range back
- `mmapGetPages`: take pages, first fit
- `firstFit`, `mergeFirst`: what the loops do to the list of ranges in use;
  `mmapGetPages_eq` and `mmapAddRangeMerge_eq` connect the two views

The loop counters of the source are `int`s compared with the unsigned 64-bit
`range_count`; the two agree while `range_count < 2 ^ 31`, which is part of the
representation invariant.
-/

namespace KoalemOS.Mmap

open KoalemOS.Library

/-! ## Data types (`include/kernel/mmap.h`) -/

/-- `memory_range`: `pages` pages of 4096 bytes from `baseAddr` on. -/
structure MemoryRange where
  baseAddr : Nat
  pages : Nat
  deriving DecidableEq, Repr

/-- `memory_map`: `memoryRanges` is the buffer, indexed by slot. -/
structure MemoryMap where
  memoryRanges : Nat → MemoryRange
  rangeCount : Nat
  maxRangeCount : Nat

namespace MemoryMap

/-- The `k` slots from slot `i` on. -/
def slots (m : MemoryMap) (i k : Nat) : List MemoryRange :=
  (List.range' i k).map m.memoryRanges

/-- The ranges in use. -/
def ranges (m : MemoryMap) : List MemoryRange := m.slots 0 m.rangeCount

end MemoryMap

/-- Store `r` in slot `i` of a buffer. -/
def setSlot (b : Nat → MemoryRange) (i : Nat) (r : MemoryRange) : Nat → MemoryRange := fun k =>
  if k = i then r else b k

/-! ## Giving ranges back -/

/-- `mmap_add_range` -/
def mmapAddRange (m : MemoryMap) (baseAddr pages : Nat) : Bool × MemoryMap :=
  if pages = 0 then (false, m)
  else if m.rangeCount ≥ m.maxRangeCount then (false, m)
  else (true, { m with
    memoryRanges := setSlot m.memoryRanges m.rangeCount ⟨baseAddr, pages⟩
    rangeCount := m.rangeCount + 1 })

/-- The loop of `mmap_add_range_merge` from slot `i`, with `k` slots to go. -/
def mergeLoop (m : MemoryMap) (baseAddr pages mergeAddr : Nat) (i : Nat) : Nat → Bool × MemoryMap
  | 0 => mmapAddRange m baseAddr pages
  | k + 1 =>
    if (m.memoryRanges i).baseAddr = mergeAddr then
      (true, { m with
        memoryRanges := setSlot m.memoryRanges i
          ⟨baseAddr, wrap ((m.memoryRanges i).pages + pages)⟩ })
    else mergeLoop m baseAddr pages mergeAddr (i + 1) k

/-- `mmap_add_range_merge` -/
def mmapAddRangeMerge (m : MemoryMap) (baseAddr pages : Nat) : Bool × MemoryMap :=
  if pages = 0 then (false, m)
  else mergeLoop m baseAddr pages (wrap (baseAddr + 4096 * pages)) 0 m.rangeCount

/-! ## Taking pages -/

/-- `for(j = ...) memory_ranges[j-1] = memory_ranges[j]` from `j`, with `k` slots to go. -/
def shiftLoop (b : Nat → MemoryRange) (j : Nat) : Nat → (Nat → MemoryRange)
  | 0 => b
  | k + 1 => shiftLoop (setSlot b (j - 1) (b j)) (j + 1) k

/-- The loop of `mmap_get_pages` from slot `i`, with `k` slots to go. -/
def getPagesLoop (m : MemoryMap) (pages : Nat) (i : Nat) : Nat → Nat × MemoryMap
  | 0 => (0, m)
  | k + 1 =>
    if (m.memoryRanges i).pages = pages then
      ((m.memoryRanges i).baseAddr, { m with
        memoryRanges := shiftLoop m.memoryRanges (i + 1) (m.rangeCount - (i + 1))
        rangeCount := m.rangeCount - 1 })
    else if (m.memoryRanges i).pages > pages then
      ((m.memoryRanges i).baseAddr, { m with
        memoryRanges := setSlot m.memoryRanges i
          ⟨wrap ((m.memoryRanges i).baseAddr + 4096 * pages), (m.memoryRanges i).pages - pages⟩ })
    else getPagesLoop m pages (i + 1) k

/-- `mmap_get_pages`: the address of the first page, or 0. -/
def mmapGetPages (m : MemoryMap) (pages : Nat) : Nat × MemoryMap :=
  getPagesLoop m pages 0 m.rangeCount

/-! ## The list view -/

/-- First fit on a list of ranges: the address found and the ranges left. -/
def firstFit (pages : Nat) : List MemoryRange → Option (Nat × List MemoryRange)
  | [] => none
  | r :: rs =>
    if r.pages = pages then some (r.baseAddr, rs)
    else if r.pages > pages then
      some (r.baseAddr, ⟨wrap (r.baseAddr + 4096 * pages), r.pages - pages⟩ :: rs)
    else (firstFit pages rs).map fun x => (x.1, r :: x.2)

/-- Merge a range into the first range that starts at `mergeAddr`. -/
def mergeFirst (baseAddr pages mergeAddr : Nat) : List MemoryRange → Option (List MemoryRange)
  | [] => none
  | r :: rs =>
    if r.baseAddr = mergeAddr then some (⟨baseAddr, wrap (r.pages + pages)⟩ :: rs)
    else (mergeFirst baseAddr pages mergeAddr rs).map (r :: ·)

section Slots

variable (m : MemoryMap)

@[simp] theorem slots_zero (i : Nat) : m.slots i 0 = [] := rfl

theorem slots_succ (i k : Nat) :
    m.slots i (k + 1) = m.memoryRanges i :: m.slots (i + 1) k := by
  simp [MemoryMap.slots, List.range'_succ]

theorem slots_append (i j k : Nat) : m.slots i (j + k) = m.slots i j ++ m.slots (i + j) k := by
  simp only [MemoryMap.slots, ← List.map_append, List.range'_append_1]

theorem length_slots (i k : Nat) : (m.slots i k).length = k := by simp [MemoryMap.slots]

theorem length_ranges : m.ranges.length = m.rangeCount := length_slots m 0 _

/-- Slots depend only on the buffer entries they cover. -/
theorem slots_congr {m m' : MemoryMap} {i k : Nat}
    (h : ∀ x, i ≤ x → x < i + k → m'.memoryRanges x = m.memoryRanges x) :
    m'.slots i k = m.slots i k := by
  unfold MemoryMap.slots
  refine List.map_congr_left fun x hx => ?_
  obtain ⟨h1, h2⟩ := List.mem_range'_1.mp hx
  exact h x h1 h2

end Slots

/-- The shift loop moves every entry from `j` on one slot down. -/
theorem shiftLoop_apply (b : Nat → MemoryRange) {j : Nat} (k : Nat) (hj : 0 < j) (x : Nat) :
    shiftLoop b j k x = if j ≤ x + 1 ∧ x + 1 < j + k then b (x + 1) else b x := by
  induction k generalizing b j with
  | zero =>
    rw [if_neg (by omega)]
    rfl
  | succ k ih =>
    rw [shiftLoop, ih _ (by omega)]
    unfold setSlot
    by_cases hx : x + 1 = j
    · subst hx
      simp
    · split_ifs <;> first | rfl | omega

/-- The loop of `mmap_get_pages` is first fit on the slots it has still to visit. -/
theorem getPagesLoop_eq (m : MemoryMap) (pages : Nat) (i k : Nat) (hk : i + k = m.rangeCount) :
    match firstFit pages (m.slots i k) with
    | none => getPagesLoop m pages i k = (0, m)
    | some (a, rs) => ∃ m', getPagesLoop m pages i k = (a, m') ∧
        m'.ranges = m.slots 0 i ++ rs ∧ m'.maxRangeCount = m.maxRangeCount ∧
        m'.rangeCount ≤ m.rangeCount := by
  induction k generalizing i with
  | zero => rfl
  | succ k ih =>
    rw [slots_succ]
    simp only [firstFit, getPagesLoop]
    split_ifs with heq hgt
    · -- exact fit: the entries behind slot `i` move down by one
      refine ⟨_, rfl, ?_, rfl, by simp⟩
      simp only [MemoryMap.ranges]
      rw [show m.rangeCount - 1 = i + k by omega, slots_append, Nat.zero_add]
      congr 1
      · refine slots_congr fun x _ hx => ?_
        simp only [shiftLoop_apply _ _ (Nat.succ_pos i)]
        rw [if_neg (by omega)]
      · unfold MemoryMap.slots
        rw [List.range'_eq_map_range, List.range'_eq_map_range, List.map_map, List.map_map]
        refine List.map_congr_left fun x hx => ?_
        have hx := List.mem_range.mp hx
        simp only [Function.comp_apply, shiftLoop_apply _ _ (Nat.succ_pos i)]
        rw [if_pos (by omega)]
        congr 1
        omega
    · -- partial fit: slot `i` shrinks in place
      refine ⟨_, rfl, ?_, rfl, le_rfl⟩
      simp only [MemoryMap.ranges]
      rw [show m.rangeCount = i + (k + 1) by omega, slots_append, slots_succ, Nat.zero_add]
      congr 1
      · refine slots_congr fun x _ hx => ?_
        simp only [setSlot]
        rw [if_neg (by omega)]
      · congr 1
        · simp [setSlot]
        · refine slots_congr fun x hx _ => ?_
          simp only [setSlot]
          rw [if_neg (by omega)]
    · have := ih (i + 1) (by omega)
      cases hff : firstFit pages (m.slots (i + 1) k) with
      | none =>
        rw [hff] at this
        simpa using this
      | some p =>
        obtain ⟨a, rs⟩ := p
        rw [hff] at this
        obtain ⟨m', hm', hr, hmax, hcnt⟩ := this
        refine ⟨m', hm', ?_, hmax, hcnt⟩
        rw [hr, slots_append, slots_succ, slots_zero, Nat.zero_add, List.append_assoc]
        rfl

/-- `mmap_get_pages` is first fit on the ranges in use. -/
theorem mmapGetPages_eq (m : MemoryMap) (pages : Nat) :
    match firstFit pages m.ranges with
    | none => mmapGetPages m pages = (0, m)
    | some (a, rs) => ∃ m', mmapGetPages m pages = (a, m') ∧ m'.ranges = rs ∧
        m'.maxRangeCount = m.maxRangeCount ∧ m'.rangeCount ≤ m.rangeCount := by
  have h := getPagesLoop_eq m pages 0 m.rangeCount (Nat.zero_add _)
  simp only [slots_zero, List.nil_append] at h
  exact h

/-- A range is appended exactly when the buffer has a slot left. -/
theorem mmapAddRange_eq (m : MemoryMap) (baseAddr : Nat) {pages : Nat} (hp : pages ≠ 0) :
    if m.rangeCount < m.maxRangeCount then
      ∃ m', mmapAddRange m baseAddr pages = (true, m') ∧
        m'.ranges = m.ranges ++ [⟨baseAddr, pages⟩] ∧ m'.maxRangeCount = m.maxRangeCount ∧
        m'.rangeCount = m.rangeCount + 1
    else mmapAddRange m baseAddr pages = (false, m) := by
  unfold mmapAddRange
  rw [if_neg hp]
  by_cases h : m.rangeCount < m.maxRangeCount
  · rw [if_pos h, if_neg (by omega)]
    refine ⟨_, rfl, ?_, rfl, rfl⟩
    simp only [MemoryMap.ranges]
    rw [slots_append, slots_succ, slots_zero, Nat.zero_add]
    congr 1
    · refine slots_congr fun x _ hx => ?_
      simp only [setSlot]
      rw [if_neg (by omega)]
    · simp [setSlot]
  · rw [if_neg h, if_pos (by omega)]

/-- The loop of `mmap_add_range_merge` merges into the first slot it can, and
falls back to `mmap_add_range`. -/
theorem mergeLoop_eq (m : MemoryMap) (baseAddr pages mergeAddr : Nat) (i k : Nat)
    (hk : i + k = m.rangeCount) :
    match mergeFirst baseAddr pages mergeAddr (m.slots i k) with
    | none => mergeLoop m baseAddr pages mergeAddr i k = mmapAddRange m baseAddr pages
    | some rs => ∃ m', mergeLoop m baseAddr pages mergeAddr i k = (true, m') ∧
        m'.ranges = m.slots 0 i ++ rs ∧ m'.maxRangeCount = m.maxRangeCount ∧
        m'.rangeCount = m.rangeCount := by
  induction k generalizing i with
  | zero => rfl
  | succ k ih =>
    rw [slots_succ]
    simp only [mergeFirst, mergeLoop]
    split_ifs with heq
    · refine ⟨_, rfl, ?_, rfl, rfl⟩
      simp only [MemoryMap.ranges]
      rw [show m.rangeCount = i + (k + 1) by omega, slots_append, slots_succ, Nat.zero_add]
      congr 1
      · refine slots_congr fun x _ hx => ?_
        simp only [setSlot]
        rw [if_neg (by omega)]
      · congr 1
        · simp [setSlot]
        · refine slots_congr fun x hx _ => ?_
          simp only [setSlot]
          rw [if_neg (by omega)]
    · have := ih (i + 1) (by omega)
      cases hmf : mergeFirst baseAddr pages mergeAddr (m.slots (i + 1) k) with
      | none =>
        rw [hmf] at this
        simpa using this
      | some rs =>
        rw [hmf] at this
        obtain ⟨m', hm', hr, hmax, hcnt⟩ := this
        refine ⟨m', hm', ?_, hmax, hcnt⟩
        rw [hr, slots_append, slots_succ, slots_zero, Nat.zero_add, List.append_assoc]
        rfl

/-- `mmap_add_range_merge` on the ranges in use. -/
theorem mmapAddRangeMerge_eq (m : MemoryMap) (baseAddr : Nat) {pages : Nat} (hp : pages ≠ 0) :
    match mergeFirst baseAddr pages (wrap (baseAddr + 4096 * pages)) m.ranges with
    | none => mmapAddRangeMerge m baseAddr pages = mmapAddRange m baseAddr pages
    | some rs => ∃ m', mmapAddRangeMerge m baseAddr pages = (true, m') ∧ m'.ranges = rs ∧
        m'.maxRangeCount = m.maxRangeCount ∧ m'.rangeCount = m.rangeCount := by
  unfold mmapAddRangeMerge
  rw [if_neg hp]
  have h := mergeLoop_eq m baseAddr pages (wrap (baseAddr + 4096 * pages)) 0 m.rangeCount
    (Nat.zero_add _)
  simp only [slots_zero, List.nil_append] at h
  exact h

end KoalemOS.Mmap
