import KoalemOS.Mmap.FreePages
import Mathlib.Data.List.Pairwise

/-!
# `mmap_get_range` (`src/kernel/mmap.c`)

`mmap_get_range` looks for the range that starts at an address and makes the count one smaller.
It does not close the gap as `mmap_get_pages` does, so what is gone afterwards is the last range
of the buffer (`mmapGetRange_eq`), which is the one that was looked for only if that is the last.
-/

namespace KoalemOS.Mmap

variable {m : MemoryMap} {b : Nat}

/-! ## The code -/

/-- The loop of `mmap_get_range` from slot `i`, with `k` slots to go. -/
def getRangeLoop (m : MemoryMap) (baseAddr : Nat) (i : Nat) : Nat → Nat × MemoryMap
  | 0 => (0, m)
  | k + 1 =>
    if (m.memoryRanges i).baseAddr = baseAddr then
      ((m.memoryRanges i).pages, { m with rangeCount := m.rangeCount - 1 })
    else getRangeLoop m baseAddr (i + 1) k

/-- `mmap_get_range`: the number of pages, or 0. -/
def mmapGetRange (m : MemoryMap) (baseAddr : Nat) : Nat × MemoryMap :=
  getRangeLoop m baseAddr 0 m.rangeCount

/-! ## What it does to the ranges -/

/-- Without the last slot, the last range is gone. -/
theorem ranges_dropLast (m : MemoryMap) :
    MemoryMap.ranges { m with rangeCount := m.rangeCount - 1 } = m.ranges.dropLast := by
  unfold MemoryMap.ranges MemoryMap.slots
  cases m.rangeCount with
  | zero => rfl
  | succ k =>
    rw [Nat.add_sub_cancel, List.range'_concat, List.map_append, List.map_singleton, List.dropLast_concat]

theorem getRangeLoop_eq (m : MemoryMap) (b i k : Nat) :
    (getRangeLoop m b i k = (0, m) ∧ ∀ r ∈ m.slots i k, r.baseAddr ≠ b) ∨
      ∃ r ∈ m.slots i k, r.baseAddr = b ∧
        getRangeLoop m b i k = (r.pages, { m with rangeCount := m.rangeCount - 1 }) := by
  induction k generalizing i with
  | zero => exact .inl ⟨rfl, by simp⟩
  | succ k ih =>
    rw [slots_succ, getRangeLoop]
    by_cases heq : (m.memoryRanges i).baseAddr = b
    · rw [if_pos heq]
      exact .inr ⟨_, List.mem_cons_self, heq, rfl⟩
    · rw [if_neg heq]
      rcases ih (i + 1) with ⟨hret, hnone⟩ | ⟨r, hr, hb, hret⟩
      · exact .inl ⟨hret, List.forall_mem_cons.mpr ⟨heq, hnone⟩⟩
      · exact .inr ⟨r, List.mem_cons_of_mem _ hr, hb, hret⟩

/-- `mmap_get_range` finds nothing, or it drops the last range. -/
theorem mmapGetRange_eq (m : MemoryMap) (b : Nat) :
    (mmapGetRange m b = (0, m) ∧ ∀ r ∈ m.ranges, r.baseAddr ≠ b) ∨
      ∃ r ∈ m.ranges, r.baseAddr = b ∧ (mmapGetRange m b).1 = r.pages ∧
        (mmapGetRange m b).2.ranges = m.ranges.dropLast := by
  rcases getRangeLoop_eq m b 0 m.rangeCount with hnone | ⟨r, hr, hb, hret⟩
  · exact .inl hnone
  · refine .inr ⟨r, hr, hb, congrArg Prod.fst hret, ?_⟩
    rw [mmapGetRange, hret]
    exact ranges_dropLast m

/-! ## Disjoint ranges -/

/-- The ranges hold pages, and none of them twice. There is no bound on their number, as `Wf` has one: the source
looks for them with an `int`, which is defined for fewer than 2^31 ranges, and is the model's counter there. -/
structure MemoryMap.Apart (m : MemoryMap) : Prop where
  pos : ∀ r ∈ m.ranges, 0 < r.pages
  disjoint : m.ranges.Pairwise MemoryRange.Disjoint

/-- A range is not disjoint from itself, unless it is empty. -/
theorem MemoryRange.not_disjoint_self {r : MemoryRange} (h : 0 < r.pages) : ¬r.Disjoint r := by
  unfold MemoryRange.Disjoint MemoryRange.endAddr
  omega

instance : Std.Symm MemoryRange.Disjoint := ⟨fun _ _ => MemoryRange.Disjoint.symm⟩

theorem MemoryMap.Apart.nodup (h : m.Apart) : m.ranges.Nodup := by
  refine h.disjoint.imp_of_mem fun {r q} hr _ hd hrq => ?_
  subst hrq
  exact MemoryRange.not_disjoint_self (h.pos r hr) hd

/-- One range starts at an address. -/
theorem MemoryMap.Apart.eq_of_base (h : m.Apart) {r q : MemoryRange} (hr : r ∈ m.ranges) (hq : q ∈ m.ranges)
    (heq : r.baseAddr = q.baseAddr) : r = q := by
  by_contra hne
  have hd : r.Disjoint q := h.disjoint.forall hr hq hne
  have hrpos := h.pos r hr
  have hqpos := h.pos q hq
  unfold MemoryRange.Disjoint MemoryRange.endAddr at hd
  omega

/-! ## The result -/

/-- A page count that is not 0 is that of a range which starts at `b`, and that range and no
other is gone; with 0 there is no such range and the map is what it was. -/
def GetsRange (m : MemoryMap) (b : Nat) : Prop :=
  ((mmapGetRange m b).1 ≠ 0 → ∃ l₁ l₂, m.ranges = l₁ ++ ⟨b, (mmapGetRange m b).1⟩ :: l₂ ∧
      (mmapGetRange m b).2.ranges.Perm (l₁ ++ l₂)) ∧
    ((mmapGetRange m b).1 = 0 → (∀ r ∈ m.ranges, r.baseAddr ≠ b) ∧ (mmapGetRange m b).2 = m)

/-- **`mmap_get_range`** takes the range it returns out of the map exactly when no other range
is behind it in the buffer. -/
theorem mmapGetRange_iff (h : m.Apart) (b : Nat) :
    GetsRange m b ↔ ∀ l₁ r l₂, m.ranges = l₁ ++ r :: l₂ → r.baseAddr = b → l₂ = [] := by
  rcases mmapGetRange_eq m b with ⟨hret, hnone⟩ | ⟨q, hq, hqb, hpages, hranges⟩
  · refine iff_of_true ⟨fun hne => absurd (by rw [hret]) hne, fun _ => ⟨hnone, by rw [hret]⟩⟩ ?_
    intro l₁ r l₂ heq hr
    exact absurd hr (hnone r (by simp [heq]))
  · have hq' : q = ⟨b, (mmapGetRange m b).1⟩ := by
      rw [hpages, ← hqb]
    have hne : (mmapGetRange m b).1 ≠ 0 := by
      have := h.pos q hq
      omega
    constructor
    · rintro ⟨hgone, -⟩ l₁ r l₂ heq hr
      obtain ⟨k₁, k₂, hsplit, hperm⟩ := hgone hne
      by_contra hl₂
      -- the range is still there, since the last one is gone
      have hrq : r = q := h.eq_of_base (by simp [heq]) hq (hr.trans hqb.symm)
      have hmem : q ∈ (mmapGetRange m b).2.ranges := by
        rw [hranges, heq, List.dropLast_append_of_ne_nil (by simp), List.dropLast_cons_of_ne_nil hl₂, hrq]
        simp
      have hnodup := h.nodup
      rw [hsplit, ← hq', List.nodup_middle] at hnodup
      exact (List.nodup_cons.mp hnodup).1 (hperm.mem_iff.mp hmem)
    · intro hlast
      obtain ⟨l₁, l₂, heq⟩ := List.append_of_mem hq
      obtain rfl := hlast l₁ q l₂ heq hqb
      refine ⟨fun _ => ⟨l₁, [], by rw [heq, ← hq'], ?_⟩, fun hzero => absurd hzero hne⟩
      rw [hranges, heq, List.append_nil, List.dropLast_concat]

/-- A page at `0x1000` and two at `0x3000`. -/
def twoRanges : MemoryMap :=
  ⟨fun i => if i = 0 then ⟨0x1000, 1⟩ else ⟨0x3000, 2⟩, 2, 2⟩

theorem twoRanges_apart : twoRanges.Apart := by
  have hranges : twoRanges.ranges = [⟨0x1000, 1⟩, ⟨0x3000, 2⟩] := rfl
  constructor
  · rw [hranges]
    decide
  · rw [hranges, List.pairwise_pair]
    exact .inl (by decide)

/-- The last of the two ranges is taken. -/
theorem mmapGetRange_iff_last : GetsRange twoRanges 0x3000 := by
  refine (mmapGetRange_iff twoRanges_apart 0x3000).mpr fun l₁ r l₂ heq hr => ?_
  have hranges : twoRanges.ranges = [⟨0x1000, 1⟩, ⟨0x3000, 2⟩] := rfl
  rw [hranges] at heq
  match l₁, heq with
  | [], heq =>
    obtain ⟨rfl, -⟩ := List.cons.inj heq
    cases hr
  | [_], heq => exact ((List.cons.inj (List.cons.inj heq).2).2).symm
  | _ :: _ :: l₁, heq =>
    have hlen := congrArg List.length heq
    simp at hlen

/-- The first of the two is asked for, and the other one is gone. -/
theorem mmapGetRange_loses : twoRanges.Apart ∧ ¬GetsRange twoRanges 0x1000 := by
  refine ⟨twoRanges_apart, fun h => ?_⟩
  obtain ⟨l₁, l₂, heq, hperm⟩ := h.1 (by decide)
  have hmem : (⟨0x1000, 1⟩ : MemoryRange) ∈ l₁ ++ l₂ := hperm.mem_iff.mp (by decide)
  have hnodup := twoRanges_apart.nodup
  rw [heq, List.nodup_middle] at hnodup
  exact (List.nodup_cons.mp hnodup).1 hmem

end KoalemOS.Mmap
