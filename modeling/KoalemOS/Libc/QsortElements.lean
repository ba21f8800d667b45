import KoalemOS.Libc.Qsort
import Mathlib.Data.FinEnum
import Mathlib.Data.List.Chain
import Mathlib.Tactic.Ring

/-!
# Which elements `qsort` sorts

`qsort` takes the byte behind the first byte of an element for the next element. Where elements
are longer than a byte it reads and exchanges windows that overlap, and with two elements or more
all of these windows end before the last byte of the array. So the order it leaves does not depend
on that byte.

- `Zeros.qsort`: on zero bytes `qsort` changes nothing
- `qsort_sorts_iff`: the sizes and counts for which `qsort` sorts
-/

namespace KoalemOS.Libc

open KoalemOS.Library

variable {s : Area} {a b p ptr count count₀ size i j limit : Nat} {V : Mem} {comp : Comp}

/-! ## Sorting -/

/-- The elements of an array of `count` elements of `size` bytes. -/
def elements (V : Mem) (ptr size count : Nat) : List (List UInt8) :=
  (List.range count).map fun i => cells V (ptr + i * size) size

/-- With enough fuel `qsort` returns, without a touch outside the array, and leaves a permutation
of the elements in which no element is above its successor. -/
def SortsArray (size count : Nat) (comp : Comp) (ptr : Nat) (V : Mem) : Prop :=
  ∃ fuel₀, ∀ fuel ≥ fuel₀, ∃ V', (qsort size comp fuel ptr count).Returns
    ⟨ptr, ptr + count * size, V⟩ () ⟨ptr, ptr + count * size, V'⟩ ∧
    (elements V' ptr size count).Perm (elements V ptr size count) ∧
    (elements V' ptr size count).IsChain fun x y => comp x y ≤ 0

/-- `qsort` sorts every array of `count` elements of `size` bytes under every total preorder. -/
def Sorts (size count : Nat) : Prop :=
  ∀ (ptr : Nat) (V : Mem) (comp : Comp), ptr + count * size ≤ 2 ^ 64 → TotalPreorder comp size →
    SortsArray size count comp ptr V

/-! ## Elements of one byte -/

theorem elements_byte (V : Mem) (ptr count : Nat) :
    elements V ptr 1 count = (cells V ptr count).map fun b => [b] := by
  unfold elements cells
  rw [List.map_map]
  refine List.map_congr_left fun i _ => ?_
  simp

theorem sorts_bytes (count : Nat) : Sorts 1 count := by
  intro ptr V comp hfit hcomp
  refine ⟨count + 1, fun fuel hfuel => ?_⟩
  have hs : Area.Holds ⟨ptr, ptr + count * 1, V⟩ ptr count :=
    ⟨le_rfl, by simp only [Nat.mul_one, le_refl], hfit⟩
  have hwp := qsort_bytes (E := fun _ => False) hcomp hs (by omega : count < fuel)
  obtain ⟨_, t, hret, V', rfl, hperm, hasc⟩ := Outcome.returns_of_wp hwp fun _ _ _ => not_false
  refine ⟨V', hret, ?_, ?_⟩
  · rw [elements_byte, elements_byte]
    exact hperm.perm.map _
  · rw [elements_byte, List.isChain_map]
    exact hasc.isChain

/-- Nothing has to be done for one element. -/
theorem sorts_one (h : count ≤ 1) : Sorts size count := by
  intro ptr V comp _ _
  refine ⟨1, fun fuel hfuel => ⟨V, ?_, List.Perm.refl _, ?_⟩⟩
  · obtain ⟨f, rfl⟩ : ∃ f, fuel = f + 1 := ⟨fuel - 1, by omega⟩
    rw [qsort, if_pos (by omega), if_pos (by omega)]
    exact Outcome.returns_pure _ _
  · unfold elements
    interval_cases count
    · exact List.IsChain.nil
    · exact List.IsChain.singleton _

/-! ## Elements of more than one byte -/

/-- The bytes below `limit` may be touched and are zero. -/
structure Zeros (s : Area) (limit : Nat) : Prop where
  start : s.start = 0
  stop : limit ≤ s.stop
  lt : limit < 2 ^ 64
  zero : ∀ a < limit, s.mem a = 0

namespace Zeros

theorem has (h : Zeros s limit) (ha : a < limit) : s.Has a := by
  obtain ⟨hstart, hstop, -, -⟩ := h
  exact ⟨by omega, by omega⟩

theorem offset_eq (h : Zeros s limit) (ha : a + i ≤ limit) : offset a i = a + i :=
  wrap_of_lt (ha.trans_lt h.lt)

theorem loadByte (h : Zeros s limit) (ha : a < limit) : (Libc.loadByte a).Returns s 0 s := by
  have := loadByte_returns (h.has ha)
  rwa [h.zero a ha] at this

theorem saveByte (h : Zeros s limit) (ha : a < limit) : (Libc.saveByte a 0).Returns s () s := by
  have hsame : s.mem.storeByte a 0 = s.mem := by
    funext x
    by_cases hx : x = a
    · rw [hx, Mem.storeByte_same, h.zero a ha]
    · exact Mem.storeByte_other _ hx
  have := saveByte_returns (h.has ha) 0
  rwa [hsame] at this

theorem loadElement (h : Zeros s limit) {n : Nat} (ha : a + n ≤ limit) :
    (Libc.loadElement a n).Returns s (List.replicate n 0) s := by
  induction n generalizing a with
  | zero => exact Outcome.returns_pure _ s
  | succ n ih =>
    have hrest := ih (a := a + 1) (by omega)
    rw [← h.offset_eq (by omega)] at hrest
    exact (h.loadByte (by omega)).bind (hrest.bind (Outcome.returns_pure _ s))

theorem callComp (h : Zeros s limit) (hcomp : comp (List.replicate size 0) (List.replicate size 0) = 0)
    (ha : a + size ≤ limit) (hb : b + size ≤ limit) : (Libc.callComp comp size a b).Returns s 0 s := by
  rw [← hcomp]
  exact (h.loadElement ha).bind ((h.loadElement hb).bind (Outcome.returns_pure _ s))

theorem memswap (h : Zeros s limit) (ha : a + size ≤ limit) (hb : b + size ≤ limit) :
    (Libc.memswap a b size).Returns s () s := by
  refine Outcome.returns_loop (fun _ => s) 0 size fun k _ hk => ?_
  rw [h.offset_eq (by omega), h.offset_eq (by omega)]
  refine (h.loadByte (by omega)).bind ((h.loadByte (by omega)).bind ?_)
  exact (h.saveByte (by omega)).bind (h.saveByte (by omega))

variable (hcomp : comp (List.replicate size 0) (List.replicate size 0) = 0)
include hcomp

/-- No comparison finds an element above the pivot. -/
theorem partitionLoop (h : Zeros s limit) {fuel : Nat} (hi : i < count) (hj : j < count)
    (hlimit : p + count + size ≤ limit + 1) :
    Outcome.wp (fun _ => True) (Libc.partitionLoop p size comp fuel i j)
      (fun r t => t = s ∧ r.1 < count) s := by
  induction fuel generalizing i with
  | zero => exact Outcome.wp_of_stops (Outcome.stops_stop _ s) trivial
  | succ fuel ih =>
    rw [Libc.partitionLoop]
    refine Outcome.wp_ite (fun hij => ?_) fun _ => ?_
    · rw [h.offset_eq (by omega : p + i ≤ limit)]
      refine Outcome.wp_bind_returns (h.callComp hcomp (by omega) (by omega)) ?_
      rw [if_pos (le_refl 0)]
      exact ih (by omega)
    · exact Outcome.wp_of_returns (Outcome.returns_pure _ s) ⟨rfl, hi⟩

theorem partition (h : Zeros s limit) (hcount : 3 ≤ count) (hlimit : p + count + size ≤ limit + 1)
    (hpivot : p + size / 2 + size ≤ limit) :
    Outcome.wp (fun _ => True) (Libc.partition p count size comp (size / 2))
      (fun k t => t = s ∧ k < count) s := by
  unfold Libc.partition
  rw [h.offset_eq (by omega : p + size / 2 ≤ limit)]
  refine Outcome.wp_bind_returns (h.memswap (by omega) (by omega)) (Outcome.wp_bind ?_)
  refine Outcome.wp_mono (h.partitionLoop hcomp (by omega) (by omega) hlimit) ?_
  rintro ⟨i, j⟩ t ⟨rfl, hi⟩
  simp only at hi ⊢
  refine Outcome.wp_ite (fun _ => ?_) fun _ => ?_
  · rw [h.offset_eq (by omega : p + i ≤ limit)]
    refine Outcome.wp_bind_returns (h.callComp hcomp (by omega) (by omega)) ?_
    rw [if_neg (lt_irrefl 0)]
    refine Outcome.wp_bind_returns (h.memswap (by omega) (by omega)) ?_
    exact Outcome.wp_of_returns (Outcome.returns_pure _ _) ⟨rfl, hi⟩
  · exact Outcome.wp_of_returns (Outcome.returns_pure _ _) ⟨rfl, by omega⟩

/-- **On zero bytes `qsort` changes nothing**: the windows it looks at all end before `limit`. -/
theorem qsort (h : Zeros s limit) {fuel : Nat} (hsize : 1 ≤ size) (hp : p + count ≤ count₀)
    (hlimit : count₀ + size ≤ limit + 1)
    (hpivot : 3 ≤ count₀ → count₀ + size / 2 + size ≤ limit + 3) :
    Outcome.wp (fun _ => True) (Libc.qsort size comp fuel p count) (fun _ t => t = s) s := by
  induction fuel generalizing p count with
  | zero => exact Outcome.wp_of_stops (Outcome.stops_stop _ s) trivial
  | succ fuel ih =>
    rw [Libc.qsort]
    refine Outcome.wp_ite (fun hle => Outcome.wp_ite (fun _ => ?_) fun hge => ?_) fun hgt => ?_
    · exact Outcome.wp_of_returns (Outcome.returns_pure _ s) rfl
    · rw [h.offset_eq (by omega : p + 1 ≤ limit)]
      refine Outcome.wp_bind_returns (h.callComp hcomp (by omega) (by omega)) ?_
      rw [if_neg (lt_irrefl 0)]
      exact Outcome.wp_of_returns (Outcome.returns_pure _ s) rfl
    · refine Outcome.wp_bind (Outcome.wp_mono
        (h.partition hcomp (p := p) (by omega) (by omega) (by have := hpivot (by omega); omega)) ?_)
      rintro k t ⟨rfl, hk⟩
      refine Outcome.wp_bind (Outcome.wp_mono (ih (by omega)) ?_)
      rintro - t rfl
      rw [h.offset_eq (by omega : p + (k + 1) ≤ limit)]
      exact ih (by omega)

end Zeros

/-! ## An array that is not sorted -/

/-- All bytes are zero but the one at `last`. -/
def onlyLast (last : Nat) : Mem := fun a => if a = last then 1 else 0

/-- A comparison function that puts the elements with a byte other than zero first. -/
def zeroLast (x y : List UInt8) : Int := (if ∀ b ∈ x, b = 0 then 1 else 0) - if ∀ b ∈ y, b = 0 then 1 else 0

theorem zeroLast_totalPreorder (size : Nat) : TotalPreorder zeroLast size := by
  constructor
  · intro x y _ _
    unfold zeroLast
    omega
  · intro x y z _ _ _ h₁ h₂
    unfold zeroLast at *
    omega

/-- The last element of the array has to come first, but `qsort` leaves it where it is. -/
theorem onlyLast_unsorted (hsize : 2 ≤ size) (hcount : 2 ≤ count) (hfit : count * size ≤ 2 ^ 64) :
    ¬SortsArray size count zeroLast 0 (onlyLast (count * size - 1)) := by
  rintro ⟨fuel₀, hsorts⟩
  obtain ⟨V', hret, -, hchain⟩ := hsorts fuel₀ le_rfl
  have hlarge : (count - 1) * (size - 1) + count + size = count * size + 1 := by
    obtain ⟨m, rfl⟩ : ∃ m, count = m + 1 := ⟨count - 1, by omega⟩
    obtain ⟨n, rfl⟩ : ∃ n, size = n + 1 := ⟨size - 1, by omega⟩
    simp only [Nat.add_sub_cancel]
    ring
  have hz : Zeros ⟨0, 0 + count * size, onlyLast (count * size - 1)⟩ (count * size - 1) :=
    ⟨rfl, by simp only; omega, by omega, fun a ha => if_neg (by omega)⟩
  have hsame := hret.of_wp (hz.qsort (by simp [zeroLast]) (by omega) (by omega : 0 + count ≤ count)
    (by have := Nat.mul_pos (by omega : 0 < count - 1) (by omega : 0 < size - 1); omega) fun _ => by
      have : 2 * (size - 1) ≤ (count - 1) * (size - 1) := Nat.mul_le_mul_right _ (by omega)
      omega)
  obtain rfl : V' = onlyLast (count * size - 1) := congrArg Area.mem hsame
  -- the last two elements
  have hlen : (elements (onlyLast (count * size - 1)) 0 size count).length = count := by simp [elements]
  have hpair := List.isChain_iff_getElem.mp hchain (count - 2) (by rw [hlen]; omega)
  simp only [elements, List.getElem_map, List.getElem_range] at hpair
  have hmul : (count - 2) * size + size + size = count * size := by
    obtain ⟨m, rfl⟩ : ∃ m, count = m + 2 := ⟨count - 2, by omega⟩
    simp only [Nat.add_sub_cancel]
    ring
  have hmul' : (count - 2 + 1) * size = (count - 2) * size + size := Nat.succ_mul _ _
  have hzero : ∀ b ∈ cells (onlyLast (count * size - 1)) (0 + (count - 2) * size) size, b = 0 := by
    intro b hb
    obtain ⟨i, hi, rfl⟩ := mem_cells.mp hb
    exact if_neg (by omega)
  have hone : ¬∀ b ∈ cells (onlyLast (count * size - 1)) (0 + (count - 2 + 1) * size) size, b = 0 := by
    intro hall
    have := hall 1 (mem_cells.mpr ⟨size - 1, by omega, if_pos (by omega)⟩)
    exact absurd this (by decide)
  rw [zeroLast, if_pos hzero, if_neg hone] at hpair
  omega

/-- **`qsort`** sorts arrays of bytes, and arrays in which nothing has to be sorted. -/
theorem qsort_sorts_iff (hsize : 1 ≤ size) (hfit : count * size ≤ 2 ^ 64) :
    Sorts size count ↔ size = 1 ∨ count ≤ 1 := by
  constructor
  · intro h
    by_contra hc
    push Not at hc
    exact onlyLast_unsorted (by omega) (by omega) hfit
      (h 0 _ _ (by omega) (zeroLast_totalPreorder size))
  · rintro (rfl | h)
    · exact sorts_bytes count
    · exact sorts_one h

/-- An array of three bytes. -/
theorem qsort_sorts_iff_bytes : Sorts 1 3 :=
  (qsort_sorts_iff (le_refl 1) (by decide)).mpr (.inl rfl)

/-- Two elements of two bytes, `00 00` and `00 01`, of which the second is to come first. -/
theorem qsort_unsorted : TotalPreorder zeroLast 2 ∧ ¬SortsArray 2 2 zeroLast 0 (onlyLast 3) :=
  ⟨zeroLast_totalPreorder 2, onlyLast_unsorted (le_refl 2) (le_refl 2) (by decide)⟩

end KoalemOS.Libc
