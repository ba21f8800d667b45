import KoalemOS.Library.ByteMemory
import KoalemOS.Library.Outcome
import KoalemOS.Library.Words
import Mathlib.Data.List.NodupEquivFin
import Mathlib.Logic.Equiv.Basic

/-!
# `qsort` (`src/libc/stdlib.c`)

`qsort` and `partition` add indices to the pointer to the array without multiplying them by the
size of an element. On an array of bytes they are a quicksort whose pivot is the first byte:
`qsort_bytes` says that it ends, touches only the array and sorts it.

- `partitionLoop_wp`, `partition_wp`: the bytes up to the pivot and the bytes above it
- `qsort_bytes`: both parts are sorted
-/

namespace KoalemOS.Libc

open KoalemOS.Library

/-! ## Memory -/

/-- Why `qsort` does not return: it touches a byte that is not one of the array, or it goes on
without an end. -/
inductive QsortStop where
  | outside
  | endless

/-- A memory of which the bytes from `start` up to `stop` may be touched. -/
structure Area where
  start : Nat
  stop : Nat
  mem : Mem

abbrev QsortM := Outcome QsortStop Area

/-- `*(uint8_t*)a` -/
def loadByte (a : Nat) : QsortM UInt8 := fun s =>
  if s.start ≤ a ∧ a < s.stop then (.ok (s.mem a), s) else (.error .outside, s)

/-- `*(uint8_t*)a = b` -/
def saveByte (a : Nat) (b : UInt8) : QsortM Unit := fun s =>
  if s.start ≤ a ∧ a < s.stop then (.ok (), { s with mem := s.mem.storeByte a b })
  else (.error .outside, s)

/-- `(void*)((uintptr_t)ptr + i)` -/
def offset (ptr i : Nat) : Nat := wrap (ptr + i)

/-! ## The code -/

/-- A comparison function, on the bytes of two elements. -/
abbrev Comp := List UInt8 → List UInt8 → Int

/-- The bytes of an element, as a comparison function reads them. -/
def loadElement (a : Nat) : Nat → QsortM (List UInt8)
  | 0 => return []
  | n + 1 => do
    let b ← loadByte a
    let bs ← loadElement (offset a 1) n
    return b :: bs

/-- `comp(lhs, rhs)` -/
def callComp (comp : Comp) (size lhs rhs : Nat) : QsortM Int := do
  let x ← loadElement lhs size
  let y ← loadElement rhs size
  return comp x y

/-- `memswap` -/
def memswap (lhs rhs count : Nat) : QsortM Unit :=
  Outcome.loop 0 count fun i => do
    let tmp ← loadByte (offset lhs i)
    let b ← loadByte (offset rhs i)
    saveByte (offset lhs i) b
    saveByte (offset rhs i) tmp

/-- The loop of `partition`: where `i` and `j` end. -/
def partitionLoop (ptr size : Nat) (comp : Comp) : Nat → Nat → Nat → QsortM (Nat × Nat)
  | 0, _, _ => Outcome.stop .endless
  | fuel + 1, i, j =>
    if i < j then do
      let low ← callComp comp size (offset ptr i) ptr
      if low ≤ 0 then partitionLoop ptr size comp fuel (i + 1) j
      else
        let high ← callComp comp size (offset ptr j) ptr
        if high > 0 then partitionLoop ptr size comp fuel i (j - 1)
        else
          memswap (offset ptr i) (offset ptr j) size
          partitionLoop ptr size comp fuel (i + 1) (j - 1)
    else return (i, j)

/-- `partition`: the index of the pivot afterwards. Every round of its loop brings `i` and `j`
closer. -/
def partition (ptr count size : Nat) (comp : Comp) (pivIndex : Nat) : QsortM Nat := do
  memswap ptr (offset ptr pivIndex) size
  let (i, _) ← partitionLoop ptr size comp count 1 (count - 1)
  if i > 1 then
    let last ← callComp comp size (offset ptr i) ptr
    if last > 0 then
      memswap ptr (offset ptr (i - 1)) size
      return i - 1
    else
      memswap ptr (offset ptr i) size
      return i
  else return 0

/-- `qsort` -/
def qsort (size : Nat) (comp : Comp) : Nat → Nat → Nat → QsortM Unit
  | 0, _, _ => Outcome.stop .endless
  | fuel + 1, ptr, count =>
    if count ≤ 2 then
      if count < 2 then return ()
      else do
        let order ← callComp comp size (offset ptr 1) ptr
        if order < 0 then memswap ptr (offset ptr 1) size else return ()
    else do
      let pivIndex ← partition ptr count size comp (size / 2)
      qsort size comp fuel ptr pivIndex
      qsort size comp fuel (offset ptr (pivIndex + 1)) (count - pivIndex - 1)

/-! ## Accesses -/

variable {s : Area} {a b ptr count i j k : Nat} {V V₀ : Mem} {comp : Comp} {E : QsortStop → Prop}

/-- The byte at `a` may be touched. -/
def Area.Has (s : Area) (a : Nat) : Prop := s.start ≤ a ∧ a < s.stop

theorem loadByte_returns (h : s.Has a) : (loadByte a).Returns s (s.mem a) s := if_pos h

theorem saveByte_returns (h : s.Has a) (x : UInt8) :
    (saveByte a x).Returns s () { s with mem := s.mem.storeByte a x } := if_pos h

/-- A comparison of two bytes. -/
theorem callComp_byte (comp : Comp) (ha : s.Has a) (hb : s.Has b) :
    (callComp comp 1 a b).Returns s (comp [s.mem a] [s.mem b]) s := by
  have hload : ∀ {c}, s.Has c → (loadElement c 1).Returns s [s.mem c] s := fun hc =>
    (loadByte_returns hc).bind ((Outcome.returns_pure [] s).bind (Outcome.returns_pure _ s))
  exact (hload ha).bind ((hload hb).bind (Outcome.returns_pure _ s))

/-- The memory with the bytes at `a` and `b` exchanged. -/
def swapBytes (V : Mem) (a b : Nat) : Mem := fun x => V (Equiv.swap a b x)

theorem swapBytes_eq (V : Mem) (a b : Nat) : (V.storeByte a (V b)).storeByte b (V a) = swapBytes V a b := by
  funext x
  unfold swapBytes
  by_cases hb : x = b
  · subst hb
    rw [Mem.storeByte_same, Equiv.swap_apply_right]
  · rw [Mem.storeByte_other _ hb]
    by_cases ha : x = a
    · subst ha
      rw [Mem.storeByte_same, Equiv.swap_apply_left]
    · rw [Mem.storeByte_other _ ha, Equiv.swap_apply_of_ne_of_ne ha hb]

theorem swapBytes_left (V : Mem) (a b : Nat) : swapBytes V a b a = V b := by
  rw [swapBytes, Equiv.swap_apply_left]

theorem swapBytes_right (V : Mem) (a b : Nat) : swapBytes V a b b = V a := by
  rw [swapBytes, Equiv.swap_apply_right]

theorem swapBytes_other {x : Nat} (ha : x ≠ a) (hb : x ≠ b) : swapBytes V a b x = V x := by
  rw [swapBytes, Equiv.swap_apply_of_ne_of_ne ha hb]

theorem memswap_byte (ha : s.Has a) (hb : s.Has b) (hlt : s.stop ≤ 2 ^ 64) :
    (memswap a b 1).Returns s () { s with mem := swapBytes s.mem a b } := by
  have hoff : ∀ {c}, s.Has c → offset c 0 = c := fun hc => wrap_of_lt (hc.2.trans_le hlt)
  have hsave : (do saveByte a (s.mem b); saveByte b (s.mem a) : QsortM Unit).Returns s ()
      { s with mem := swapBytes s.mem a b } := by
    rw [← swapBytes_eq]
    exact (saveByte_returns ha _).bind
      (saveByte_returns (s := { s with mem := s.mem.storeByte a (s.mem b) }) hb _)
  unfold memswap
  rw [Outcome.loop_succ, Outcome.loop_zero, hoff ha, hoff hb]
  exact ((loadByte_returns ha).bind ((loadByte_returns hb).bind hsave)).bind (Outcome.returns_pure () _)

/-! ## Bytes of an array -/

/-- The `n` bytes from `ptr` on. -/
def cells (V : Mem) (ptr n : Nat) : List UInt8 := (List.range n).map fun i => V (ptr + i)

theorem mem_cells {x : UInt8} : x ∈ cells V ptr count ↔ ∃ i < count, V (ptr + i) = x := by
  simp [cells]

theorem cells_congr {V' : Mem} (h : ∀ v, ptr ≤ v → v < ptr + count → V' v = V v) :
    cells V' ptr count = cells V ptr count := by
  refine List.map_congr_left fun i hi => h _ (Nat.le_add_right _ _) ?_
  have := List.mem_range.mp hi
  omega

/-- The bytes before one, that byte, and the bytes behind it. -/
theorem cells_split (V : Mem) (ptr k n : Nat) :
    cells V ptr (k + (n + 1)) = cells V ptr k ++ V (ptr + k) :: cells V (ptr + (k + 1)) n := by
  unfold cells
  rw [List.range_add, List.map_append, List.map_map, List.range_succ_eq_map, List.map_cons, List.map_map]
  congr 2
  refine List.map_congr_left fun i _ => ?_
  simp only [Function.comp_apply]
  congr 1
  omega

/-- Bytes of the array that are exchanged. -/
theorem cells_swapBytes (V : Mem) (hi : i < count) (hj : j < count) :
    (cells (swapBytes V (ptr + i) (ptr + j)) ptr count).Perm (cells V ptr count) := by
  have hindex : cells (swapBytes V (ptr + i) (ptr + j)) ptr count =
      ((List.range count).map (Equiv.swap i j)).map fun i => V (ptr + i) := by
    rw [List.map_map]
    refine List.map_congr_left fun x _ => ?_
    simp only [swapBytes, Function.comp_apply]
    by_cases hxi : x = i
    · rw [hxi, Equiv.swap_apply_left, Equiv.swap_apply_left]
    · by_cases hxj : x = j
      · rw [hxj, Equiv.swap_apply_right, Equiv.swap_apply_right]
      · rw [Equiv.swap_apply_of_ne_of_ne hxi hxj, Equiv.swap_apply_of_ne_of_ne (by omega) (by omega)]
  rw [hindex]
  refine List.Perm.map _ ((List.perm_ext_iff_of_nodup ?_ List.nodup_range).mpr fun x => ?_)
  · exact List.nodup_range.map (Equiv.injective _)
  · simp only [List.mem_map, List.mem_range]
    constructor
    · rintro ⟨y, hy, rfl⟩
      rw [Equiv.swap_apply_def]
      split_ifs <;> omega
    · intro hx
      refine ⟨Equiv.swap i j x, ?_, Equiv.swap_apply_self i j x⟩
      rw [Equiv.swap_apply_def]
      split_ifs <;> omega

/-- From `V₀` to `V` the bytes of the array have only changed places. -/
structure Permuted (V₀ V : Mem) (ptr count : Nat) : Prop where
  perm : (cells V ptr count).Perm (cells V₀ ptr count)
  frame : ∀ v, v < ptr ∨ ptr + count ≤ v → V v = V₀ v

theorem Permuted.refl (V : Mem) (ptr count : Nat) : Permuted V V ptr count := ⟨List.Perm.refl _, fun _ _ => rfl⟩

theorem Permuted.swap (h : Permuted V₀ V ptr count) (hi : i < count) (hj : j < count) :
    Permuted V₀ (swapBytes V (ptr + i) (ptr + j)) ptr count := by
  refine ⟨(cells_swapBytes V hi hj).trans h.perm, fun v hv => ?_⟩
  rw [swapBytes_other (by omega) (by omega)]
  exact h.frame v hv

/-- An array in the area that may be touched. -/
structure Area.Holds (s : Area) (ptr count : Nat) : Prop where
  lower : s.start ≤ ptr
  upper : ptr + count ≤ s.stop
  noWrap : s.stop ≤ 2 ^ 64

theorem Area.Holds.has (h : s.Holds ptr count) (hi : i < count) : s.Has (ptr + i) := by
  obtain ⟨hlower, hupper, -⟩ := h
  exact ⟨by omega, by omega⟩

theorem Area.Holds.offset_eq (h : s.Holds ptr count) (hi : i < count) : offset ptr i = ptr + i := by
  obtain ⟨-, hupper, hlt⟩ := h
  exact wrap_of_lt (by omega)

/-! ## `partition` -/

/-- What the loop of `partition` has found: the bytes before `i` are at most the pivot, those
behind `j` are above it. -/
structure Scanned (comp : Comp) (V₀ V : Mem) (ptr count i j : Nat) : Prop where
  pos : 1 ≤ i
  le : i ≤ j + 1
  lt : i < count
  ltj : j < count
  low : ∀ x, 1 ≤ x → x < i → comp [V (ptr + x)] [V ptr] ≤ 0
  high : ∀ x, j < x → x < count → 0 < comp [V (ptr + x)] [V ptr]
  first : i = 1 → j < count - 1 → 0 < comp [V (ptr + 1)] [V ptr]
  permuted : Permuted V₀ V ptr count

/-- The byte at `i` is not above the pivot. -/
theorem Scanned.stepLow (h : Scanned comp V₀ V ptr count i j) (hij : i < j) (hle : comp [V (ptr + i)] [V ptr] ≤ 0) :
    Scanned comp V₀ V ptr count (i + 1) j := by
  have hltj := h.ltj
  have hpos := h.pos
  refine ⟨by omega, by omega, by omega, hltj, fun x h₁ h₂ => ?_, h.high, fun hi => by omega, h.permuted⟩
  by_cases hx : x = i
  · rw [hx]
    exact hle
  · exact h.low x h₁ (by omega)

/-- The bytes at `i` and at `j` are above the pivot. -/
theorem Scanned.stepHigh (h : Scanned comp V₀ V ptr count i j) (hij : i < j)
    (hlow : 0 < comp [V (ptr + i)] [V ptr]) (hhigh : 0 < comp [V (ptr + j)] [V ptr]) :
    Scanned comp V₀ V ptr count i (j - 1) := by
  have hltj := h.ltj
  refine ⟨h.pos, by omega, h.lt, by omega, h.low, fun x h₁ h₂ => ?_, fun hi _ => by rwa [hi] at hlow, h.permuted⟩
  by_cases hx : x = j
  · rw [hx]
    exact hhigh
  · exact h.high x (by omega) h₂

/-- The bytes at `i` and `j` are exchanged. -/
theorem Scanned.stepSwap (h : Scanned comp V₀ V ptr count i j) (hij : i < j)
    (hlow : 0 < comp [V (ptr + i)] [V ptr]) (hhigh : comp [V (ptr + j)] [V ptr] ≤ 0) :
    Scanned comp V₀ (swapBytes V (ptr + i) (ptr + j)) ptr count (i + 1) (j - 1) := by
  have hltj := h.ltj
  have hpos := h.pos
  have hpivot : swapBytes V (ptr + i) (ptr + j) ptr = V ptr := swapBytes_other (by omega) (by omega)
  refine ⟨by omega, by omega, by omega, by omega, fun x h₁ h₂ => ?_, fun x h₁ h₂ => ?_, fun hi => by omega,
    h.permuted.swap (by omega) hltj⟩
  · rw [hpivot]
    by_cases hx : x = i
    · rw [hx, swapBytes_left]
      exact hhigh
    · rw [swapBytes_other (by omega) (by omega)]
      exact h.low x h₁ (by omega)
  · rw [hpivot]
    by_cases hx : x = j
    · rw [hx, swapBytes_right]
      exact hlow
    · rw [swapBytes_other (by omega) (by omega)]
      exact h.high x (by omega) h₂

/-- The loop of `partition`. -/
theorem partitionLoop_wp {fuel : Nat} (hs : s.Holds ptr count) (hfuel : j - i < fuel)
    (h : Scanned comp V₀ V ptr count i j) :
    Outcome.wp E (partitionLoop ptr 1 comp fuel i j) (fun r t => ∃ V', t = { s with mem := V' } ∧
      Scanned comp V₀ V' ptr count r.1 r.2 ∧ r.2 ≤ r.1) { s with mem := V } := by
  induction fuel generalizing i j V with
  | zero => omega
  | succ fuel ih =>
    rw [partitionLoop]
    refine Outcome.wp_ite (fun hij => ?_) fun hij => ?_
    · have hltj := h.ltj
      have hsV : Area.Holds { s with mem := V } ptr count := ⟨hs.lower, hs.upper, hs.noWrap⟩
      have hptr : Area.Has { s with mem := V } ptr := hsV.has (i := 0) (by omega)
      rw [hs.offset_eq (by omega : i < count), hs.offset_eq hltj]
      refine Outcome.wp_bind_returns (callComp_byte comp (hsV.has (by omega)) hptr) ?_
      refine Outcome.wp_ite (fun hle => ih (by omega) (h.stepLow hij hle)) fun hgt => ?_
      refine Outcome.wp_bind_returns (callComp_byte comp (hsV.has hltj) hptr) ?_
      refine Outcome.wp_ite (fun hhigh => ih (by omega) (h.stepHigh hij (by simpa using hgt) hhigh)) fun hle => ?_
      refine Outcome.wp_bind_returns (memswap_byte (hsV.has (by omega)) (hsV.has hltj) hs.noWrap) ?_
      exact ih (by omega) (h.stepSwap hij (by simpa using hgt) (by simpa using hle))
    · exact Outcome.wp_of_returns (Outcome.returns_pure _ _) ⟨V, rfl, h, by simpa using hij⟩

/-- The byte at `k` is not below those before it, and below those behind it. -/
structure Parted (comp : Comp) (V₀ V : Mem) (ptr count k : Nat) : Prop where
  lt : k < count
  low : ∀ x < k, comp [V (ptr + x)] [V (ptr + k)] ≤ 0
  high : ∀ x, k < x → x < count → 0 < comp [V (ptr + x)] [V (ptr + k)]
  permuted : Permuted V₀ V ptr count

/-- The pivot goes behind the bytes that are not above it. -/
theorem Scanned.place (h : Scanned comp V₀ V ptr count i j) (hk : k < count) (hkpos : 1 ≤ k)
    (hlow : ∀ x, 1 ≤ x → x ≤ k → comp [V (ptr + x)] [V ptr] ≤ 0)
    (hhigh : ∀ x, k < x → x < count → 0 < comp [V (ptr + x)] [V ptr]) :
    Parted comp V₀ (swapBytes V ptr (ptr + k)) ptr count k := by
  refine ⟨hk, fun x hx => ?_, fun x h₁ h₂ => ?_, ?_⟩
  · rw [swapBytes_right]
    by_cases hx0 : x = 0
    · subst hx0
      rw [Nat.add_zero, swapBytes_left]
      exact hlow k hkpos le_rfl
    · rw [swapBytes_other (by omega) (by omega)]
      exact hlow x (by omega) (by omega)
  · rw [swapBytes_right, swapBytes_other (by omega) (by omega)]
    exact hhigh x h₁ h₂
  · exact h.permuted.swap (i := 0) (by omega) hk

/-- **`partition`** on three bytes or more. -/
theorem partition_wp (hs : s.Holds ptr count) (hcount : 3 ≤ count) :
    Outcome.wp E (partition ptr count 1 comp 0) (fun k t => ∃ V, t = { s with mem := V } ∧
      Parted comp s.mem V ptr count k) s := by
  have hptr : s.Has ptr := hs.has (i := 0) (by omega)
  unfold partition
  rw [hs.offset_eq (i := 0) (by omega), Nat.add_zero]
  refine Outcome.wp_bind_returns (memswap_byte hptr hptr hs.noWrap) ?_
  have hsame : swapBytes s.mem ptr ptr = s.mem := by
    funext x
    rw [swapBytes, Equiv.swap_self]
    rfl
  rw [hsame]
  refine Outcome.wp_bind (Outcome.wp_mono (partitionLoop_wp (V := s.mem) hs (by omega)
    ⟨le_rfl, by omega, by omega, by omega, fun x h₁ h₂ => by omega, fun x h₁ h₂ => by omega,
      fun _ h => by omega, .refl s.mem ptr count⟩) fun r t ht => ?_)
  obtain ⟨V, rfl, hscan, hji⟩ := ht
  obtain ⟨i, j⟩ := r
  simp only at hscan hji ⊢
  have hsV : Area.Holds { s with mem := V } ptr count := ⟨hs.lower, hs.upper, hs.noWrap⟩
  have hpos := hscan.pos
  have hlt := hscan.lt
  refine Outcome.wp_ite (fun hi => ?_) fun hi => ?_
  · rw [hs.offset_eq hlt, hs.offset_eq (by omega : i - 1 < count)]
    refine Outcome.wp_bind_returns (callComp_byte comp (hsV.has hlt) hptr) ?_
    refine Outcome.wp_ite (fun hgt => ?_) fun hle => ?_
    · refine Outcome.wp_bind_returns (memswap_byte hptr (hsV.has (by omega)) hs.noWrap)
        (Outcome.wp_of_returns (Outcome.returns_pure _ _) ⟨_, rfl, ?_⟩)
      refine hscan.place (by omega) (by omega) (fun x h₁ h₂ => hscan.low x h₁ (by omega)) fun x h₁ h₂ => ?_
      by_cases hx : x = i
      · rw [hx]
        exact hgt
      · exact hscan.high x (by omega) h₂
    · refine Outcome.wp_bind_returns (memswap_byte hptr (hsV.has hlt) hs.noWrap)
        (Outcome.wp_of_returns (Outcome.returns_pure _ _) ⟨_, rfl, ?_⟩)
      refine hscan.place hlt hpos (fun x h₁ h₂ => ?_) fun x h₁ h₂ => hscan.high x (by omega) h₂
      by_cases hx : x = i
      · rw [hx]
        simpa using hle
      · exact hscan.low x h₁ (by omega)
  · -- every byte is above the pivot
    obtain rfl : i = 1 := by omega
    have hle := hscan.le
    refine Outcome.wp_of_returns (Outcome.returns_pure _ _) ⟨V, rfl, by omega, fun x hx => by omega,
      fun x h₁ h₂ => ?_, hscan.permuted⟩
    rw [Nat.add_zero]
    by_cases hx : x = 1
    · rw [hx]
      exact hscan.first rfl (by omega)
    · exact hscan.high x (by omega) h₂

/-! ## `qsort` -/

/-- A comparison function that is a total preorder on elements of `size` bytes. -/
structure TotalPreorder (comp : Comp) (size : Nat) : Prop where
  swap : ∀ x y, x.length = size → y.length = size → (comp x y < 0 ↔ 0 < comp y x)
  trans : ∀ x y z, x.length = size → y.length = size → z.length = size →
    comp x y ≤ 0 → comp y z ≤ 0 → comp x z ≤ 0

/-- The bytes of an array are in order. -/
def Ascending (comp : Comp) (bs : List UInt8) : Prop := bs.Pairwise fun x y => comp [x] [y] ≤ 0

/-- The two parts around a pivot are put in order. -/
theorem Parted.ascending {n : Nat} {V₁ V₂ : Mem} (hcomp : TotalPreorder comp 1)
    (h : Parted comp V₀ V ptr (k + (n + 1)) k) (h₁ : Permuted V V₁ ptr k) (hasc₁ : Ascending comp (cells V₁ ptr k))
    (h₂ : Permuted V₁ V₂ (ptr + (k + 1)) n) (hasc₂ : Ascending comp (cells V₂ (ptr + (k + 1)) n)) :
    Permuted V₀ V₂ ptr (k + (n + 1)) ∧ Ascending comp (cells V₂ ptr (k + (n + 1))) := by
  have hleft : cells V₂ ptr k = cells V₁ ptr k := cells_congr fun v hv hv' => h₂.frame v (by omega)
  have hpivot : V₂ (ptr + k) = V (ptr + k) := by
    rw [h₂.frame _ (by omega), h₁.frame _ (by omega)]
  have hright : cells V₁ (ptr + (k + 1)) n = cells V (ptr + (k + 1)) n :=
    cells_congr fun v hv hv' => h₁.frame v (by omega)
  have hsplit : cells V₂ ptr (k + (n + 1)) =
      cells V₁ ptr k ++ V (ptr + k) :: cells V₂ (ptr + (k + 1)) n := by
    rw [cells_split, hleft, hpivot]
  have hlow : ∀ x ∈ cells V₁ ptr k, comp [x] [V (ptr + k)] ≤ 0 := fun x hx => by
    obtain ⟨i, hi, rfl⟩ := mem_cells.mp (h₁.perm.mem_iff.mp hx)
    exact h.low i hi
  have hhigh : ∀ y ∈ cells V₂ (ptr + (k + 1)) n, comp [V (ptr + k)] [y] ≤ 0 := fun y hy => by
    have hy' := h₂.perm.mem_iff.mp hy
    rw [hright] at hy'
    obtain ⟨i, hi, rfl⟩ := mem_cells.mp hy'
    have hgt := h.high (k + 1 + i) (by omega) (by omega)
    rw [← Nat.add_assoc ptr] at hgt
    have := (hcomp.swap _ _ rfl rfl).mpr hgt
    omega
  refine ⟨⟨?_, fun v hv => ?_⟩, ?_⟩
  · refine List.Perm.trans ?_ h.permuted.perm
    rw [hsplit, cells_split, ← hright]
    exact h₁.perm.append (h₂.perm.cons _)
  · rw [h₂.frame v (by omega), h₁.frame v (by omega), h.permuted.frame v hv]
  · rw [hsplit]
    refine List.pairwise_append.mpr ⟨hasc₁, List.pairwise_cons.mpr ⟨hhigh, hasc₂⟩, fun x hx y hy => ?_⟩
    rcases List.mem_cons.mp hy with rfl | hy
    · exact hlow x hx
    · exact hcomp.trans _ _ _ rfl rfl rfl (hlow x hx) (hhigh y hy)

/-- **`qsort` on bytes** puts them in order. -/
theorem qsort_bytes {fuel : Nat} (hcomp : TotalPreorder comp 1) (hs : s.Holds ptr count) (hfuel : count < fuel) :
    Outcome.wp E (qsort 1 comp fuel ptr count) (fun _ t => ∃ V, t = { s with mem := V } ∧
      Permuted s.mem V ptr count ∧ Ascending comp (cells V ptr count)) s := by
  induction fuel generalizing s ptr count with
  | zero => omega
  | succ fuel ih =>
    rw [qsort]
    refine Outcome.wp_ite (fun hle => Outcome.wp_ite (fun hlt => ?_) fun hge => ?_) fun hgt => ?_
    · -- no byte or one
      refine Outcome.wp_of_returns (Outcome.returns_pure _ s) ⟨s.mem, rfl, .refl _ _ _, ?_⟩
      unfold Ascending cells
      interval_cases count
      · exact List.Pairwise.nil
      · exact List.pairwise_singleton _ _
    · obtain rfl : count = 2 := by omega
      have hptr : s.Has ptr := hs.has (i := 0) (by omega)
      have hcells : ∀ V, cells V ptr 2 = [V ptr, V (ptr + 1)] := fun V => rfl
      rw [hs.offset_eq (i := 1) (by omega)]
      refine Outcome.wp_bind_returns (callComp_byte comp (hs.has (by omega)) hptr) ?_
      refine Outcome.wp_ite (fun hneg => ?_) fun hpos => ?_
      · refine Outcome.wp_of_returns (memswap_byte hptr (hs.has (by omega)) hs.noWrap) ⟨_, rfl, ?_, ?_⟩
        · exact (Permuted.refl s.mem ptr 2).swap (i := 0) (j := 1) (by omega) (by omega)
        · rw [Ascending, hcells, List.pairwise_pair, swapBytes_left, swapBytes_right]
          omega
      · refine Outcome.wp_of_returns (Outcome.returns_pure _ s) ⟨s.mem, rfl, .refl _ _ _, ?_⟩
        rw [Ascending, hcells, List.pairwise_pair]
        have hswap := hcomp.swap [s.mem (ptr + 1)] [s.mem ptr] rfl rfl
        omega
    · refine Outcome.wp_bind (Outcome.wp_mono (partition_wp hs (by omega)) fun k t ht => ?_)
      obtain ⟨V, rfl, hparted⟩ := ht
      have hk := hparted.lt
      obtain ⟨n, rfl⟩ : ∃ n, count = k + (n + 1) := ⟨count - k - 1, by omega⟩
      have hupper := hs.upper
      have hlower := hs.lower
      refine Outcome.wp_bind (Outcome.wp_mono (ih
        (show Area.Holds { s with mem := V } ptr k from ⟨hlower, by simp only; omega, hs.noWrap⟩)
        (by omega)) fun _ t ht => ?_)
      obtain ⟨V₁, rfl, hperm₁, hasc₁⟩ := ht
      have hn : k + (n + 1) - k - 1 = n := by omega
      rw [hn]
      refine Outcome.wp_mono (Q := fun _ t => ∃ V₂, t = { s with mem := V₂ } ∧
        Permuted V₁ V₂ (ptr + (k + 1)) n ∧ Ascending comp (cells V₂ (ptr + (k + 1)) n)) ?_ fun _ t ht => ?_
      · by_cases hempty : n = 0
        · -- behind the last byte the address may wrap, but nothing is read there
          subst hempty
          obtain ⟨f, rfl⟩ : ∃ f, fuel = f + 1 := ⟨fuel - 1, by omega⟩
          rw [qsort, if_pos (by omega), if_pos (by omega)]
          exact Outcome.wp_of_returns (Outcome.returns_pure _ _) ⟨V₁, rfl, .refl _ _ _, List.Pairwise.nil⟩
        · rw [hs.offset_eq (i := k + 1) (by omega)]
          exact ih (s := { s with mem := V₁ }) ⟨by simp only; omega, by simp only; omega, hs.noWrap⟩ (by omega)
      · obtain ⟨V₂, rfl, hperm₂, hasc₂⟩ := ht
        exact ⟨V₂, rfl, hparted.ascending hcomp hperm₁ hasc₁ hperm₂ hasc₂⟩

end KoalemOS.Libc
