import KoalemOS.Paging.Machine
import Mathlib.Tactic.NormNum

/-!
# Page table entries and tables in memory

The tables in memory are a family of arrays that link to each other.

- `link`: the table an upper-level entry points to; what setting attribute bits and
  writing a frame address do to it
- `tableAt`: the table a path of table indices leads to from the PML4
- `PageTables`: slot 511 links to the PML4 itself, the other slots lead to a tree
- `tables_store64`: a store of one entry is an edit of the tables
- `zeroSlots`: a table filled with zeros
-/

namespace KoalemOS.Paging

open KoalemOS.Library

/-! ## Links -/

/-- The table an upper-level entry links to. -/
def link (e : Nat) : Option Nat := if present e ∧ ¬pageSize e then some (frameOf e) else none

theorem link_eq_some {e n : Nat} :
    link e = some n ↔ present e = true ∧ pageSize e = false ∧ frameOf e = n := by
  unfold link
  split_ifs with h
  · obtain ⟨h1, h2⟩ := h
    simp only [Bool.not_eq_true] at h2
    simp [h1, h2]
  · simp only [false_iff, not_and]
    intro h1 h2
    simp [h1, h2] at h

@[simp] theorem link_zero : link 0 = none := rfl

theorem link_of_not_present {e : Nat} (h : present e = false) : link e = none := by
  simp [link, h]

/-- Flags among the attribute bits 1 to 5. -/
structure FlagsOk (flags : Nat) : Prop where
  low : flags < 64
  even : flags % 2 = 0

theorem flagsOk_readWrite : FlagsOk pagingFlagReadWrite := ⟨by decide, by decide⟩

theorem present_or (a b : Nat) : present (a ||| b) = (present a || present b) := by
  rw [Bool.eq_iff_iff]
  simp [present]

/-- Bit 1 of an entry. -/
def readWrite (e : Nat) : Bool := e / 2 % 2 = 1

theorem readWrite_or (a b : Nat) : readWrite (a ||| b) = (readWrite a || readWrite b) := by
  have h := Nat.testBit_or a b 1
  simp only [Nat.testBit_eq_decide_div_mod_eq, pow_one] at h
  exact h

theorem pageSize_or {e flags : Nat} (h : flags < 64) : pageSize (e ||| flags) = pageSize e := by
  unfold pageSize
  rw [show (128 : Nat) = 2 ^ 7 from rfl, lor_div_of_lt (by omega)]

theorem frameOf_or {e flags : Nat} (h : flags < 64) : frameOf (e ||| flags) = frameOf e := by
  unfold frameOf
  rw [show (4096 : Nat) = 2 ^ 12 from rfl, lor_div_of_lt (by omega)]

/-- Setting attribute bits keeps a link. -/
theorem link_or {e flags : Nat} (h : FlagsOk flags) : link (e ||| flags) = link e := by
  have hp : present (e ||| flags) = present e := by
    have : present flags = false := by simp [present, h.even]
    rw [present_or, this, Bool.or_false]
  unfold link
  rw [hp, pageSize_or h.low, frameOf_or h.low]

/-- Attribute bits of any kind: neither the page size bit nor bits of the address. -/
structure AttributeBits (flags : Nat) : Prop where
  lt : flags < 2 ^ 64
  pageSize : pageSize flags = false
  frame : frameOf flags = 0

theorem FlagsOk.attributeBits {flags : Nat} (h : FlagsOk flags) : AttributeBits flags where
  lt := by
    have := h.low
    omega
  pageSize := by
    have := h.low
    simp only [Paging.pageSize, decide_eq_false_iff_not]
    omega
  frame := by
    have := h.low
    unfold frameOf
    omega

/-- Setting attribute bits of a present entry keeps its link. -/
theorem AttributeBits.link_or {e flags : Nat} (h : AttributeBits flags) (he : present e = true) :
    link (e ||| flags) = link e := by
  have hsize : Paging.pageSize (e ||| flags) = Paging.pageSize e := by
    have hor : Paging.pageSize (e ||| flags) = (Paging.pageSize e || Paging.pageSize flags) := by
      rw [Bool.eq_iff_iff]
      simp only [Paging.pageSize, decide_eq_true_eq, Bool.or_eq_true]
      rw [show (128 : Nat) = 2 ^ 7 from rfl, ← Nat.shiftRight_eq_div_pow, ← Nat.shiftRight_eq_div_pow,
        ← Nat.shiftRight_eq_div_pow, Nat.shiftRight_or_distrib]
      simp
    rw [hor, h.pageSize, Bool.or_false]
  have hframe : frameOf (e ||| flags) = frameOf e := by
    have hzero := h.frame
    unfold frameOf at hzero ⊢
    rw [show (4096 : Nat) = 2 ^ 12 from rfl, ← Nat.shiftRight_eq_div_pow] at hzero ⊢
    rw [← Nat.shiftRight_eq_div_pow, Nat.shiftRight_or_distrib, Nat.or_mod_two_pow, hzero, Nat.or_zero]
  unfold link
  rw [present_or, he, hsize, hframe, Bool.true_or]

/-- The address of a frame as a table or page address. -/
structure FrameAddr (a : Nat) : Prop where
  aligned : a % 4096 = 0
  lt : a < 2 ^ 48

/-- A frame address with the present bit is a link to the frame. -/
theorem link_frame {a : Nat} (h : FrameAddr a) :
    link (a ||| pagingFlagPresent) = some (a / 4096) := by
  have ha := h.aligned
  have hlt := h.lt
  refine link_eq_some.mpr ⟨?_, ?_, ?_⟩
  · rw [present_or]
    exact Bool.or_true _
  · rw [pageSize_or (by decide)]
    simp only [pageSize, decide_eq_false_iff_not]
    omega
  · rw [frameOf_or (by decide)]
    unfold frameOf
    omega

theorem or_lt {a b : Nat} (ha : a < 2 ^ 64) (hb : b < 64) : a ||| b < 2 ^ 64 :=
  Nat.or_lt_two_pow ha (by omega)

/-- The link to a new table with its attribute bits. -/
theorem link_frame_attributes {a flags : Nat} (h : FrameAddr a) (hflags : AttributeBits flags) :
    link (a ||| pagingFlagPresent ||| flags) = some (a / 4096) ∧
      a ||| pagingFlagPresent ||| flags < 2 ^ 64 := by
  have hlt := h.lt
  have hpres : present (a ||| pagingFlagPresent) = true := by
    rw [present_or]
    exact Bool.or_true _
  refine ⟨?_, Nat.or_lt_two_pow (or_lt (by omega) (by decide)) hflags.lt⟩
  rw [hflags.link_or hpres, link_frame h]

/-- The link to a new table with its flags. -/
theorem link_frame_flags {a flags : Nat} (h : FrameAddr a) (hflags : FlagsOk flags) :
    link (a ||| pagingFlagPresent ||| flags) = some (a / 4096) ∧
      a ||| pagingFlagPresent ||| flags < 2 ^ 64 :=
  link_frame_attributes h hflags.attributeBits

/-! ## Paths to tables -/

/-- The paths to tables behind the slots in `S`: up to three indices. -/
def slotPaths (S : Fin 512 → Prop) : PathSet (Fin 512) where
  mem p := p.length ≤ 3 ∧ ∀ i, p.head? = some i → S i
  nil_mem := by simp
  init_mem p i h := by
    obtain ⟨h1, h2⟩ := h
    refine ⟨by simp at h1; omega, ?_⟩
    cases p with
    | nil => simp
    | cons j p => simpa using h2

/-- The paths to tables that do not start in the window slot. -/
abbrev tablePaths : PathSet (Fin 512) := slotPaths (· ≠ 511)

/-- The table at the end of a path. -/
abbrev tableAt (m : Mem) (cr3 : Nat) (p : List (Fin 512)) : Option Nat :=
  Tables.descend link (tables m) (frameOf cr3) p

theorem tableAt_concat (m : Mem) (cr3 : Nat) (p : List (Fin 512)) (i : Fin 512) :
    tableAt m cr3 (p ++ [i]) = (tableAt m cr3 p).bind fun n => link (tables m n i) :=
  Tables.descend_concat p i

/-- Every table on the way to a table is there. -/
theorem tableAt_of_isPrefix {m : Mem} {cr3 n : Nat} {p q : List (Fin 512)} (hn : tableAt m cr3 p = some n)
    (hq : q <+: p) : ∃ k, tableAt m cr3 q = some k := by
  obtain ⟨r, rfl⟩ := hq
  rw [tableAt, Tables.descend_append, Option.bind_eq_some_iff] at hn
  obtain ⟨k, hk, -⟩ := hn
  exact ⟨k, hk⟩

/-- Frame `n` holds the PML4 or a table behind the slots in `S`. -/
def IsTableIn (S : Fin 512 → Prop) (m : Mem) (cr3 n : Nat) : Prop :=
  ∃ p, (slotPaths S).mem p ∧ tableAt m cr3 p = some n

/-- Frame `n` holds a table. -/
abbrev IsTable (m : Mem) (cr3 n : Nat) : Prop := IsTableIn (· ≠ 511) m cr3 n

/-- The tables in memory: slot 511 links to the PML4, the others form a tree. -/
structure PageTables (m : Mem) (cr3 : Nat) : Prop where
  selfMap : link (tables m (frameOf cr3) 511) = some (frameOf cr3)
  tree : Tables.IsTree link tablePaths (tables m) (frameOf cr3)

theorem isTable_root (S : Fin 512 → Prop) (m : Mem) (cr3 : Nat) :
    IsTableIn S m cr3 (frameOf cr3) := ⟨[], (slotPaths S).nil_mem, rfl⟩

/-! ## Tables and memory -/

theorem tables_lt (m : Mem) (n : Nat) (i : Fin 512) : tables m n i < 2 ^ 64 := Mem.load64_lt _ _

/-- A store of one entry is an edit of the tables. -/
theorem tables_store64 (m : Mem) (n : Nat) (i : Fin 512) {e : Nat} (he : e < 2 ^ 64) :
    tables (m.store64 (4096 * n + 8 * i) e) = (tables m).set n i e := by
  funext n' i'
  by_cases hc : n' = n ∧ i' = i
  · obtain ⟨rfl, rfl⟩ := hc
    rw [Tables.set_apply_self]
    exact Mem.load64_store64_same m _ he
  · have hi := i.isLt
    have hi' := i'.isLt
    have hne : n' ≠ n ∨ i'.val ≠ i.val := by
      by_contra h
      push Not at h
      exact hc ⟨h.1, Fin.ext h.2⟩
    rw [Tables.set_apply_of_ne (hne.imp id fun h h' => h (congrArg Fin.val h'))]
    exact Mem.load64_store64_disjoint (by omega)

/-- Equal rows are equal bytes. -/
theorem byte_eq_of_row_eq {m m' : Mem} {n : Nat} (h : tables m' n = tables m n) {x : Nat}
    (hx : x / 4096 = n) : m' x = m x := by
  have hrow := congrFun h ⟨x % 4096 / 8, by omega⟩
  refine Mem.byte_eq_of_loadLE_eq (a := 4096 * n + 8 * (x % 4096 / 8)) (n := 8) hrow ?_ ?_ <;> omega

/-- Equal bytes are equal rows. -/
theorem row_eq_of_bytes_eq {m m' : Mem} {n : Nat} (h : ∀ x, x / 4096 = n → m' x = m x) :
    tables m' n = tables m n := by
  funext i
  have hi := i.isLt
  exact Mem.loadLE_congr fun x _ _ => h x (by omega)

/-! ## Zeroing a table -/

/-- Memory after the first `k` entries of frame `f` have been zeroed. -/
def zeroSlots (m : Mem) (f : Nat) : Nat → Mem
  | 0 => m
  | k + 1 => (zeroSlots m f k).store64 (4096 * f + 8 * k) 0

theorem tables_zeroSlots (m : Mem) (f k : Nat) (hk : k ≤ 512) (n : Nat) (i : Fin 512) :
    tables (zeroSlots m f k) n i = if n = f ∧ i.val < k then 0 else tables m n i := by
  induction k with
  | zero => simp [zeroSlots]
  | succ k ih =>
    have hstore := tables_store64 (zeroSlots m f k) f ⟨k, by omega⟩ (e := 0) (by decide)
    rw [zeroSlots, hstore, Tables.set, ih (by omega)]
    by_cases hn : n = f
    · subst hn
      by_cases hi : i.val = k
      · have : i = ⟨k, by omega⟩ := Fin.ext hi
        simp [this]
      · have : i ≠ ⟨k, by omega⟩ := fun h => hi (congrArg Fin.val h)
        have hiff : i.val < k + 1 ↔ i.val < k := by omega
        simp only [this, and_false, if_false, true_and, hiff]
    · simp [hn]

end KoalemOS.Paging
