import KoalemOS.Paging.LeafEdits
import KoalemOS.Paging.WindowStores

/-!
# What the hardware makes of an address

The entries of a walk give an address its physical address and its attributes (`view`):
reading and writing and the user mode are allowed when every entry allows it, execution is
disabled when one entry disables it, and the leaf entry has the caching bits. Only the
entries on the way of the address count (`mem_trail_iff`, `view_congr`).
-/

namespace KoalemOS.Paging

open KoalemOS.Library

/-! ## Attribute bits (`include/common/paging.h`) -/

/-- Bit 2 of an entry. -/
def userSupervisor (e : Nat) : Bool := e / 4 % 2 = 1

/-- Bit 3 of an entry. -/
def writeThrough (e : Nat) : Bool := e / 8 % 2 = 1

/-- Bit 4 of an entry. -/
def cacheDisable (e : Nat) : Bool := e / 16 % 2 = 1

/-- Bit 63 of an entry. -/
def executeDisable (e : Nat) : Bool := e / 2 ^ 63 % 2 = 1

theorem userSupervisor_or (a b : Nat) : userSupervisor (a ||| b) = (userSupervisor a || userSupervisor b) := by
  have hbit : ∀ e, userSupervisor e = e.testBit 2 := fun e =>
    (Nat.testBit_eq_decide_div_mod_eq (x := e) (i := 2)).symm
  rw [hbit, hbit, hbit, Nat.testBit_or]

theorem executeDisable_or (a b : Nat) : executeDisable (a ||| b) = (executeDisable a || executeDisable b) := by
  have hbit : ∀ e, executeDisable e = e.testBit 63 := fun e =>
    (Nat.testBit_eq_decide_div_mod_eq (x := e) (i := 63)).symm
  rw [hbit, hbit, hbit, Nat.testBit_or]

/-- The attributes of a mapping. -/
structure Attributes where
  readWrite : Bool
  userSupervisor : Bool
  writeThrough : Bool
  cacheDisable : Bool
  executeDisable : Bool
  deriving DecidableEq

/-- The attributes that the entries of a walk, the last being the leaf entry, give. -/
def attributes (es : List Nat) (leaf : Nat) : Attributes where
  readWrite := es.all readWrite
  userSupervisor := es.all userSupervisor
  writeThrough := writeThrough leaf
  cacheDisable := cacheDisable leaf
  executeDisable := es.any executeDisable

/-- The physical address and the attributes of a virtual address. -/
def view (m : Mem) (cr3 v : Nat) : Option (Nat × Attributes) :=
  (walk m cr3 v).map fun leaf => (leafAddr leaf v, attributes (trail m cr3 v) leaf.1)

/-- A view extends the translation. -/
theorem view_translate (m : Mem) (cr3 v : Nat) : (view m cr3 v).map Prod.fst = translate m cr3 v := by
  unfold view translate
  cases walk m cr3 v <;> rfl

/-! ## The entries on the way of an address -/

section Trails

variable {m m' : Mem} {cr3 cr3' v w x n shift : Nat} {p q : List (Fin 512)} {i j : Fin 512}

theorem mem_trail_iff :
    x ∈ trail m cr3 w ↔ ∃ q j, q ++ [j] <+: indices w ∧ entries m cr3 q j = some x :=
  Tables.mem_trail

theorem length_of_isPrefix (h : q ++ [j] <+: indices w) : q.length ≤ 3 := by
  have hlen := h.length_le
  rw [List.length_append, List.length_singleton] at hlen
  have hfour : (indices w).length = 4 := rfl
  omega

/-- The tables on the way of an address outside the window slot. -/
theorem mem_of_prefix_indices (hw : index w 39 ≠ 511) (h : q ++ [j] <+: indices w) : tablePaths.mem q := by
  refine ⟨length_of_isPrefix h, fun k hk => ?_⟩
  cases q with
  | nil => cases hk
  | cons a q =>
    rw [List.cons_append, indices] at h
    obtain ⟨rfl, -⟩ := List.cons_prefix_cons.mp h
    rw [← Option.some.inj hk]
    exact hw

/-- The upper entries are those on the way before the last level. -/
theorem upperOf_iff_isPrefix : UpperOf v q j ↔ q ++ [j] <+: indices v ∧ q.length ≤ 2 := by
  constructor
  · rintro (_ | _ | _)
    · exact ⟨⟨[index v 30, index v 21, index v 12], rfl⟩, by decide⟩
    · exact ⟨⟨[index v 21, index v 12], rfl⟩, by simp⟩
    · exact ⟨⟨[index v 12], rfl⟩, by simp⟩
  · rintro ⟨hpre, hlen⟩
    match q, hlen, hpre with
    | [], _, hpre =>
      obtain ⟨rfl, -⟩ := List.cons_prefix_cons.mp hpre
      exact .pml4
    | [a], _, hpre =>
      simp only [indices, List.cons_append, List.nil_append, List.cons_prefix_cons] at hpre
      obtain ⟨rfl, rfl, -⟩ := hpre
      exact .pdpt
    | [a, b], _, hpre =>
      simp only [indices, List.cons_append, List.nil_append, List.cons_prefix_cons] at hpre
      obtain ⟨rfl, rfl, rfl, -⟩ := hpre
      exact .pd
    | a :: b :: c :: r, hlen, _ =>
      simp only [List.length_cons] at hlen
      omega

/-- Where entries on the way agree on a bit, the trails agree on it. -/
theorem trail_bit_congr {f : Nat → Bool} {b : Bool} (h : ∀ q j, q ++ [j] <+: indices w →
      (entries m' cr3' q j).map f = (entries m cr3 q j).map f) (hx : ∃ x ∈ trail m cr3 w, f x = b) :
    ∃ x ∈ trail m' cr3' w, f x = b := by
  obtain ⟨x, hx, rfl⟩ := hx
  obtain ⟨q, j, hq, he⟩ := mem_trail_iff.mp hx
  have hmap := h q j hq
  rw [he, Option.map_some, Option.map_eq_some_iff] at hmap
  obtain ⟨y, he', hy⟩ := hmap
  exact ⟨y, mem_trail_iff.mpr ⟨q, j, hq, he'⟩, hy⟩

theorem trail_all_congr {f : Nat → Bool} (h : ∀ q j, q ++ [j] <+: indices w →
    (entries m' cr3' q j).map f = (entries m cr3 q j).map f) :
    (trail m' cr3' w).all f = (trail m cr3 w).all f := by
  rw [← Bool.not_inj_iff, Bool.eq_iff_iff, Bool.not_eq_true', Bool.not_eq_true', List.all_eq_false,
    List.all_eq_false]
  simp only [Bool.not_eq_true]
  exact ⟨trail_bit_congr fun q j hq => (h q j hq).symm, trail_bit_congr h⟩

theorem trail_any_congr {f : Nat → Bool} (h : ∀ q j, q ++ [j] <+: indices w →
    (entries m' cr3' q j).map f = (entries m cr3 q j).map f) :
    (trail m' cr3' w).any f = (trail m cr3 w).any f := by
  rw [Bool.eq_iff_iff, List.any_eq_true, List.any_eq_true]
  exact ⟨trail_bit_congr fun q j hq => (h q j hq).symm, trail_bit_congr h⟩

/-- Equal walks whose entries on the way have equal attribute bits give equal views. -/
theorem view_congr (hwalk : walk m' cr3' w = walk m cr3 w)
    (hent : ∀ f, f = readWrite ∨ f = userSupervisor ∨ f = executeDisable → ∀ q j, q ++ [j] <+: indices w →
      (entries m' cr3' q j).map f = (entries m cr3 q j).map f) : view m' cr3' w = view m cr3 w := by
  unfold view attributes
  rw [hwalk, trail_all_congr (hent readWrite (.inl rfl)), trail_all_congr (hent userSupervisor (.inr (.inl rfl))),
    trail_any_congr (hent executeDisable (.inr (.inr rfl)))]

end Trails

end KoalemOS.Paging
