import Mathlib.Logic.Function.Basic
import Mathlib.Data.List.Basic

/-!
# Rows of stores

What a piece of code writes, as the list of its stores in order. The memory is the result of
running them, and the memory in the middle of the code is the result of running some of the
first.

- `run_other`: what no store addresses stays
- `run_eq_or`: an address holds what it held or what was stored there
- `run_eq_of_forall`: an address holds the value all stores to it agree on
- `grid`: the stores of two nested loops
-/

namespace KoalemOS.Library

/-- A store of one word. -/
structure Store (α : Type) where
  addr : Nat
  val : α

namespace Store

variable {α : Type} {m : Nat → α} {ss : List (Store α)} {a : Nat} {v : α}

/-- The memory after the stores. -/
def run (m : Nat → α) (ss : List (Store α)) : Nat → α :=
  ss.foldl (fun m s => Function.update m s.addr s.val) m

@[simp] theorem run_nil (m : Nat → α) : run m [] = m := rfl

@[simp] theorem run_cons (m : Nat → α) (s : Store α) (ss : List (Store α)) :
    run m (s :: ss) = run (Function.update m s.addr s.val) ss := rfl

@[simp] theorem run_append (m : Nat → α) (ss ss' : List (Store α)) :
    run m (ss ++ ss') = run (run m ss) ss' := List.foldl_append

/-- What no store addresses stays. -/
theorem run_other (h : ∀ s ∈ ss, s.addr ≠ a) : run m ss a = m a := by
  induction ss generalizing m with
  | nil => rfl
  | cons s ss ih =>
    have hne := h s List.mem_cons_self
    rw [run_cons, ih fun t ht => h t (List.mem_cons_of_mem s ht), Function.update_of_ne (Ne.symm hne)]

/-- An address holds what it held, or what some store has put there. -/
theorem run_eq_or (m : Nat → α) (ss : List (Store α)) (a : Nat) :
    run m ss a = m a ∨ ∃ s ∈ ss, s.addr = a ∧ run m ss a = s.val := by
  induction ss generalizing m with
  | nil => exact .inl rfl
  | cons s ss ih =>
    rw [run_cons]
    rcases ih (Function.update m s.addr s.val) with hsame | ⟨t, ht, hta, hval⟩
    · by_cases hs : s.addr = a
      · refine .inr ⟨s, List.mem_cons_self, hs, ?_⟩
        rw [hsame, ← hs, Function.update_self]
      · rw [hsame, Function.update_of_ne (Ne.symm hs)]
        exact .inl rfl
    · exact .inr ⟨t, List.mem_cons_of_mem s ht, hta, hval⟩

/-- An address that holds a value, and to which nothing else is stored, holds it after. -/
theorem run_eq_of_eq (hval : ∀ s ∈ ss, s.addr = a → s.val = v) (h : m a = v) : run m ss a = v := by
  induction ss generalizing m with
  | nil => exact h
  | cons s ss ih =>
    rw [run_cons]
    refine ih (fun t ht => hval t (List.mem_cons_of_mem s ht)) ?_
    by_cases hs : s.addr = a
    · rw [← hs, Function.update_self]
      exact hval s List.mem_cons_self hs
    · rw [Function.update_of_ne (Ne.symm hs), h]

/-- An address to which something is stored, and always the same, holds it after. -/
theorem run_eq_of_forall (hmem : ∃ s ∈ ss, s.addr = a) (hval : ∀ s ∈ ss, s.addr = a → s.val = v) :
    run m ss a = v := by
  induction ss generalizing m with
  | nil =>
    obtain ⟨s, hs, -⟩ := hmem
    cases hs
  | cons s ss ih =>
    have htail := fun t ht => hval t (List.mem_cons_of_mem s ht)
    rw [run_cons]
    by_cases hs : s.addr = a
    · refine run_eq_of_eq htail ?_
      rw [← hs, Function.update_self]
      exact hval s List.mem_cons_self hs
    · obtain ⟨t, ht, hta⟩ := hmem
      rcases List.mem_cons.mp ht with rfl | ht
      · exact absurd hta hs
      · exact ih ⟨t, ht, hta⟩ htail

/-! ## Nested loops -/

/-- `for(y = 0; y < rows; y++) for(x = 0; x < width; x++) f(x, y)`. -/
def grid (rows width : Nat) (f : Nat → Nat → Store α) : List (Store α) :=
  (List.range rows).flatMap fun y => (List.range width).map fun x => f x y

theorem mem_grid {rows width : Nat} {f : Nat → Nat → Store α} {s : Store α} :
    s ∈ grid rows width f ↔ ∃ x < width, ∃ y < rows, s = f x y := by
  unfold grid
  constructor
  · intro h
    obtain ⟨y, hy, h⟩ := List.mem_flatMap.mp h
    obtain ⟨x, hx, rfl⟩ := List.mem_map.mp h
    exact ⟨x, List.mem_range.mp hx, y, List.mem_range.mp hy, rfl⟩
  · rintro ⟨x, hx, y, hy, rfl⟩
    exact List.mem_flatMap.mpr ⟨y, List.mem_range.mpr hy, List.mem_map.mpr ⟨x, List.mem_range.mpr hx, rfl⟩⟩

end Store

end KoalemOS.Library
