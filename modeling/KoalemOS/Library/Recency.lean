import Mathlib.Algebra.Order.Ring.Int
import Mathlib.Data.List.Basic
import Mathlib.Tactic.Common

/-!
# Replacing the least recently used

A table of slots, the list of the slots that were used, newest first, and the slot to replace:
one that was never used, or else the one whose last use is the oldest
(`LeastRecentlyUsed`). It is the slot with the least `lastUse`, the number of its last use
counted from 1 (`leastRecentlyUsed_iff`).

An implementation stamps a slot with the number of its last use and looks for the least stamp
(`leastBelow`). Stamps that are cut off to a signed word compare like the numbers within one
window of the numbers (`toInt_lt_toInt_iff`).
-/

namespace KoalemOS.Library

/-! ## The history of a table -/

/-- The number of the last use of a slot, 0 if there is none. -/
def lastUse (uses : List Nat) (i : Nat) : Nat := uses.length - uses.idxOf i

/-- Slot `v` of the first `n` was never used, or all were used and the last use of `v` is the
oldest. -/
def LeastRecentlyUsed (n : Nat) (uses : List Nat) (v : Nat) : Prop :=
  v ∉ uses ∨ (∀ i < n, i ∈ uses) ∧ ∀ i < n, uses.idxOf i ≤ uses.idxOf v

variable {n i v : Nat} {uses : List Nat}

theorem lastUse_le (uses : List Nat) (i : Nat) : lastUse uses i ≤ uses.length := Nat.sub_le _ _

theorem lastUse_eq_zero : lastUse uses i = 0 ↔ i ∉ uses := by
  rw [lastUse, ← List.idxOf_lt_length_iff]
  omega

/-- A use is the last of its slot and leaves the other slots alone. -/
theorem lastUse_cons (uses : List Nat) (v i : Nat) :
    lastUse (v :: uses) i = if i = v then uses.length + 1 else lastUse uses i := by
  unfold lastUse
  split_ifs with h
  · subst h
    rw [List.idxOf_cons_self, List.length_cons, Nat.sub_zero]
  · rw [List.idxOf_cons_ne _ (Ne.symm h), List.length_cons, Nat.succ_sub_succ]

/-- The least recently used is the slot with the least number. -/
theorem leastRecentlyUsed_iff :
    LeastRecentlyUsed n uses v ↔ ∀ i < n, lastUse uses v ≤ lastUse uses i := by
  constructor
  · rintro (hnever | ⟨-, hold⟩) i hi
    · rw [lastUse_eq_zero.mpr hnever]
      exact Nat.zero_le _
    · exact Nat.sub_le_sub_left (hold i hi) _
  · intro h
    by_cases hused : v ∈ uses
    · have hpos : 0 < lastUse uses v := Nat.pos_of_ne_zero fun hz => lastUse_eq_zero.mp hz hused
      have hall : ∀ i < n, i ∈ uses := by
        intro i hi
        by_contra hno
        have := h i hi
        rw [lastUse_eq_zero.mpr hno] at this
        omega
      refine .inr ⟨hall, fun i hi => ?_⟩
      have hle := h i hi
      have hlt := List.idxOf_lt_length_of_mem (hall i hi)
      unfold lastUse at hle
      omega
    · exact .inl hused

/-! ## The least stamp -/

section Least

variable {α : Type} [LinearOrder α]

/-- `for(; k > 0; k--, i++) if(key(i) < bound) { best = i; bound = key(i); }` -/
def leastBelow (key : Nat → α) (i best : Nat) (bound : α) : Nat → Nat
  | 0 => best
  | k + 1 =>
    if key i < bound then leastBelow key (i + 1) i (key i) k else leastBelow key (i + 1) best bound k

/-- The slot found has a key below the bound and no larger than the others, or no key is below
the bound. -/
theorem leastBelow_spec (key : Nat → α) (i best : Nat) (bound : α) (k : Nat) :
    (∃ v, leastBelow key i best bound k = v ∧ i ≤ v ∧ v < i + k ∧ key v < bound ∧
      ∀ j, i ≤ j → j < i + k → key v ≤ key j) ∨
    leastBelow key i best bound k = best ∧ ∀ j, i ≤ j → j < i + k → bound ≤ key j := by
  induction k generalizing i best bound with
  | zero => exact .inr ⟨rfl, fun j h₁ h₂ => by omega⟩
  | succ k ih =>
    rw [leastBelow]
    by_cases hlt : key i < bound
    · rw [if_pos hlt]
      left
      rcases ih (i + 1) i (key i) with ⟨v, hv, h₁, h₂, hkey, hall⟩ | ⟨hv, hall⟩
      · refine ⟨v, hv, by omega, by omega, hkey.trans hlt, fun j hj hj' => ?_⟩
        rcases Nat.eq_or_lt_of_le hj with rfl | hj
        · exact hkey.le
        · exact hall j hj (by omega)
      · refine ⟨i, hv, Nat.le_refl i, by omega, hlt, fun j hj hj' => ?_⟩
        rcases Nat.eq_or_lt_of_le hj with rfl | hj
        · exact le_rfl
        · exact hall j hj (by omega)
    · rw [if_neg hlt]
      have hge := not_lt.mp hlt
      rcases ih (i + 1) best bound with ⟨v, hv, h₁, h₂, hkey, hall⟩ | ⟨hv, hall⟩
      · refine .inl ⟨v, hv, by omega, by omega, hkey, fun j hj hj' => ?_⟩
        rcases Nat.eq_or_lt_of_le hj with rfl | hj
        · exact hkey.le.trans hge
        · exact hall j hj (by omega)
      · refine .inr ⟨hv, fun j hj hj' => ?_⟩
        rcases Nat.eq_or_lt_of_le hj with rfl | hj
        · exact hge
        · exact hall j hj (by omega)

/-- A first key that is below the bound and no larger than the others. -/
theorem leastBelow_head {key : Nat → α} {i : Nat} {bound : α} (best k : Nat) (h : key i < bound)
    (hall : ∀ j, key i ≤ key j) : leastBelow key i best bound (k + 1) = i := by
  rw [leastBelow, if_pos h]
  rcases leastBelow_spec key (i + 1) i (key i) k with ⟨v, -, -, -, hlt, -⟩ | ⟨hv, -⟩
  · exact absurd (hall v) (not_le.mpr hlt)
  · exact hv

/-- Keys of which none is below the bound. -/
theorem leastBelow_of_le {key : Nat → α} {bound : α} (h : ∀ j, bound ≤ key j) (i best k : Nat) :
    leastBelow key i best bound k = best := by
  rcases leastBelow_spec key i best bound k with ⟨v, -, -, -, hlt, -⟩ | ⟨hv, -⟩
  · exact absurd (h v) (not_le.mpr hlt)
  · exact hv

end Least

/-! ## Stamps in a signed word -/

/-- The numbers whose cut-off values lie one after the other: from an odd multiple of `2 ^ 31`
up to the next. -/
def window (x : Nat) : Nat := (x + 2 ^ 31) / 2 ^ 32

/-- Numbers of one window compare like the signed words they are cut off to. -/
theorem toInt_lt_toInt_iff {x y : Nat} (h : window x = window y) :
    (BitVec.ofNat 32 x).toInt < (BitVec.ofNat 32 y).toInt ↔ x < y := by
  have hword : ∀ z : Nat, (BitVec.ofNat 32 z).toInt = (z : Int) - 2 ^ 32 * window z := by
    intro z
    rw [BitVec.toInt_ofNat', Int.bmod_def, window]
    split_ifs <;> omega
  rw [hword, hword, h]
  omega

end KoalemOS.Library
