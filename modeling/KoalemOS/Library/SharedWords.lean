import Mathlib.Logic.Function.Basic

/-!
# Shared words that all writers agree on

Any number of processors write to the words of a shared memory, and whoever writes a word writes
the same value to it. A processor of rank `r` has written all words that are due by `r`, so these
words hold their values from then on, whatever the others do.

- `Patches`: what a step of a processor does to the words
- `written_step`: every processor finds what it has written
-/

namespace KoalemOS.Library

/-- Words of a memory, the value that belongs into each of them, and the rank from which on a processor
has written it. -/
structure SharedWords (σ ι α : Type) where
  read : σ → ι → α
  right : ι → α
  due : ι → Nat

namespace SharedWords

variable {σ ι α P : Type} {S : SharedWords σ ι α} {m m' : σ} {r q : Nat}

/-- A step of a processor at rank `r`: a word stays or gets its value, and the words that are due
at the next rank get theirs. -/
structure Patches (S : SharedWords σ ι α) (r : Nat) (m m' : σ) : Prop where
  keeps : ∀ w, S.read m' w = S.read m w ∨ S.read m' w = S.right w
  writes : ∀ w, S.due w = r + 1 → S.read m' w = S.right w

/-- All words that are due by rank `r` hold their values. -/
def Written (S : SharedWords σ ι α) (r : Nat) (m : σ) : Prop := ∀ w, S.due w ≤ r → S.read m w = S.right w

/-- A step that writes no word. -/
theorem Patches.same (hdue : ∀ w, S.due w ≠ r + 1) (hread : ∀ w, S.read m' w = S.read m w) :
    S.Patches r m m' :=
  ⟨fun w => .inl (hread w), fun w hw => absurd hw (hdue w)⟩

/-- A step that writes one word. -/
theorem Patches.one [DecidableEq ι] (v : ι) (hdue : ∀ w, S.due w = r + 1 → w = v)
    (hself : S.read m' v = S.right v) (hread : ∀ w, w ≠ v → S.read m' w = S.read m w) : S.Patches r m m' where
  keeps w := by
    by_cases hw : w = v
    · subst hw
      exact .inr hself
    · exact .inl (hread w hw)
  writes w hw := by
    obtain rfl := hdue w hw
    exact hself

/-- What has its value or another one has it or that one after. -/
theorem Patches.right_or (h : S.Patches r m m') {w : ι} {p : α → Prop}
    (hw : S.read m w = S.right w ∨ p (S.read m w)) : S.read m' w = S.right w ∨ p (S.read m' w) := by
  rcases h.keeps w with heq | heq
  · rwa [heq]
  · exact .inl heq

/-- What is written stays. -/
theorem Written.patches (h : S.Written q m) (hp : S.Patches r m m') : S.Written q m' := by
  intro w hw
  rcases hp.keeps w with heq | heq
  · exact heq.trans (h w hw)
  · exact heq

/-- A processor has written what is due at its next rank. -/
theorem Written.next (h : S.Written r m) (hp : S.Patches r m m') : S.Written (r + 1) m' := by
  intro w hw
  rcases Nat.lt_or_eq_of_le hw with hlt | heq
  · exact h.patches hp w (Nat.le_of_lt_succ hlt)
  · exact hp.writes w heq

/-- Every processor finds what it has written, after a step of any of them. -/
theorem written_step [DecidableEq P] {rank rank' : P → Nat} {p : P} (h : ∀ q, S.Written (rank q) m)
    (hp : S.Patches (rank p) m m') (hself : rank' p = rank p + 1) (hother : ∀ q, q ≠ p → rank' q = rank q)
    (q : P) : S.Written (rank' q) m' := by
  by_cases hq : q = p
  · subst hq
    rw [hself]
    exact (h q).next hp
  · rw [hother q hq]
    exact (h q).patches hp

end SharedWords

end KoalemOS.Library
