import Mathlib.Logic.Basic
import Mathlib.Tactic.Common

/-!
# Stateful computations that may stop

`Outcome ε σ α` is a computation on a state of type `σ` that returns an `α` or
stops for a reason of type `ε`; the state reached is kept in both cases, so that
a property of a trace can speak about runs that stop early.

- `Returns m s a s'`: from `s`, the computation returns `a` in state `s'`
- `Returns.bind`, `Stops.bind`, `returns_loop`: the rules for sequencing and for
  counted loops
- `wp E m Q s`: from `s`, `m` returns with `Q` or stops for a reason in `E`; its rules run a
  computation step by step
- `ends Q X m s`: from `s`, `m` returns with `Q` or stops in a state with `X`
- `Keeps I m`: what holds before `m` holds after it, however it ends
- `focus`: a computation on a part of the state
-/

namespace KoalemOS.Library

/-- A computation on states `σ` that returns an `α` or stops with an `ε`. -/
def Outcome (ε σ α : Type) : Type := σ → Except ε α × σ

namespace Outcome

variable {ε σ α β : Type}

/-! ## Operations -/

/-- Return a value. -/
def ret (a : α) : Outcome ε σ α := fun s => (.ok a, s)

/-- Run `m`, then `f` on its result; stop where `m` stops. -/
def seq (m : Outcome ε σ α) (f : α → Outcome ε σ β) : Outcome ε σ β := fun s =>
  match m s with
  | (.ok a, s') => f a s'
  | (.error e, s') => (.error e, s')

instance : Monad (Outcome ε σ) where
  pure := ret
  bind := seq

/-- Stop with a reason. -/
def stop (e : ε) : Outcome ε σ α := fun s => (.error e, s)

/-- Read a part of the state. -/
def gets (f : σ → α) : Outcome ε σ α := fun s => (.ok (f s), s)

/-- Change the state. -/
def modify (f : σ → σ) : Outcome ε σ Unit := fun s => (.ok (), f s)

/-- `for(i = start; i < start + count; i++) body(i)`. -/
def loop (start : Nat) : Nat → (Nat → Outcome ε σ Unit) → Outcome ε σ Unit
  | 0, _ => ret ()
  | count + 1, body => seq (body start) fun _ => loop (start + 1) count body

/-! ## Deterministic runs -/

/-- From `s`, the computation returns `a` in state `s'`. -/
def Returns (m : Outcome ε σ α) (s : σ) (a : α) (s' : σ) : Prop := m s = (.ok a, s')

/-- From `s`, the computation stops in state `s'`. -/
def Stops (m : Outcome ε σ α) (s : σ) (e : ε) (s' : σ) : Prop := m s = (.error e, s')

/-- The state a computation ends in. -/
def after (m : Outcome ε σ α) (s : σ) : σ := (m s).2

theorem Returns.det {m : Outcome ε σ α} {s s₁ s₂ : σ} {a₁ a₂ : α}
    (h₁ : m.Returns s a₁ s₁) (h₂ : m.Returns s a₂ s₂) : a₁ = a₂ ∧ s₁ = s₂ := by
  unfold Returns at h₁ h₂
  rw [h₁] at h₂
  simpa using h₂

theorem Returns.after_eq {m : Outcome ε σ α} {s s' : σ} {a : α} (h : m.Returns s a s') :
    m.after s = s' := by
  unfold Returns at h
  rw [after, h]

theorem Returns.not_stops {m : Outcome ε σ α} {s s₁ s₂ : σ} {a : α} {e : ε}
    (h₁ : m.Returns s a s₁) (h₂ : m.Stops s e s₂) : False := by
  unfold Returns at h₁
  unfold Stops at h₂
  rw [h₁] at h₂
  simp at h₂

theorem returns_pure (a : α) (s : σ) : Returns (pure a : Outcome ε σ α) s a s := rfl

theorem returns_gets (f : σ → α) (s : σ) : Returns (gets f : Outcome ε σ α) s (f s) s := rfl

theorem returns_modify (f : σ → σ) (s : σ) : Returns (modify f : Outcome ε σ Unit) s () (f s) := rfl

theorem stops_stop (e : ε) (s : σ) : Stops (stop e : Outcome ε σ α) s e s := rfl

/-- Sequencing of runs. -/
theorem Returns.bind {m : Outcome ε σ α} {f : α → Outcome ε σ β} {s s' s'' : σ} {a : α} {b : β}
    (hm : m.Returns s a s') (hf : (f a).Returns s' b s'') : (m >>= f).Returns s b s'' := by
  show seq m f s = _
  unfold Returns at hm
  unfold seq
  rw [hm]
  exact hf

/-- A returning sequence splits into its two returning parts. -/
theorem returns_bind_iff {m : Outcome ε σ α} {f : α → Outcome ε σ β} {s s'' : σ} {b : β} :
    (m >>= f).Returns s b s'' ↔ ∃ a s', m.Returns s a s' ∧ (f a).Returns s' b s'' := by
  constructor
  · intro h
    change seq m f s = _ at h
    unfold seq at h
    cases hm : m s with
    | mk r s' =>
      rw [hm] at h
      cases r with
      | ok a => exact ⟨a, s', hm, h⟩
      | error e => simp at h
  · rintro ⟨a, s', hm, hf⟩
    exact hm.bind hf

/-- A sequence whose first part returns behaves as its second part. -/
theorem Returns.bind_eq {m : Outcome ε σ α} {f : α → Outcome ε σ β} {s s' : σ} {a : α}
    (hm : m.Returns s a s') : (m >>= f) s = f a s' := by
  show seq m f s = _
  unfold Returns at hm
  unfold seq
  rw [hm]

/-- A sequence whose first part stops, stops there. -/
theorem Stops.bind {m : Outcome ε σ α} {f : α → Outcome ε σ β} {s s' : σ} {e : ε}
    (hm : m.Stops s e s') : (m >>= f).Stops s e s' := by
  show seq m f s = _
  unfold Stops at hm
  unfold seq
  rw [hm]

/-- A sequence stops in its first part, or in its second part after the first has returned. -/
theorem stops_bind_iff {m : Outcome ε σ α} {f : α → Outcome ε σ β} {s s'' : σ} {e : ε} :
    (m >>= f).Stops s e s'' ↔
      m.Stops s e s'' ∨ ∃ a s', m.Returns s a s' ∧ (f a).Stops s' e s'' := by
  constructor
  · intro h
    change seq m f s = _ at h
    unfold seq at h
    cases hm : m s with
    | mk r s' =>
      rw [hm] at h
      cases r with
      | ok a => exact .inr ⟨a, s', hm, h⟩
      | error e' =>
        refine .inl ?_
        simp only [Prod.mk.injEq, Except.error.injEq] at h
        obtain ⟨rfl, rfl⟩ := h
        exact hm
  · rintro (hm | ⟨a, s', hm, hf⟩)
    · exact hm.bind
    · exact (hm.bind_eq (f := f)).trans hf

/-- A sequence whose first part returns stops where its second part does. -/
theorem Returns.bind_stops {m : Outcome ε σ α} {f : α → Outcome ε σ β} {s s' s'' : σ} {a : α} {e : ε}
    (hm : m.Returns s a s') (hf : (f a).Stops s' e s'') : (m >>= f).Stops s e s'' :=
  stops_bind_iff.mpr (.inr ⟨a, s', hm, hf⟩)

/-- Returning another value changes nothing. -/
theorem after_bind_pure (m : Outcome ε σ α) (g : α → β) (s : σ) : (m >>= fun a => pure (g a)).after s = m.after s := by
  show (seq m (fun a => ret (g a)) s).2 = _
  unfold seq after
  cases m s with
  | mk r t =>
    cases r with
    | ok a => rfl
    | error e => rfl

theorem loop_zero (start : Nat) (body : Nat → Outcome ε σ Unit) :
    loop start 0 body = pure () := rfl

theorem loop_succ (start count : Nat) (body : Nat → Outcome ε σ Unit) :
    loop start (count + 1) body = (body start >>= fun _ => loop (start + 1) count body) := rfl

/-- A counted loop whose every iteration `i` takes `S i` to `S (i + 1)` takes the
first of these states to the last. -/
theorem returns_loop {body : Nat → Outcome ε σ Unit} (S : Nat → σ) (start count : Nat)
    (h : ∀ i, start ≤ i → i < start + count → (body i).Returns (S i) () (S (i + 1))) :
    (loop start count body).Returns (S start) () (S (start + count)) := by
  induction count generalizing start with
  | zero => exact returns_pure () _
  | succ count ih =>
    rw [loop_succ]
    refine (h start (Nat.le_refl _) (by omega)).bind ?_
    have := ih (start + 1) fun i h1 h2 => h i (by omega) (by omega)
    rwa [show start + 1 + count = start + (count + 1) by omega] at this

/-- A computation returns or stops. -/
theorem returns_or_stops (m : Outcome ε σ α) (s : σ) : (∃ a t, m.Returns s a t) ∨ ∃ e t, m.Stops s e t := by
  cases hm : m s with
  | mk r t =>
    cases r with
    | ok a => exact .inl ⟨a, t, hm⟩
    | error e => exact .inr ⟨e, t, hm⟩

/-! ## Computations that never stop -/

/-- The computation returns from every state. -/
def NeverStops (m : Outcome ε σ α) : Prop := ∀ s e s', ¬m.Stops s e s'

theorem neverStops_pure (a : α) : NeverStops (pure a : Outcome ε σ α) :=
  fun s _ _ hs => (returns_pure a s).not_stops hs

theorem neverStops_gets (f : σ → α) : NeverStops (gets f : Outcome ε σ α) :=
  fun s _ _ hs => (returns_gets f s).not_stops hs

theorem neverStops_modify (f : σ → σ) : NeverStops (modify f : Outcome ε σ Unit) :=
  fun s _ _ hs => (returns_modify f s).not_stops hs

theorem NeverStops.bind {m : Outcome ε σ α} {f : α → Outcome ε σ β} (hm : m.NeverStops)
    (hf : ∀ a, (f a).NeverStops) : (m >>= f).NeverStops := by
  intro s e s' hs
  rcases stops_bind_iff.mp hs with hs | ⟨a, t, -, hs⟩
  · exact hm s e s' hs
  · exact hf a t e s' hs

theorem NeverStops.loop {body : Nat → Outcome ε σ Unit} (h : ∀ i, (body i).NeverStops)
    (start count : Nat) : (loop start count body).NeverStops := by
  induction count generalizing start with
  | zero => exact neverStops_pure ()
  | succ count ih => exact (h start).bind fun _ => ih (start + 1)

/-! ## Weakest preconditions -/

/-- From `s`, the computation returns with `Q` or stops for a reason in `E`. -/
def wp (E : ε → Prop) (m : Outcome ε σ α) (Q : α → σ → Prop) (s : σ) : Prop :=
  match m s with
  | (.ok a, s') => Q a s'
  | (.error e, _) => E e

section Wp

variable {E : ε → Prop} {m : Outcome ε σ α} {f : α → Outcome ε σ β} {Q Q' : α → σ → Prop}
  {R : β → σ → Prop} {s s' : σ} {a : α}

theorem wp_of_returns (hm : m.Returns s a s') (hQ : Q a s') : wp E m Q s := by
  unfold Returns at hm
  unfold wp
  rwa [hm]

theorem wp_of_stops {e : ε} (hm : m.Stops s e s') (he : E e) : wp E m Q s := by
  unfold Stops at hm
  unfold wp
  rwa [hm]

/-- What holds of every return holds of this one. -/
theorem Returns.of_wp (hm : m.Returns s a s') (h : wp E m Q s) : Q a s' := by
  unfold Returns at hm
  unfold wp at h
  rwa [hm] at h

theorem Stops.of_wp {e : ε} (hm : m.Stops s e s') (h : wp E m Q s) : E e := by
  unfold Stops at hm
  unfold wp at h
  rwa [hm] at h

/-- A computation that does not stop for the reasons in `E` returns. -/
theorem returns_of_wp (h : wp E m Q s) (hE : ∀ e s', m.Stops s e s' → ¬E e) :
    ∃ a s', m.Returns s a s' ∧ Q a s' := by
  unfold wp at h
  cases hm : m s with
  | mk r s' =>
    rw [hm] at h
    cases r with
    | ok a => exact ⟨a, s', hm, h⟩
    | error e => exact absurd h (hE e s' hm)

theorem wp_mono (h : wp E m Q s) (hQ : ∀ a s', Q a s' → Q' a s') : wp E m Q' s := by
  unfold wp at h ⊢
  split at h
  · exact hQ _ _ h
  · exact h

/-- More reasons to stop. -/
theorem wp_weaken {E' : ε → Prop} (h : wp E m Q s) (hE : ∀ e, E e → E' e) : wp E' m Q s := by
  unfold wp at h ⊢
  split at h
  · exact h
  · exact hE _ h

/-- Sequencing. -/
theorem wp_bind (h : wp E m (fun a => wp E (f a) R) s) : wp E (m >>= f) R s := by
  show wp E (seq m f) R s
  unfold wp at h
  unfold wp seq
  cases hm : m s with
  | mk r s' =>
    rw [hm] at h
    cases r with
    | ok a => exact h
    | error e => exact h

/-- Sequencing after a part whose return is known. -/
theorem wp_bind_returns (hm : m.Returns s a s') (h : wp E (f a) R s') : wp E (m >>= f) R s :=
  wp_bind (wp_of_returns hm h)

theorem wp_ite {c : Prop} [Decidable c] {m₁ m₂ : Outcome ε σ α} (h₁ : c → wp E m₁ Q s)
    (h₂ : ¬c → wp E m₂ Q s) : wp E (if c then m₁ else m₂) Q s := by
  by_cases hc : c
  · rw [if_pos hc]
    exact h₁ hc
  · rw [if_neg hc]
    exact h₂ hc

/-- A counted loop keeps the invariant its iterations keep. -/
theorem wp_loop {body : Nat → Outcome ε σ Unit} (I : Nat → σ → Prop) (start count : Nat)
    (h : ∀ i t, start ≤ i → i < start + count → I i t → wp E (body i) (fun _ => I (i + 1)) t)
    (hs : I start s) : wp E (loop start count body) (fun _ => I (start + count)) s := by
  induction count generalizing start s with
  | zero => exact wp_of_returns (returns_pure () s) hs
  | succ count ih =>
    rw [loop_succ]
    refine wp_bind (wp_mono (h start s (Nat.le_refl _) (by omega) hs) fun _ t ht => ?_)
    have := ih (start + 1) (fun i u h1 h2 => h i u (by omega) (by omega)) ht
    rwa [show start + 1 + count = start + (count + 1) by omega] at this

end Wp

attribute [irreducible] wp

/-! ## Both ends of a computation -/

/-- From `s`, the computation returns with `Q` or stops in a state with `X`. -/
def ends (Q : α → σ → Prop) (X : σ → Prop) (m : Outcome ε σ α) (s : σ) : Prop :=
  match m s with
  | (.ok a, s') => Q a s'
  | (.error _, s') => X s'

section Ends

variable {m : Outcome ε σ α} {f : α → Outcome ε σ β} {Q Q' : α → σ → Prop} {R : β → σ → Prop}
  {X : σ → Prop} {s s' : σ} {a : α}

/-- What a return satisfies. -/
theorem Returns.of_ends (hm : m.Returns s a s') (h : ends Q X m s) : Q a s' := by
  unfold Returns at hm
  unfold ends at h
  rwa [hm] at h

/-- What holds where it stops. -/
theorem Stops.of_ends {e : ε} (hm : m.Stops s e s') (h : ends Q X m s) : X s' := by
  unfold Stops at hm
  unfold ends at h
  rwa [hm] at h

/-- What holds at both ends. -/
theorem after_of_ends (h : ends Q X m s) (hQ : ∀ a t, Q a t → X t) : X (m.after s) := by
  unfold ends at h
  unfold after
  cases hm : m s with
  | mk r t =>
    rw [hm] at h
    cases r with
    | ok a => exact hQ a t h
    | error _ => exact h

theorem ends_of_returns (hm : m.Returns s a s') (hQ : Q a s') : ends Q X m s := by
  unfold Returns at hm
  unfold ends
  rwa [hm]

theorem ends_of_stops {e : ε} (hm : m.Stops s e s') (hX : X s') : ends Q X m s := by
  unfold Stops at hm
  unfold ends
  rwa [hm]

theorem ends_mono (h : ends Q X m s) (hQ : ∀ a t, Q a t → Q' a t) : ends Q' X m s := by
  unfold ends at h ⊢
  split at h
  · exact hQ _ _ h
  · exact h

theorem ends_weaken {X' : σ → Prop} (h : ends Q X m s) (hX : ∀ t, X t → X' t) : ends Q X' m s := by
  unfold ends at h ⊢
  split at h
  · exact h
  · exact hX _ h

/-- A computation that has no reason to stop returns. -/
theorem returns_of_ends (h : ends Q X m s) (hX : ∀ t, ¬X t) : ∃ a t, m.Returns s a t ∧ Q a t := by
  rcases returns_or_stops m s with ⟨a, t, hm⟩ | ⟨e, t, hm⟩
  · exact ⟨a, t, hm, hm.of_ends h⟩
  · exact absurd (hm.of_ends h) (hX t)

/-- What holds where the computation returns, beside what is known of both ends. -/
theorem ends_and (h : ends Q X m s) (hQ : ∀ a t, m.Returns s a t → Q' a t) :
    ends (fun a t => Q a t ∧ Q' a t) X m s := by
  unfold ends at h ⊢
  cases hm : m s with
  | mk r t =>
    rw [hm] at h
    cases r with
    | ok a => exact ⟨h, hQ a t hm⟩
    | error _ => exact h

/-- Sequencing. -/
theorem ends_bind (h : ends (fun a => ends R X (f a)) X m s) : ends R X (m >>= f) s := by
  show ends R X (seq m f) s
  unfold ends at h
  unfold ends seq
  cases hm : m s with
  | mk r t =>
    rw [hm] at h
    cases r with
    | ok a => exact h
    | error _ => exact h

/-- Sequencing after a part whose return is known. -/
theorem ends_bind_returns (hm : m.Returns s a s') (h : ends R X (f a) s') : ends R X (m >>= f) s :=
  ends_bind (ends_of_returns hm h)

/-- A counted loop keeps the invariant its iterations keep, or stops where one of them does. -/
theorem ends_loop {body : Nat → Outcome ε σ Unit} (I : Nat → σ → Prop) (start count : Nat)
    (h : ∀ i t, start ≤ i → i < start + count → I i t → ends (fun _ => I (i + 1)) X (body i) t)
    (hs : I start s) : ends (fun _ => I (start + count)) X (loop start count body) s := by
  induction count generalizing start s with
  | zero => exact ends_of_returns (returns_pure () s) hs
  | succ count ih =>
    rw [loop_succ]
    refine ends_bind (ends_mono (h start s (Nat.le_refl _) (by omega) hs) fun _ t ht => ?_)
    have := ih (start + 1) (fun i u h1 h2 => h i u (by omega) (by omega)) ht
    rwa [show start + 1 + count = start + (count + 1) by omega] at this

end Ends

/-! ## Invariants -/

/-- What holds before the computation holds after it, whether it returns or stops. -/
def Keeps (I : σ → Prop) (m : Outcome ε σ α) : Prop := ∀ s, I s → ends (fun _ => I) I m s

section Keeps

variable {I : σ → Prop} {m : Outcome ε σ α} {f : α → Outcome ε σ β}

theorem Keeps.after {s : σ} (h : Keeps I m) (hs : I s) : I (m.after s) :=
  after_of_ends (h s hs) fun _ _ ht => ht

theorem Keeps.returns {s t : σ} {a : α} (h : Keeps I m) (hs : I s) (hm : m.Returns s a t) : I t :=
  hm.of_ends (h s hs)

theorem keeps_pure (a : α) : Keeps I (pure a : Outcome ε σ α) :=
  fun s hs => ends_of_returns (returns_pure a s) hs

theorem keeps_stop (e : ε) : Keeps I (stop e : Outcome ε σ α) :=
  fun s hs => ends_of_stops (stops_stop e s) hs

theorem keeps_gets (read : σ → α) : Keeps I (gets read : Outcome ε σ α) :=
  fun s hs => ends_of_returns (returns_gets read s) hs

theorem keeps_modify {change : σ → σ} (h : ∀ s, I s → I (change s)) : Keeps I (modify change : Outcome ε σ Unit) :=
  fun s hs => ends_of_returns (returns_modify change s) (h s hs)

theorem Keeps.bind (hm : Keeps I m) (hf : ∀ a, Keeps I (f a)) : Keeps I (m >>= f) :=
  fun s hs => ends_bind (ends_mono (hm s hs) fun a t ht => hf a t ht)

theorem Keeps.ite {c : Prop} [Decidable c] {m₁ m₂ : Outcome ε σ α} (h₁ : Keeps I m₁) (h₂ : Keeps I m₂) :
    Keeps I (if c then m₁ else m₂) := by
  split
  · exact h₁
  · exact h₂

theorem Keeps.loop {body : Nat → Outcome ε σ Unit} (start count : Nat)
    (h : ∀ i, start ≤ i → i < start + count → Keeps I (body i)) : Keeps I (loop start count body) := by
  induction count generalizing start with
  | zero => exact keeps_pure ()
  | succ count ih =>
    exact (h start (Nat.le_refl _) (by omega)).bind fun _ => ih (start + 1) fun i h₁ h₂ => h i (by omega) (by omega)

/-- An invariant, with what holds where the computation returns. -/
theorem Keeps.ends_and {Q : α → σ → Prop} {s : σ} (h : Keeps I m) (hs : I s) (hQ : ∀ a t, m.Returns s a t → Q a t) :
    ends (fun a t => I t ∧ Q a t) I m s :=
  Outcome.ends_and (h s hs) hQ

/-- A loop brings about what one of its rounds does, if the others keep it. -/
theorem returns_loop_of_round {body : Nat → Outcome ε σ Unit} {i : Nat} (start count : Nat)
    (hi : start ≤ i ∧ i < start + count) (hkeeps : ∀ j, start ≤ j → j < start + count → Keeps I (body j))
    (hround : ∀ s t, (body i).Returns s () t → I t) {s t : σ}
    (hrun : (Outcome.loop start count body).Returns s () t) : I t := by
  induction count generalizing start s with
  | zero => omega
  | succ count ih =>
    rw [loop_succ] at hrun
    obtain ⟨_, s', hfirst, hrest⟩ := returns_bind_iff.mp hrun
    by_cases heq : i = start
    · subst heq
      have hkeep := Keeps.loop (i + 1) count fun j h₁ h₂ => hkeeps j (by omega) (by omega)
      exact hkeep.returns (hround s s' hfirst) hrest
    · exact ih (start + 1) ⟨by omega, by omega⟩ (fun j h₁ h₂ => hkeeps j (by omega) (by omega)) hrest

end Keeps

/-! ## Computations on a part of the state -/

section Focus

variable {τ δ : Type}

/-- Run a computation on a part of the state, and stop for the reason that its reason stands for. -/
def focus (part : τ → σ) (put : τ → σ → τ) (reason : ε → δ) (m : Outcome ε σ α) : Outcome δ τ α := fun t =>
  match m (part t) with
  | (.ok a, s) => (.ok a, put t s)
  | (.error e, s) => (.error (reason e), put t s)

variable {part : τ → σ} {put : τ → σ → τ} {reason : ε → δ} {m : Outcome ε σ α} {t t' : τ} {s : σ} {a : α}

theorem Returns.focus (h : m.Returns (part t) a s) : (focus part put reason m).Returns t a (put t s) := by
  unfold Returns at h
  unfold Returns Outcome.focus
  rw [h]

theorem Stops.focus {e : ε} (h : m.Stops (part t) e s) : (focus part put reason m).Stops t (reason e) (put t s) := by
  unfold Stops at h
  unfold Stops Outcome.focus
  rw [h]

/-- A computation on a part of the state returns where it does by itself. -/
theorem returns_focus_iff : (Outcome.focus part put reason m).Returns t a t' ↔
    ∃ s, m.Returns (part t) a s ∧ t' = put t s := by
  constructor
  · intro h
    unfold Returns Outcome.focus at h
    unfold Returns
    cases hm : m (part t) with
    | mk r s =>
      rw [hm] at h
      cases r with
      | ok b =>
        simp only [Prod.mk.injEq, Except.ok.injEq] at h
        exact ⟨s, by rw [h.1], h.2.symm⟩
      | error e => simp at h
  · rintro ⟨s, hm, rfl⟩
    exact hm.focus

theorem ends_focus {Q : α → τ → Prop} {X : τ → Prop}
    (h : ends (fun a s => Q a (put t s)) (fun s => X (put t s)) m (part t)) :
    ends Q X (Outcome.focus part put reason m) t := by
  unfold ends at h
  unfold ends Outcome.focus
  cases hm : m (part t) with
  | mk r s =>
    rw [hm] at h
    cases r with
    | ok a => exact h
    | error e => exact h

/-- A computation on a part of the state keeps what does not depend on that part. -/
theorem keeps_focus {I : τ → Prop} (h : ∀ t s, I t → I (put t s)) : Keeps I (Outcome.focus part put reason m) := by
  intro t ht
  rcases returns_or_stops m (part t) with ⟨a, s, hm⟩ | ⟨e, s, hm⟩
  · exact ends_of_returns hm.focus (h t s ht)
  · exact ends_of_stops hm.focus (h t s ht)

/-- What a computation on a part of the state does to the state. -/
theorem wp_part {E : δ → Prop} {Q : α → τ → Prop}
    (h : wp (fun e => E (reason e)) m (fun a s => Q a (put t s)) (part t)) :
    wp E (Outcome.focus part put reason m) Q t := by
  rcases returns_or_stops m (part t) with ⟨a, s, hm⟩ | ⟨e, s, hm⟩
  · exact wp_of_returns hm.focus (hm.of_wp h)
  · exact wp_of_stops hm.focus (hm.of_wp h)

/-- A computation on a part of the state stops for the reasons of that part only. -/
theorem wp_focus {E : δ → Prop} {Q : α → τ → Prop} (hE : ∀ e, E (reason e)) (hQ : ∀ a s, Q a (put t s)) :
    wp E (Outcome.focus part put reason m) Q t := by
  apply wp_part
  rcases returns_or_stops m (part t) with ⟨a, s, hm⟩ | ⟨e, s, hm⟩
  · exact wp_of_returns hm (hQ a s)
  · exact wp_of_stops hm (hE e)

end Focus

end Outcome

end KoalemOS.Library
