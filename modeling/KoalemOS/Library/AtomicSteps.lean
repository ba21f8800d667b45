import KoalemOS.Library.Outcome

/-!
# Programs one operation at a time

`Outcome` runs a computation in one go. `Prog` keeps its operations apart, so that other processors may
come between any two of them. What an operation does is a relation between states: what it answers may
depend on others.

- `Prog.run`: the program in one go, an `Outcome`
- `Prog.Moments step I Q p s`: from `s` on, `I` holds before and after every operation of `p`, none gets
  stuck, and `p` returns with `Q` or stops; its rules follow the program
-/

namespace KoalemOS.Library

/-- A program that performs operations, of which `o` answers an `R o`, and returns an `α` or stops for a
reason. -/
inductive Prog (ε : Type) {O : Type} (R : O → Type) (α : Type) : Type where
  | ret (a : α)
  | stop (e : ε)
  | op (o : O) (k : R o → Prog ε R α)

namespace Prog

variable {ε σ O α β : Type} {R : O → Type}

/-! ## Operations -/

/-- Run `p`, then `f` on what it returns. -/
def seq : Prog ε R α → (α → Prog ε R β) → Prog ε R β
  | ret a, f => f a
  | stop e, _ => stop e
  | op o k, f => op o fun r => (k r).seq f

instance : Monad (Prog ε R) where
  pure := ret
  bind := seq

/-- A single operation. -/
def perform (o : O) : Prog ε R (R o) := op o ret

/-- `for(i = start; i < start + count; i++) body(i)`. -/
def loop (start : Nat) : Nat → (Nat → Prog ε R Unit) → Prog ε R Unit
  | 0, _ => ret ()
  | count + 1, body => seq (body start) fun _ => loop (start + 1) count body

/-! ## In one go -/

/-- The run of a program whose operations are computations on a state. -/
def run (exec : ∀ o, Outcome ε σ (R o)) : Prog ε R α → Outcome ε σ α
  | ret a => pure a
  | stop e => Outcome.stop e
  | op o k => exec o >>= fun r => (k r).run exec

section Run

variable (exec : ∀ o, Outcome ε σ (R o))

theorem run_perform (o : O) : (perform o).run exec = exec o := by
  funext s
  show Outcome.seq (exec o) (fun r => pure r) s = exec o s
  unfold Outcome.seq
  rcases exec o s with ⟨_ | _, _⟩ <;> rfl

theorem run_bind (p : Prog ε R α) (f : α → Prog ε R β) :
    (p >>= f).run exec = p.run exec >>= fun a => (f a).run exec := by
  induction p with
  | ret a => rfl
  | stop e => rfl
  | op o k ih =>
    funext s
    show Outcome.seq (exec o) (fun r => (k r >>= f).run exec) s =
      Outcome.seq (Outcome.seq (exec o) fun r => (k r).run exec) (fun a => (f a).run exec) s
    simp only [Outcome.seq, ih]
    rcases exec o s with ⟨_ | _, _⟩ <;> rfl

theorem run_ite {c : Prop} [Decidable c] (p q : Prog ε R α) :
    (if c then p else q).run exec = if c then p.run exec else q.run exec := by
  split_ifs <;> rfl

theorem run_loop (start count : Nat) (body : Nat → Prog ε R Unit) :
    (loop start count body).run exec = Outcome.loop start count fun i => (body i).run exec := by
  induction count generalizing start with
  | zero => rfl
  | succ count ih =>
    rw [Outcome.loop_succ, ← ih]
    exact run_bind exec _ _

end Run

/-! ## Every moment -/

/-- From `s`, `I` holds at every moment of `p`, each operation can be performed, and what `p` returns
satisfies `Q`. -/
inductive Moments (step : (o : O) → σ → R o → σ → Prop) (I : σ → Prop) (Q : α → σ → Prop) :
    Prog ε R α → σ → Prop where
  | ret {a : α} {s : σ} (hI : I s) (hQ : Q a s) : Moments step I Q (.ret a) s
  | stop {e : ε} {s : σ} (hI : I s) : Moments step I Q (.stop e) s
  | op {o : O} {k : R o → Prog ε R α} {s : σ} (hI : I s) (hex : ∃ r t, step o s r t)
      (hk : ∀ r t, step o s r t → Moments step I Q (k r) t) : Moments step I Q (.op o k) s

section Moments

variable {step : (o : O) → σ → R o → σ → Prop} {I I' : σ → Prop} {Q Q' : α → σ → Prop} {Q₂ : β → σ → Prop}
  {p : Prog ε R α} {s : σ}

/-- The present moment. -/
theorem Moments.now (h : p.Moments step I Q s) : I s := by
  cases h with
  | ret hI => exact hI
  | stop hI => exact hI
  | op hI => exact hI

/-- The next moment. -/
theorem Moments.next {o : O} {k : R o → Prog ε R α} {r : R o} {t : σ} (h : (Prog.op o k).Moments step I Q s)
    (ht : step o s r t) : (k r).Moments step I Q t := by
  cases h with
  | op _ _ hk => exact hk r t ht

/-- The last moment. -/
theorem Moments.last {a : α} (h : (Prog.ret a : Prog ε R α).Moments step I Q s) : Q a s := by
  cases h with
  | ret _ hQ => exact hQ

theorem Moments.mono (h : p.Moments step I Q s) (hI : ∀ t, I t → I' t) (hQ : ∀ a t, Q a t → Q' a t) :
    p.Moments step I' Q' s := by
  induction h with
  | ret h₁ h₂ => exact .ret (hI _ h₁) (hQ _ _ h₂)
  | stop h₁ => exact .stop (hI _ h₁)
  | op h₁ hex _ ih => exact .op (hI _ h₁) hex ih

theorem Moments.bind {f : α → Prog ε R β} (h : p.Moments step I (fun a => (f a).Moments step I Q₂) s) :
    (p >>= f).Moments step I Q₂ s := by
  induction h with
  | ret _ h₂ => exact h₂
  | stop h₁ => exact .stop h₁
  | op h₁ hex _ ih => exact .op h₁ hex ih

/-- An operation, and what comes after it. -/
theorem moments_perform {o : O} {f : R o → Prog ε R β} (hI : I s) (hex : ∃ r t, step o s r t)
    (h : ∀ r t, step o s r t → (f r).Moments step I Q₂ t) : (perform o >>= f).Moments step I Q₂ s :=
  .op hI hex h

theorem moments_ite {c : Prop} [Decidable c] {q : Prog ε R α} (hp : c → p.Moments step I Q s)
    (hq : ¬c → q.Moments step I Q s) : (if c then p else q).Moments step I Q s := by
  split_ifs with hc
  · exact hp hc
  · exact hq hc

/-- A loop, with what holds before each round. -/
theorem moments_loop {body : Nat → Prog ε R Unit} (J : Nat → σ → Prop) (start count : Nat) (hJ : J start s)
    (hI : ∀ t, J (start + count) t → I t)
    (hbody : ∀ i t, start ≤ i → i < start + count → J i t → (body i).Moments step I (fun _ => J (i + 1)) t) :
    (loop start count body).Moments step I (fun _ => J (start + count)) s := by
  induction count generalizing start s with
  | zero => exact .ret (hI s hJ) hJ
  | succ count ih =>
    refine Moments.bind ((hbody start s (Nat.le_refl _) (by omega) hJ).mono (fun _ => id) fun _ t ht => ?_)
    rw [show start + (count + 1) = start + 1 + count by omega] at hI hbody ⊢
    exact ih (start + 1) ht hI fun i u hi hlt => hbody i u (by omega) hlt

end Moments

end Prog

end KoalemOS.Library
