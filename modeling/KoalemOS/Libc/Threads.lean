import Mathlib.Logic.Function.Basic
import Mathlib.Logic.Relation
import Mathlib.Tactic.SplitIfs

/-!
# Mutexes (`src/libc/threads.c`)

A mutex is one atomic Boolean. `mtx_lock` loads it and exchanges it for `true` if it was
`false`, `mtx_trylock` exchanges it at once, `mtx_unlock` stores `false`. Between any two of these
accesses other threads may take steps. A call returns with its last access.

- `MutexStep`: one access of one thread
- `holdsAfter`: whether the calls of a thread have ended with a lock or trylock that succeeded
- `MutexInv`: the Boolean is true exactly while a thread holds the mutex, and only one does
- `mutual_exclusion`: this holds after every run
-/

namespace KoalemOS.Libc

/-! ## The code -/

/-- What the functions return. -/
inductive Thrd where
  | success
  | nomem
  | timedout
  | busy
  | error
  deriving DecidableEq

/-- `mtx_plain` -/
def mtxPlain : BitVec 32 := 0

/-- `mtx_recursive` -/
def mtxRecursive : BitVec 32 := 1

/-- `mtx_timed` -/
def mtxTimed : BitVec 32 := 2

/-- `mtx_init`: what it returns, and `locked` afterwards. -/
def mtxInit (locked : Bool) (type : BitVec 32) : Thrd × Bool :=
  if type &&& mtxRecursive ≠ 0 ∨ type &&& mtxTimed ≠ 0 then (.error, locked) else (.success, false)

/-- The calls a thread makes on a mutex. -/
inductive MutexCall where
  | lock
  | trylock
  | unlock
  deriving DecidableEq

/-- Where a thread is: in none of the functions, or before its next access. -/
inductive MutexLoc where
  | outside
  | lockLoad
  | lockExchange
  | trylockExchange
  | unlockStore
  deriving DecidableEq

/-- Whether a thread is between a lock or trylock that has succeeded and its unlock, by the calls
that have returned to it and their results, the latest first. -/
def holdsAfter : List (MutexCall × Thrd) → Bool
  | [] => false
  | (.unlock, _) :: _ => false
  | (.lock, .success) :: _ | (.trylock, .success) :: _ => true
  | _ :: calls => holdsAfter calls

/-- The mutex, where its threads are, and the calls that have returned to them. -/
structure MutexState (P : Type) where
  locked : Bool
  loc : P → MutexLoc
  returned : P → List (MutexCall × Thrd)

section System

variable {P : Type} [DecidableEq P]

/-- Thread `p` is between a lock or trylock that has succeeded and its unlock. -/
def MutexState.holds {P : Type} (s : MutexState P) (p : P) : Bool := holdsAfter (s.returned p)

/-- Thread `p` goes on at `l`. -/
def MutexState.goto (s : MutexState P) (p : P) (l : MutexLoc) : MutexState P :=
  { s with loc := Function.update s.loc p l }

/-- A call of thread `p` returns `r`. -/
def MutexState.ret (s : MutexState P) (p : P) (call : MutexCall) (r : Thrd) : MutexState P :=
  { s with
    loc := Function.update s.loc p .outside
    returned := Function.update s.returned p ((call, r) :: s.returned p) }

/-- `atomic_exchange(&(mutex->locked), true)` -/
def MutexState.exchange {P : Type} (s : MutexState P) : MutexState P := { s with locked := true }

/-- `atomic_store(&(mutex->locked), false)` -/
def MutexState.store {P : Type} (s : MutexState P) : MutexState P := { s with locked := false }

/-- One step of a thread. It may call `mtx_lock` and `mtx_trylock` at any time, `mtx_unlock` only
after its own successful lock or trylock. -/
inductive MutexStep : MutexState P → MutexState P → Prop where
  | callLock {s : MutexState P} {p : P} : s.loc p = .outside → MutexStep s (s.goto p .lockLoad)
  | callTrylock {s : MutexState P} {p : P} : s.loc p = .outside → MutexStep s (s.goto p .trylockExchange)
  | callUnlock {s : MutexState P} {p : P} : s.loc p = .outside → s.holds p = true →
      MutexStep s (s.goto p .unlockStore)
  /-- `if(!atomic_load(&(mutex->locked)))` -/
  | load {s : MutexState P} {p : P} : s.loc p = .lockLoad →
      MutexStep s (s.goto p (if !s.locked then .lockExchange else .lockLoad))
  /-- `if(!atomic_exchange(&(mutex->locked), true))`: out of the loop and back, or once more. -/
  | exchange {s : MutexState P} {p : P} : s.loc p = .lockExchange →
      MutexStep s (if !s.locked then s.exchange.ret p .lock .success else s.exchange.goto p .lockLoad)
  /-- The exchange of `mtx_trylock`, which returns whatever was there. -/
  | tryExchange {s : MutexState P} {p : P} : s.loc p = .trylockExchange →
      MutexStep s (s.exchange.ret p .trylock (if s.locked then .busy else .success))
  | store {s : MutexState P} {p : P} : s.loc p = .unlockStore → MutexStep s (s.store.ret p .unlock .success)

/-- `mtx_init` has succeeded on a mutex with whatever value, and no thread has called anything. -/
structure MutexState.Initialised {P : Type} (s : MutexState P) : Prop where
  init : ∃ locked type, mtxInit locked type = (.success, s.locked)
  outside : ∀ p, s.loc p = .outside
  uncalled : ∀ p, s.returned p = []

/-- States after any number of steps, in any interleaving. -/
def MutexSteps : MutexState P → MutexState P → Prop := Relation.ReflTransGen MutexStep

end System

/-! ## The invariant -/

variable {P : Type} {s s' : MutexState P} {p : P}

/-- The Boolean tells whether a thread holds the mutex, one does at most, and a thread that is to
store `false` does. -/
structure MutexInv (s : MutexState P) : Prop where
  unique : ∀ p q, s.holds p = true → s.holds q = true → p = q
  locked : s.locked = true ↔ ∃ p, s.holds p = true
  storing : ∀ p, s.loc p = .unlockStore → s.holds p = true

theorem MutexState.Initialised.inv (h : s.Initialised) : MutexInv s := by
  obtain ⟨locked, type, hinit⟩ := h.init
  have hfree : s.locked = false := by
    unfold mtxInit at hinit
    split_ifs at hinit
    · cases (Prod.mk.inj hinit).1
    · exact (Prod.mk.inj hinit).2.symm
  have hnone : ∀ p, s.holds p = false := fun p => by simp [MutexState.holds, h.uncalled p, holdsAfter]
  refine ⟨fun p q hp => ?_, ?_, fun p hp => ?_⟩
  · simp [hnone p] at hp
  · simp [hfree, hnone]
  · simp [h.outside p] at hp

/-- While the mutex is free nobody holds it. -/
theorem MutexInv.nobody (h : MutexInv s) (hfree : s.locked = false) (q : P) : s.holds q = false := by
  by_contra hq
  have := h.locked.mpr ⟨q, eq_true_of_ne_false hq⟩
  rw [hfree] at this
  cases this

variable [DecidableEq P]

/-! ## What a call that returns changes -/

theorem holds_ret_ne {q : P} (hq : q ≠ p) (call : MutexCall) (r : Thrd) :
    (s.ret p call r).holds q = s.holds q := by
  simp [MutexState.holds, MutexState.ret, hq]

@[simp] theorem holds_ret_self (call : MutexCall) (r : Thrd) :
    (s.ret p call r).holds p = holdsAfter ((call, r) :: s.returned p) := by
  simp [MutexState.holds, MutexState.ret]

/-- A thread moves; it is to store `false` only if it holds the mutex. -/
theorem MutexInv.goto (h : MutexInv s) {l : MutexLoc} (hl : l = .unlockStore → s.holds p = true) :
    MutexInv (s.goto p l) := by
  refine ⟨h.unique, h.locked, fun q hq => ?_⟩
  by_cases hqp : q = p
  · subst hqp
    exact hl (by simpa [MutexState.goto] using hq)
  · exact h.storing q (by simpa [MutexState.goto, hqp] using hq)

omit [DecidableEq P] in
/-- An exchange that finds the mutex taken changes nothing. -/
theorem exchange_of_locked (hm : s.locked = true) : s.exchange = s := by
  rw [MutexState.exchange, ← hm]

/-- A lock or trylock succeeds: the thread holds a mutex that was free. -/
theorem MutexInv.acquire (h : MutexInv s) (hfree : s.locked = false) {call : MutexCall}
    (hcall : call = .lock ∨ call = .trylock) : MutexInv (s.exchange.ret p call .success) := by
  have hself : (s.exchange.ret p call .success).holds p = true := by
    rw [holds_ret_self]
    rcases hcall with rfl | rfl <;> rfl
  have hother : ∀ q, q ≠ p → (s.exchange.ret p call .success).holds q = false := by
    intro q hq
    rw [holds_ret_ne hq]
    exact h.nobody hfree q
  have honly : ∀ q, (s.exchange.ret p call .success).holds q = true → q = p := by
    intro q hq
    by_contra hne
    simp [hother q hne] at hq
  refine ⟨fun q r hq hr => (honly q hq).trans (honly r hr).symm, iff_of_true rfl ⟨p, hself⟩, fun q hq => ?_⟩
  by_cases hqp : q = p
  · rw [hqp]
    exact hself
  · -- another thread that is to store would hold the mutex already
    have hqs : s.loc q = .unlockStore := by simpa [MutexState.ret, MutexState.exchange, hqp] using hq
    have := h.storing q hqs
    rw [h.nobody hfree q] at this
    cases this

/-- A trylock that finds the mutex taken returns `thrd_busy`, and nobody's hold changes. -/
theorem MutexInv.busy (h : MutexInv s) (hm : s.locked = true) : MutexInv (s.exchange.ret p .trylock .busy) := by
  rw [exchange_of_locked hm]
  have hsame : ∀ q, (s.ret p .trylock .busy).holds q = s.holds q := by
    intro q
    by_cases hq : q = p
    · rw [hq, holds_ret_self]
      rfl
    · exact holds_ret_ne hq _ _
  refine ⟨fun q r => ?_, ?_, fun q hq => ?_⟩
  · rw [hsame, hsame]
    exact h.unique q r
  · simp only [hsame]
    exact h.locked
  · rw [hsame]
    by_cases hqp : q = p
    · subst hqp
      simp [MutexState.ret] at hq
    · exact h.storing q (by simpa [MutexState.ret, hqp] using hq)

/-- The unlock of a thread that holds the mutex. -/
theorem MutexInv.release (h : MutexInv s) (hp : s.holds p = true) :
    MutexInv (s.store.ret p .unlock .success) := by
  have hnone : ∀ q, (s.store.ret p .unlock .success).holds q = false := by
    intro q
    by_cases hq : q = p
    · rw [hq, holds_ret_self]
      rfl
    · rw [holds_ret_ne hq]
      show s.holds q = false
      exact eq_false_of_ne_true fun hqh => hq (h.unique q p hqh hp)
  refine ⟨fun q r hq => ?_, ?_, fun q hq => ?_⟩
  · simp [hnone q] at hq
  · refine iff_of_false Bool.false_ne_true ?_
    rintro ⟨q, hq⟩
    simp [hnone q] at hq
  · -- another thread that is to store would hold the mutex as well
    by_cases hqp : q = p
    · subst hqp
      simp [MutexState.ret] at hq
    · have hqs : s.loc q = .unlockStore := by simpa [MutexState.ret, MutexState.store, hqp] using hq
      exact absurd (h.unique q p (h.storing q hqs) hp) hqp

/-- **Every step keeps the invariant.** -/
theorem MutexInv.step (h : MutexInv s) (hs : MutexStep s s') : MutexInv s' := by
  cases hs with
  | callLock | callTrylock => exact h.goto nofun
  | callUnlock _ hholds => exact h.goto fun _ => hholds
  | load hl =>
    refine h.goto fun hc => ?_
    split at hc <;> cases hc
  | @exchange p hl =>
    cases hm : s.locked with
    | false => exact h.acquire hm (.inl rfl)
    | true =>
      rw [exchange_of_locked hm]
      exact h.goto nofun
  | @tryExchange p hl =>
    cases hm : s.locked with
    | false => exact h.acquire hm (.inr rfl)
    | true => exact h.busy hm
  | @store p hl => exact h.release (h.storing p hl)

theorem MutexInv.steps (h : MutexInv s) (hs : MutexSteps s s') : MutexInv s' := by
  induction hs with
  | refl => exact h
  | tail _ hstep ih => exact ih.step hstep

/-- **Mutual exclusion.** However any number of threads interleave their calls of `mtx_lock`,
`mtx_trylock` and `mtx_unlock` on a mutex that `mtx_init` has initialised: at most one thread
is between a lock or trylock that has returned `thrd_success` to it and its unlock, and `locked`
is true exactly while one is. -/
theorem mutual_exclusion {s₀ : MutexState P} (hinit : s₀.Initialised) (hrun : MutexSteps s₀ s) :
    (∀ p q, s.holds p = true → s.holds q = true → p = q) ∧ (s.locked = true ↔ ∃ p, s.holds p = true) :=
  ⟨(hinit.inv.steps hrun).unique, (hinit.inv.steps hrun).locked⟩

/-- Two threads find the mutex free; the first gets it, the second tries once more and is told
that it is busy, the first unlocks, and the second gets it. -/
theorem mutual_exclusion_race : ∃ s : MutexState Bool, s.returned true = [(.unlock, .success), (.lock, .success)] ∧
    s.returned false = [(.trylock, .success), (.trylock, .busy)] ∧ s.locked = true ∧
    ∀ p q, s.holds p = true → s.holds q = true → p = q := by
  let s₀ : MutexState Bool := ⟨false, fun _ => .outside, fun _ => []⟩
  have hinit : s₀.Initialised := ⟨⟨true, mtxPlain, rfl⟩, fun _ => rfl, fun _ => rfl⟩
  have called : MutexSteps s₀ _ :=
    (Relation.ReflTransGen.refl.tail (.callLock (p := true) rfl)).tail (.callTrylock (p := false) rfl)
  have raced := (called.tail (.load (p := true) rfl)).tail (.exchange (p := true) rfl)
  have told := raced.tail (.tryExchange (p := false) rfl)
  have unlocked := (told.tail (.callUnlock (p := true) rfl rfl)).tail (.store (p := true) rfl)
  have got := (unlocked.tail (.callTrylock (p := false) rfl)).tail (.tryExchange (p := false) rfl)
  exact ⟨_, rfl, rfl, rfl, (mutual_exclusion hinit got).1⟩

end KoalemOS.Libc
