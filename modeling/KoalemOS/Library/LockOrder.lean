import Mathlib.Data.List.Nodup
import Mathlib.Data.Set.Basic
import Mathlib.Logic.Function.Basic
import Mathlib.Logic.Relation

/-!
# Spin locks taken in an order

Processors that run code of which only the locking is kept: which mutexes it takes and
releases, which functions it calls, and where it may branch or repeat. Any branch may be
taken, so a run of the code itself is a run of this system.

- `LockCode`: the code, with a function's body looked up at a call
- `LockStep`: one step of one processor; a mutex is taken by a test and an exchange
- `LockCode.after`: the check that mutexes are taken in the order of their ranks
- `LockReach.no_deadlock`: checked code never waits in a circle
-/

namespace KoalemOS.Library

/-! ## Code and states -/

/-- Code that takes mutexes `M` and calls functions `F`. -/
inductive LockCode (M F : Type) where
  | skip
  | lock (m : M)
  | unlock (m : M)
  | call (f : F)
  | seq (a b : LockCode M F)
  | either (a b : LockCode M F)
  | many (a : LockCode M F)

/-- One statement after the other. -/
def LockCode.block {M F : Type} : List (LockCode M F) → LockCode M F
  | [] => .skip
  | [a] => a
  | a :: b :: rest => .seq a (block (b :: rest))

/-- What is left to do: code, or the exchange of a lock that was found free. -/
inductive LockTask (M F : Type) where
  | code (a : LockCode M F)
  | exchange (m : M)

/-- The processors and the mutexes; `held` is a ghost. -/
structure LockState (P M F : Type) where
  tasks : P → List (LockTask M F)
  owner : M → Option P
  held : P → List M

section System

variable {P M F : Type} [DecidableEq P] [DecidableEq M]

/-- Processor `p` goes on with `k`. -/
def LockState.goto (s : LockState P M F) (p : P) (k : List (LockTask M F)) : LockState P M F :=
  { s with tasks := Function.update s.tasks p k }

/-- Processor `p` takes `m`. -/
def LockState.take (s : LockState P M F) (p : P) (m : M) : LockState P M F :=
  { s with owner := Function.update s.owner m (some p), held := Function.update s.held p (m :: s.held p) }

/-- Processor `p` releases `m`. -/
def LockState.release (s : LockState P M F) (p : P) (m : M) : LockState P M F :=
  { s with owner := Function.update s.owner m none, held := Function.update s.held p ((s.held p).erase m) }

/-- Nobody runs, and no mutex is taken. -/
def LockState.idle : LockState P M F := ⟨fun _ => [], fun _ => none, fun _ => []⟩

/-- One step of a processor. One that has nothing to do may call an entry function. -/
inductive LockStep (body : F → LockCode M F) (entry : F → Prop) :
    LockState P M F → LockState P M F → Prop where
  | start {s : LockState P M F} {p : P} {f : F} : s.tasks p = [] → entry f →
      LockStep body entry s (s.goto p [.code (.call f)])
  | skip {s : LockState P M F} {p : P} {k : List (LockTask M F)} :
      s.tasks p = .code .skip :: k → LockStep body entry s (s.goto p k)
  | call {s : LockState P M F} {p : P} {f : F} {k : List (LockTask M F)} :
      s.tasks p = .code (.call f) :: k → LockStep body entry s (s.goto p (.code (body f) :: k))
  | seq {s : LockState P M F} {p : P} {a b : LockCode M F} {k : List (LockTask M F)} :
      s.tasks p = .code (.seq a b) :: k → LockStep body entry s (s.goto p (.code a :: .code b :: k))
  | left {s : LockState P M F} {p : P} {a b : LockCode M F} {k : List (LockTask M F)} :
      s.tasks p = .code (.either a b) :: k → LockStep body entry s (s.goto p (.code a :: k))
  | right {s : LockState P M F} {p : P} {a b : LockCode M F} {k : List (LockTask M F)} :
      s.tasks p = .code (.either a b) :: k → LockStep body entry s (s.goto p (.code b :: k))
  | stop {s : LockState P M F} {p : P} {a : LockCode M F} {k : List (LockTask M F)} :
      s.tasks p = .code (.many a) :: k → LockStep body entry s (s.goto p k)
  | again {s : LockState P M F} {p : P} {a : LockCode M F} {k : List (LockTask M F)} :
      s.tasks p = .code (.many a) :: k →
      LockStep body entry s (s.goto p (.code a :: .code (.many a) :: k))
  /-- The load of `mtx_lock` finds the mutex free. -/
  | testFree {s : LockState P M F} {p : P} {m : M} {k : List (LockTask M F)} :
      s.tasks p = .code (.lock m) :: k → s.owner m = none →
      LockStep body entry s (s.goto p (.exchange m :: k))
  /-- The load finds it taken. -/
  | testTaken {s : LockState P M F} {p : P} {m : M} {k : List (LockTask M F)} :
      s.tasks p = .code (.lock m) :: k → s.owner m ≠ none → LockStep body entry s s
  /-- The exchange takes the mutex. -/
  | take {s : LockState P M F} {p : P} {m : M} {k : List (LockTask M F)} :
      s.tasks p = .exchange m :: k → s.owner m = none →
      LockStep body entry s ((s.goto p k).take p m)
  /-- Another processor was faster. -/
  | exchangeTaken {s : LockState P M F} {p : P} {m : M} {k : List (LockTask M F)} :
      s.tasks p = .exchange m :: k → s.owner m ≠ none →
      LockStep body entry s (s.goto p (.code (.lock m) :: k))
  | unlock {s : LockState P M F} {p : P} {m : M} {k : List (LockTask M F)} :
      s.tasks p = .code (.unlock m) :: k → LockStep body entry s ((s.goto p k).release p m)

/-- States reached from the idle one, in any interleaving. -/
def LockReach (body : F → LockCode M F) (entry : F → Prop) (s : LockState P M F) : Prop :=
  Relation.ReflTransGen (LockStep body entry) LockState.idle s

/-- Processor `p` is in `mtx_lock` for `m`. -/
def LockState.Waits (s : LockState P M F) (p : P) (m : M) : Prop :=
  ∃ k, s.tasks p = .code (.lock m) :: k ∨ s.tasks p = .exchange m :: k

end System

/-! ## The check -/

section Check

variable {M F : Type} [DecidableEq M] (rank : M → Nat) (level : F → Nat)

/-- The mutexes held after the code, when `H` are held before it and any others have ranks
below `base`; nothing if a mutex is taken out of order, or a branch leaves others held. -/
def LockCode.after (base : Nat) : LockCode M F → List M → Option (List M)
  | skip, H => some H
  | lock m, H => if base ≤ rank m ∧ ∀ h ∈ H, rank h < rank m then some (m :: H) else none
  | unlock m, H => if H.head? = some m then some H.tail else none
  | call f, H => if base ≤ level f ∧ ∀ h ∈ H, rank h < level f then some H else none
  | seq a b, H => (after base a H).bind (after base b)
  | either a b, H => if after base a H = after base b H then after base a H else none
  | many a, H => if after base a H = some H then some H else none

/-- Every function takes mutexes from its level on, in their order, and releases them. -/
def Ordered (body : F → LockCode M F) : Prop := ∀ f, (body f).after rank level (level f) [] = some []

variable {rank level}

/-- Code that is in order is so below mutexes of lower ranks. -/
theorem LockCode.after_append {base : Nat} {a : LockCode M F} {H K X : List M}
    (hX : ∀ h ∈ X, rank h < base) (h : a.after rank level base H = some K) :
    a.after rank level 0 (H ++ X) = some (K ++ X) := by
  have hlt : ∀ n, base ≤ n → (∀ h ∈ H, rank h < n) → ∀ h ∈ H ++ X, rank h < n := by
    intro n hn hH h hh
    rcases List.mem_append.mp hh with hh | hh
    · exact hH h hh
    · exact Nat.lt_of_lt_of_le (hX h hh) hn
  induction a generalizing H K with
  | skip =>
    obtain rfl := Option.some.inj h
    rfl
  | lock m =>
    simp only [after, Option.ite_none_right_eq_some, Option.some.injEq] at h
    obtain ⟨⟨hm, hH⟩, rfl⟩ := h
    exact if_pos ⟨Nat.zero_le _, hlt _ hm hH⟩
  | unlock m =>
    simp only [after, Option.ite_none_right_eq_some, Option.some.injEq] at h
    obtain ⟨hm, rfl⟩ := h
    cases H with
    | nil => cases hm
    | cons c H => exact if_pos hm
  | call f =>
    simp only [after, Option.ite_none_right_eq_some, Option.some.injEq] at h
    obtain ⟨⟨hf, hH⟩, rfl⟩ := h
    exact if_pos ⟨Nat.zero_le _, hlt _ hf hH⟩
  | seq a b iha ihb =>
    obtain ⟨L, ha, hb⟩ := Option.bind_eq_some_iff.mp h
    exact Option.bind_eq_some_iff.mpr ⟨L ++ X, iha ha hlt, ihb hb fun n hn hL h hh => by
      rcases List.mem_append.mp hh with hh | hh
      · exact hL h hh
      · exact Nat.lt_of_lt_of_le (hX h hh) hn⟩
  | either a b iha ihb =>
    simp only [after, Option.ite_none_right_eq_some] at h
    obtain ⟨heq, ha⟩ := h
    have ha' := iha ha hlt
    have hb' := ihb (heq ▸ ha) hlt
    rw [after, if_pos (ha'.trans hb'.symm), ha']
  | many a ih =>
    simp only [after, Option.ite_none_right_eq_some, Option.some.injEq] at h
    obtain ⟨ha, rfl⟩ := h
    exact if_pos (ih ha hlt)

end Check

/-! ## The invariant -/

section Invariant

variable {P M F : Type} [DecidableEq P] [DecidableEq M] {rank : M → Nat} {level : F → Nat}
  {body : F → LockCode M F} {entry : F → Prop} {s s' : LockState P M F} {p : P}

/-- An exchange is the rest of a lock. -/
def LockTask.toCode : LockTask M F → LockCode M F
  | code a => a
  | exchange m => .lock m

/-- The tasks are in order, one after the other, and in the end no mutex is held. -/
def TasksFit (rank : M → Nat) (level : F → Nat) : List (LockTask M F) → List M → Prop
  | [], H => H = []
  | t :: k, H => ∃ K, t.toCode.after rank level 0 H = some K ∧ TasksFit rank level k K

/-- What holds of every state reached: each processor's tasks are in order, and the ghost
lists are the mutexes that it owns. -/
structure LockInv (rank : M → Nat) (level : F → Nat) (s : LockState P M F) : Prop where
  fit : ∀ p, TasksFit rank level (s.tasks p) (s.held p)
  owner : ∀ p m, s.owner m = some p ↔ m ∈ s.held p
  nodup : ∀ p, (s.held p).Nodup

omit [DecidableEq P] in
theorem lockInv_idle : LockInv rank level (LockState.idle : LockState P M F) :=
  ⟨fun _ => rfl, fun _ _ => iff_of_false (by simp [LockState.idle]) (by simp [LockState.idle]),
    fun _ => List.nodup_nil⟩

/-- A step that moves one processor and no mutex. -/
theorem LockInv.goto (h : LockInv rank level s) {k : List (LockTask M F)}
    (hk : TasksFit rank level k (s.held p)) : LockInv rank level (s.goto p k) := by
  refine ⟨fun q => ?_, h.owner, h.nodup⟩
  by_cases hq : q = p
  · subst hq
    simpa [LockState.goto] using hk
  · simpa [LockState.goto, hq] using h.fit q

/-- A free mutex is taken. -/
theorem LockInv.take (h : LockInv rank level s) {m : M} {k : List (LockTask M F)}
    (hfree : s.owner m = none) (hk : TasksFit rank level k (m :: s.held p)) :
    LockInv rank level ((s.goto p k).take p m) := by
  have hnot : ∀ q, m ∉ s.held q := fun q hm => by
    rw [(h.owner q m).mpr hm] at hfree
    cases hfree
  refine ⟨fun q => ?_, fun q n => ?_, fun q => ?_⟩
  · by_cases hq : q = p
    · subst hq
      simpa [LockState.goto, LockState.take] using hk
    · simpa [LockState.goto, LockState.take, hq] using h.fit q
  · by_cases hn : n = m
    · subst hn
      by_cases hq : q = p
      · subst hq
        simp [LockState.goto, LockState.take]
      · simp [LockState.goto, LockState.take, hq, hnot q, Ne.symm hq]
    · by_cases hq : q = p
      · subst hq
        simpa [LockState.goto, LockState.take, hn] using h.owner q n
      · simpa [LockState.goto, LockState.take, hn, hq] using h.owner q n
  · by_cases hq : q = p
    · subst hq
      simpa [LockState.goto, LockState.take] using ⟨hnot q, h.nodup q⟩
    · simpa [LockState.goto, LockState.take, hq] using h.nodup q

/-- The mutex taken last is released. -/
theorem LockInv.release (h : LockInv rank level s) {m : M} {H : List M} {k : List (LockTask M F)}
    (hheld : s.held p = m :: H) (hk : TasksFit rank level k H) :
    LockInv rank level ((s.goto p k).release p m) := by
  have herase : (s.held p).erase m = H := by rw [hheld, List.erase_cons_head]
  have hnodup : (m :: H).Nodup := hheld ▸ h.nodup p
  have hmine : s.owner m = some p := (h.owner p m).mpr (by rw [hheld]; exact List.mem_cons_self)
  refine ⟨fun q => ?_, fun q n => ?_, fun q => ?_⟩
  · by_cases hq : q = p
    · subst hq
      simpa [LockState.goto, LockState.release, herase] using hk
    · simpa [LockState.goto, LockState.release, hq] using h.fit q
  · by_cases hq : q = p
    · subst hq
      by_cases hn : n = m
      · subst hn
        simpa [LockState.goto, LockState.release, herase] using (List.nodup_cons.mp hnodup).1
      · have := h.owner q n
        rw [hheld, List.mem_cons] at this
        simpa [LockState.goto, LockState.release, herase, hn] using this
    · by_cases hn : n = m
      · subst hn
        have hother : n ∉ s.held q := fun hm => by
          have := (h.owner q n).mpr hm
          rw [hmine] at this
          exact hq (Option.some.inj this).symm
        simpa [LockState.goto, LockState.release, hq] using hother
      · simpa [LockState.goto, LockState.release, hq, hn] using h.owner q n
  · by_cases hq : q = p
    · subst hq
      simpa [LockState.goto, LockState.release, herase] using (List.nodup_cons.mp hnodup).2
    · simpa [LockState.goto, LockState.release, hq] using h.nodup q

omit [DecidableEq P] in
/-- The next task is in order. -/
theorem LockInv.head (h : LockInv rank level s) {t : LockTask M F} {k : List (LockTask M F)}
    (hk : s.tasks p = t :: k) : TasksFit rank level (t :: k) (s.held p) := hk ▸ h.fit p

omit [DecidableEq P] in
/-- A processor that waits for a mutex holds only mutexes of lower ranks. -/
theorem LockInv.lt_of_waits (h : LockInv rank level s) {m : M} (hw : s.Waits p m) :
    ∀ n ∈ s.held p, rank n < rank m := by
  obtain ⟨K, hK⟩ : ∃ K, (LockCode.lock m : LockCode M F).after rank level 0 (s.held p) = some K := by
    obtain ⟨k, hk | hk⟩ := hw
    · obtain ⟨K, hK, -⟩ := h.head hk
      exact ⟨K, hK⟩
    · obtain ⟨K, hK, -⟩ := h.head hk
      exact ⟨K, hK⟩
  simp only [LockCode.after, Option.ite_none_right_eq_some] at hK
  exact hK.1.2

/-- **Every step keeps the invariant.** -/
theorem LockInv.step (hbody : Ordered rank level body) (h : LockInv rank level s)
    (hs : LockStep body entry s s') : LockInv rank level s' := by
  cases hs with
  | @start p f hk _ =>
    have hfit := h.fit p
    rw [hk] at hfit
    refine h.goto ⟨s.held p, ?_, hfit⟩
    rw [hfit]
    simp [LockTask.toCode, LockCode.after]
  | @skip p k hk =>
    obtain ⟨K, ha, hfit⟩ := h.head hk
    obtain rfl := Option.some.inj ha
    exact h.goto hfit
  | @call p f k hk =>
    obtain ⟨K, ha, hfit⟩ := h.head hk
    simp only [LockTask.toCode, LockCode.after, Option.ite_none_right_eq_some, Option.some.injEq] at ha
    obtain ⟨⟨-, hlt⟩, rfl⟩ := ha
    -- the callee's mutexes are above those held here
    exact h.goto ⟨s.held p, LockCode.after_append hlt (hbody f), hfit⟩
  | @seq p a b k hk =>
    obtain ⟨K, hab, hfit⟩ := h.head hk
    obtain ⟨L, ha, hb⟩ := Option.bind_eq_some_iff.mp hab
    exact h.goto ⟨L, ha, K, hb, hfit⟩
  | @left p a b k hk =>
    obtain ⟨K, hab, hfit⟩ := h.head hk
    simp only [LockTask.toCode, LockCode.after, Option.ite_none_right_eq_some] at hab
    exact h.goto ⟨K, hab.2, hfit⟩
  | @right p a b k hk =>
    obtain ⟨K, hab, hfit⟩ := h.head hk
    simp only [LockTask.toCode, LockCode.after, Option.ite_none_right_eq_some] at hab
    exact h.goto ⟨K, hab.1 ▸ hab.2, hfit⟩
  | @stop p a k hk =>
    obtain ⟨K, ha, hfit⟩ := h.head hk
    simp only [LockTask.toCode, LockCode.after, Option.ite_none_right_eq_some, Option.some.injEq] at ha
    exact h.goto (ha.2 ▸ hfit)
  | @again p a k hk =>
    obtain ⟨K, hmany, hfit⟩ := h.head hk
    have ha := hmany
    simp only [LockTask.toCode, LockCode.after, Option.ite_none_right_eq_some, Option.some.injEq] at ha
    exact h.goto ⟨s.held p, ha.1, K, hmany, hfit⟩
  | @testFree p m k hk _ =>
    obtain ⟨K, hlock, hfit⟩ := h.head hk
    exact h.goto ⟨K, hlock, hfit⟩
  | testTaken _ _ => exact h
  | @take p m k hk hfree =>
    obtain ⟨K, ha, hfit⟩ := h.head hk
    simp only [LockTask.toCode, LockCode.after, Option.ite_none_right_eq_some, Option.some.injEq] at ha
    exact h.take hfree (ha.2 ▸ hfit)
  | @exchangeTaken p m k hk _ =>
    obtain ⟨K, hlock, hfit⟩ := h.head hk
    exact h.goto ⟨K, hlock, hfit⟩
  | @unlock p m k hk =>
    obtain ⟨K, ha, hfit⟩ := h.head hk
    simp only [LockTask.toCode, LockCode.after, Option.ite_none_right_eq_some, Option.some.injEq] at ha
    obtain ⟨hhead, rfl⟩ := ha
    obtain ⟨H, hheld⟩ := List.head?_eq_some_iff.mp hhead
    exact h.release hheld (by rwa [hheld] at hfit)

/-- **Every reachable state satisfies it.** -/
theorem LockReach.inv (hbody : Ordered rank level body) (hr : LockReach body entry s) :
    LockInv rank level s := by
  induction hr with
  | refl => exact lockInv_idle
  | tail _ hs ih => exact ih.step hbody hs

/-- No processor waits for a mutex it holds. -/
theorem LockReach.not_waits_own (hbody : Ordered rank level body) (hr : LockReach body entry s) {m : M}
    (hw : s.Waits p m) : s.owner m ≠ some p := by
  intro hown
  have hinv := hr.inv hbody
  exact Nat.lt_irrefl _ (hinv.lt_of_waits hw m ((hinv.owner p m).mp hown))

/-- Along a chain of processors that wait for each other the ranks grow without bound. -/
theorem LockReach.no_deadlock (hbody : Ordered rank level body) (hr : LockReach body entry s)
    {bound : Nat} (hbound : ∀ m, rank m ≤ bound) {D : Set P} (hne : D.Nonempty) :
    ¬∀ p ∈ D, ∃ m, s.Waits p m ∧ ∃ q ∈ D, s.owner m = some q := by
  intro hall
  have hinv := hr.inv hbody
  have hchain : ∀ n, ∃ q ∈ D, ∃ m, s.owner m = some q ∧ n ≤ rank m := by
    intro n
    induction n with
    | zero =>
      obtain ⟨p, hp⟩ := hne
      obtain ⟨m, -, q, hq, hown⟩ := hall p hp
      exact ⟨q, hq, m, hown, Nat.zero_le _⟩
    | succ n ih =>
      obtain ⟨q, hq, m, hown, hn⟩ := ih
      obtain ⟨m', hw, q', hq', hown'⟩ := hall q hq
      have hlt := hinv.lt_of_waits hw m ((hinv.owner q m).mp hown)
      exact ⟨q', hq', m', hown', by omega⟩
  obtain ⟨-, -, m, -, hle⟩ := hchain (bound + 1)
  have := hbound m
  omega

end Invariant

end KoalemOS.Library
