import KoalemOS.Smp.InterProcessorCall
import Mathlib.Data.Fintype.EquivFin
import Mathlib.Data.Finset.Card

/-!
# Inter-processor calls after boot

All processors are counted at the barrier of `__kernel_init`, and may be past it. The
invariant `Inv` says who holds `ipcall_mutex`, what has been done of its call
(`CallInv`), and that outside a broadcast call no interrupt is on its way and no
handler is active (`Quiet`). While the caller waits, every other processor is in
exactly one of the five states of `Serving`, and the counter is the number of
processors that have acknowledged this very call (`Active`). When the caller leaves
the wait loop all of them have (`Inv.complete`).
-/

namespace KoalemOS.Smp

variable {P F : Type}

/-! ## The invariant -/

/-- No interrupt is on its way and no handler is active. -/
def Quiet (s : State P F) : Prop := ∀ q, s.pending q = [] ∧ s.isr q = .idle

/-- Nothing has been run or acknowledged for a call. -/
def Untouched [DecidableEq P] (s : State P F) (id : Nat) : Prop :=
  (∀ q, s.runsOf q id = []) ∧ s.ackedBy id = []

/-- How far processor `q` is with the broadcast of call `c`. -/
inductive Serving [DecidableEq P] (s : State P F) (c : Call F) (q : P) : Prop where
  | waiting (hp : s.pending q = [c.id]) (hi : s.isr q = .idle) (hr : s.runsOf q c.id = [])
      (ha : q ∉ s.ackedBy c.id)
  | entered (hp : s.pending q = []) (hi : s.isr q = .entered c.id) (hr : s.runsOf q c.id = [])
      (ha : q ∉ s.ackedBy c.id)
  | loaded (hp : s.pending q = []) (hi : s.isr q = .loaded c.id c.fn) (hr : s.runsOf q c.id = [])
      (ha : q ∉ s.ackedBy c.id)
  | ran (hp : s.pending q = []) (hi : s.isr q = .ran c.id ∨ s.isr q = .acked c.id)
      (hr : s.runsOf q c.id = [c.fn]) (ha : q ∉ s.ackedBy c.id)
  | done (hp : s.pending q = []) (hi : s.isr q = .idle) (hr : s.runsOf q c.id = [c.fn])
      (ha : q ∈ s.ackedBy c.id)

/-- Processor `p` has broadcast call `c` and waits for the others. -/
structure Active [DecidableEq P] (s : State P F) (p : P) (c : Call F) : Prop where
  fun_eq : s.ipCallFun = some c.fn
  caller : s.pending p = [] ∧ s.isr p = .idle ∧ p ∉ s.ackedBy c.id
  others : ∀ q, q ≠ p → Serving s c q
  nodup : (s.ackedBy c.id).Nodup
  count : s.ipCallCount.toNat = (s.ackedBy c.id).length

/-- What holds while `p` is at a stage of call `c` inside the critical section. -/
def CallInv [DecidableEq P] (s : State P F) (p : P) (c : Call F) : CallStage → Prop
  | .lockTest | .lockXchg => True
  | .setFun => Quiet s ∧ Untouched s c.id
  | .setCount => Quiet s ∧ Untouched s c.id ∧ s.ipCallFun = some c.fn
  | .broadcastTest | .sendIpi =>
    Quiet s ∧ Untouched s c.id ∧ s.ipCallFun = some c.fn ∧ s.ipCallCount = 0
  | .waitCount => Active s p c
  | .waitProcessors k => Active s p c ∧ k.toNat ≤ s.ipCallCount.toNat
  | .unlock => Quiet s

/-- Processor `p` is at stage `st` of call `c`, alone in the critical section. -/
structure Holder (s : State P F) (p : P) (st : CallStage) (c : Call F) : Prop where
  loc : s.loc p = .inCall st c
  critical : st.critical = true
  alone : ∀ q st' c', q ≠ p → s.loc q = .inCall st' c' → st'.critical = false

/-- The invariant once all processors are counted. -/
structure Inv [DecidableEq P] [Fintype P] (s : State P F) : Prop where
  working : s.workingProcessorCount.toNat = Fintype.card P
  located : ∀ p, s.loc p = .barrier ∨ s.loc p = .running ∨
    ∃ st c, s.loc p = .inCall st c ∧ c.early = false ∧ c.id < s.nextCall
  old_runs : ∀ r ∈ s.runs, r.call < s.nextCall
  old_acks : ∀ a ∈ s.acks, a.2 < s.nextCall
  unsent : ∀ p st c, s.loc p = .inCall st c → st.critical = false → Untouched s c.id
  ids : ∀ p q st c st' c', s.loc p = .inCall st c → s.loc q = .inCall st' c' → c.id = c'.id → p = q
  free : s.ipcallMutex = false → Quiet s ∧ ∀ p st c, s.loc p = .inCall st c → st.critical = false
  taken : s.ipcallMutex = true → ∃ p st c, Holder s p st c ∧ CallInv s p c st

/-- All processors are past the barrier, which they have all been counted at, no call
is being made, and nothing is left of the calls that were. -/
structure AfterBoot [Fintype P] (s : State P F) : Prop where
  running : ∀ p, s.loc p = .running
  quiet : Quiet s
  working : s.workingProcessorCount.toNat = Fintype.card P
  unlocked : s.ipcallMutex = false
  old_runs : ∀ r ∈ s.runs, r.call < s.nextCall
  old_acks : ∀ a ∈ s.acks, a.2 < s.nextCall

theorem AfterBoot.inv [DecidableEq P] [Fintype P] {s : State P F} (h : AfterBoot s) : Inv s where
  working := h.working
  located p := .inr (.inl (h.running p))
  old_runs := h.old_runs
  old_acks := h.old_acks
  unsent p st c hl := by simp [h.running p] at hl
  ids p q st c st' c' hl := by simp [h.running p] at hl
  free _ := ⟨h.quiet, fun p st c hl => by simp [h.running p] at hl⟩
  taken ht := by simp [h.unlocked] at ht

/-- Once all processors are running again, boot is over. -/
theorem Inv.afterBoot [DecidableEq P] [Fintype P] {s : State P F} (h : Inv s)
    (hrun : ∀ p, s.loc p = .running) : AfterBoot s := by
  have hm : s.ipcallMutex = false := by
    by_contra hne
    obtain ⟨p, st, c, hold, -⟩ := h.taken (by simpa using hne)
    have := hold.loc
    simp [hrun p] at this
  exact ⟨hrun, (h.free hm).1, h.working, hm, h.old_runs, h.old_acks⟩

/-! ## The ghost logs -/

theorem ackedBy_append_ne {s s' : State P F} {q : P} {id id' : Nat}
    (h : s'.acks = s.acks ++ [(q, id)]) (hne : id' ≠ id) : s'.ackedBy id' = s.ackedBy id' := by
  unfold State.ackedBy
  rw [h, List.filter_append, List.map_append]
  simp [hne.symm]

theorem ackedBy_append_self {s s' : State P F} {q : P} {id : Nat}
    (h : s'.acks = s.acks ++ [(q, id)]) : s'.ackedBy id = s.ackedBy id ++ [q] := by
  unfold State.ackedBy
  rw [h, List.filter_append, List.map_append]
  simp

theorem ackedBy_congr {s s' : State P F} (h : s'.acks = s.acks) (id : Nat) :
    s'.ackedBy id = s.ackedBy id := by
  unfold State.ackedBy
  rw [h]

section Runs

variable [DecidableEq P]

theorem runsOf_append_ne {s s' : State P F} {q r : P} {id id' : Nat} {f : F}
    (h : s'.runs = s.runs ++ [⟨q, id, f⟩]) (hne : r ≠ q ∨ id' ≠ id) :
    s'.runsOf r id' = s.runsOf r id' := by
  unfold State.runsOf
  rw [h, List.filter_append, List.map_append]
  have : ¬(q = r ∧ id = id') := fun hc => hne.elim (fun h => h hc.1.symm) (fun h => h hc.2.symm)
  simp [this]

theorem runsOf_append_self {s s' : State P F} {q : P} {id : Nat} {f : F}
    (h : s'.runs = s.runs ++ [⟨q, id, f⟩]) : s'.runsOf q id = s.runsOf q id ++ [f] := by
  unfold State.runsOf
  rw [h, List.filter_append, List.map_append]
  simp

theorem runsOf_congr {s s' : State P F} (h : s'.runs = s.runs) (q : P) (id : Nat) :
    s'.runsOf q id = s.runsOf q id := by
  unfold State.runsOf
  rw [h]

theorem runsOf_eq_nil {s : State P F} {id : Nat} (hr : ∀ r ∈ s.runs, r.call ≠ id) (q : P) :
    s.runsOf q id = [] := by
  unfold State.runsOf
  rw [List.map_eq_nil_iff, List.filter_eq_nil_iff]
  intro r hmem hc
  simp only [decide_eq_true_eq] at hc
  exact hr r hmem hc.2

/-- Nothing is logged for a number that no log entry has. -/
theorem untouched_of_fresh {s : State P F} {id : Nat} (hr : ∀ r ∈ s.runs, r.call ≠ id)
    (ha : ∀ a ∈ s.acks, a.2 ≠ id) : Untouched s id := by
  refine ⟨runsOf_eq_nil hr, ?_⟩
  unfold State.ackedBy
  rw [List.map_eq_nil_iff, List.filter_eq_nil_iff]
  intro a hmem hc
  simp only [decide_eq_true_eq] at hc
  exact ha a hmem hc

end Runs

/-! ## What the call invariant depends on -/

/-- Two states agree on everything the handlers read and write. -/
structure SameCall (s s' : State P F) : Prop where
  isr : s'.isr = s.isr
  pending : s'.pending = s.pending
  ipCallFun : s'.ipCallFun = s.ipCallFun
  ipCallCount : s'.ipCallCount = s.ipCallCount
  runs : s'.runs = s.runs
  acks : s'.acks = s.acks

theorem SameCall.quiet {s s' : State P F} (h : SameCall s s') (hq : Quiet s) : Quiet s' := by
  intro q
  rw [h.isr, h.pending]
  exact hq q

section Congruence

variable [DecidableEq P]

theorem Untouched.congr {s s' : State P F} {id : Nat} (hu : Untouched s id)
    (hr : s'.runs = s.runs) (ha : s'.acks = s.acks) : Untouched s' id :=
  ⟨fun q => by rw [runsOf_congr hr]; exact hu.1 q, by rw [ackedBy_congr ha]; exact hu.2⟩

/-- A processor's progress depends on its own interrupt state and log entries only. -/
theorem Serving.congr {s s' : State P F} {c : Call F} {q : P} (h : Serving s c q)
    (hi : s'.isr q = s.isr q) (hp : s'.pending q = s.pending q)
    (hr : s'.runsOf q c.id = s.runsOf q c.id)
    (ha : q ∈ s'.ackedBy c.id ↔ q ∈ s.ackedBy c.id) : Serving s' c q := by
  cases h with
  | waiting h1 h2 h3 h4 =>
    exact .waiting (hp.trans h1) (hi.trans h2) (hr.trans h3) fun hm => h4 (ha.mp hm)
  | entered h1 h2 h3 h4 =>
    exact .entered (hp.trans h1) (hi.trans h2) (hr.trans h3) fun hm => h4 (ha.mp hm)
  | loaded h1 h2 h3 h4 =>
    exact .loaded (hp.trans h1) (hi.trans h2) (hr.trans h3) fun hm => h4 (ha.mp hm)
  | ran h1 h2 h3 h4 =>
    exact .ran (hp.trans h1) (h2.imp hi.trans hi.trans) (hr.trans h3) fun hm => h4 (ha.mp hm)
  | done h1 h2 h3 h4 =>
    exact .done (hp.trans h1) (hi.trans h2) (hr.trans h3) (ha.mpr h4)

theorem SameCall.active {s s' : State P F} (h : SameCall s s') {p : P} {c : Call F}
    (ha : Active s p c) : Active s' p c := by
  have hack := ackedBy_congr h.acks c.id
  refine ⟨?_, ?_, fun q hq => ?_, ?_, ?_⟩
  · rw [h.ipCallFun]
    exact ha.fun_eq
  · rw [h.pending, h.isr, hack]
    exact ha.caller
  · exact (ha.others q hq).congr (by rw [h.isr]) (by rw [h.pending]) (runsOf_congr h.runs _ _)
      (by rw [hack])
  · rw [hack]
    exact ha.nodup
  · rw [hack, h.ipCallCount]
    exact ha.count

/-- The main code of a processor may move while a call is being served. -/
theorem Active.goto {s : State P F} {p : P} {c : Call F} (ha : Active s p c) (r : P) (l : Loc F) :
    Active (s.goto r l) p c := by
  have hsame : SameCall s (s.goto r l) := ⟨rfl, rfl, rfl, rfl, rfl, rfl⟩
  exact hsame.active ha

theorem SameCall.callInv {s s' : State P F} (h : SameCall s s') {p : P} {c : Call F}
    {st : CallStage} (hc : CallInv s p c st) : CallInv s' p c st := by
  cases st with
  | lockTest | lockXchg => trivial
  | setFun => exact ⟨h.quiet hc.1, hc.2.congr h.runs h.acks⟩
  | setCount => exact ⟨h.quiet hc.1, hc.2.1.congr h.runs h.acks, h.ipCallFun.trans hc.2.2⟩
  | broadcastTest | sendIpi =>
    exact ⟨h.quiet hc.1, hc.2.1.congr h.runs h.acks, h.ipCallFun.trans hc.2.2.1,
      h.ipCallCount.trans hc.2.2.2⟩
  | waitCount => exact h.active hc
  | waitProcessors k =>
    refine ⟨h.active hc.1, ?_⟩
    rw [h.ipCallCount]
    exact hc.2
  | unlock => exact h.quiet hc

end Congruence

section Moves

variable [DecidableEq P] {s s' : State P F}

/-! ## Steps of the code outside the handler -/

/-- A step that moves processor `r` to `l` and touches neither the logs nor the count
of processors. -/
structure MainMove (s s' : State P F) (r : P) (l : Loc F) : Prop where
  loc : s'.loc = Function.update s.loc r l
  runs : s'.runs = s.runs
  acks : s'.acks = s.acks
  working : s'.workingProcessorCount = s.workingProcessorCount
  nextCall : s.nextCall ≤ s'.nextCall

theorem MainMove.loc_self {r : P} {l : Loc F} (m : MainMove s s' r l) : s'.loc r = l := by
  rw [m.loc, Function.update_self]

theorem MainMove.loc_ne {r : P} {l : Loc F} (m : MainMove s s' r l) {q : P} (hq : q ≠ r) :
    s'.loc q = s.loc q := by
  rw [m.loc, Function.update_of_ne hq]

/-- A handler step at `q` advances `q` and leaves the other processors where they are. -/
theorem Active.advance {p q : P} {c : Call F} (ha : Active s p c) (hqp : q ≠ p)
    (hf : s'.ipCallFun = s.ipCallFun) (hi : ∀ r, r ≠ q → s'.isr r = s.isr r)
    (hp : ∀ r, r ≠ q → s'.pending r = s.pending r)
    (hr : ∀ r, r ≠ q → s'.runsOf r c.id = s.runsOf r c.id)
    (hack : ∀ r, r ≠ q → (r ∈ s'.ackedBy c.id ↔ r ∈ s.ackedBy c.id))
    (hq : Serving s' c q) (hnd : (s'.ackedBy c.id).Nodup)
    (hcount : s'.ipCallCount.toNat = (s'.ackedBy c.id).length) : Active s' p c := by
  refine ⟨hf.trans ha.fun_eq, ?_, fun r hrp => ?_, hnd, hcount⟩
  · obtain ⟨h1, h2, h3⟩ := ha.caller
    exact ⟨(hp p hqp.symm).trans h1, (hi p hqp.symm).trans h2,
      fun hm => h3 ((hack p hqp.symm).mp hm)⟩
  · by_cases hrq : r = q
    · rw [hrq]
      exact hq
    · exact (ha.others r hrp).congr (hi r hrq) (hp r hrq) (hr r hrq) (hack r hrq)

/-- Only `waitDone` at a caller leaves its wait loop. -/
theorem Step.leaves_wait {bsp : P} {apCount : UInt16} (hs : Step bsp apCount s s') {p : P} {c : Call F} {k : UInt16}
    (hl : s.loc p = .inCall (.waitProcessors k) c) (hl' : s'.loc p = .inCall .unlock c) :
    ¬(k.toNat : Int) < s.workingProcessorCount.toNat - 1 ∧ s' = s.goto p (.inCall .unlock c) := by
  -- a step of another processor, or of a handler, leaves `p` in its loop
  have stay : s'.loc p ≠ s.loc p := by
    rw [hl, hl']
    simp
  have mover : ∀ {r : P} {l : Loc F}, s'.loc = Function.update s.loc r l → r = p := by
    intro r l hupd
    by_contra hne
    exact stay (by rw [hupd, Function.update_of_ne (Ne.symm hne)])
  cases hs with
  | takeIpi | isrLoad | isrRun | isrEoi | isrAck => exact absurd rfl stay
  | waitDone hr _ hk =>
    obtain rfl := mover rfl
    rw [hl] at hr
    cases hr
    exact ⟨hk, rfl⟩
  | initApic hr | increment hr | passBarrier hr | startCall _ hr | startEarlyCall _ hr
  | lockTest hr | lockRetry hr | lockXchg hr | setFun hr | setCount hr | broadcastYes hr
  | broadcastNo hr | sendIpi hr | waitCount hr | waitMore hr | unlock hr =>
    obtain rfl := mover rfl
    rw [hl] at hr
    cases hr <;> simp at hl'

end Moves

section Preservation

variable [DecidableEq P] [Fintype P] {bsp : P} {apCount : UInt16} {s s' : State P F}

/-- A processor in a call was counted before it began it. -/
theorem Inv.in_call (h : Inv s) {p : P} {st : CallStage} {c : Call F}
    (hl : s.loc p = .inCall st c) : c.early = false ∧ c.id < s.nextCall := by
  rcases h.located p with hr | hr | ⟨_, _, hr, he, hid⟩
  · simp [hl] at hr
  · simp [hl] at hr
  · rw [hl] at hr
    cases hr
    exact ⟨he, hid⟩

/-- Nothing is logged for a call that has not been numbered yet. -/
theorem Inv.untouched_next (h : Inv s) {id : Nat} (hid : s.nextCall ≤ id) : Untouched s id :=
  untouched_of_fresh (fun r hr => by have := h.old_runs r hr; omega)
    (fun a ha => by have := h.old_acks a ha; omega)

/-- What the new location of a processor must satisfy. -/
def GoodLoc (s s' : State P F) (r : P) (l : Loc F) : Prop :=
  l = .running ∨ ∃ st c, l = .inCall st c ∧ c.early = false ∧ c.id < s'.nextCall ∧
    (st.critical = false → Untouched s c.id) ∧
    ∀ q, q ≠ r → ∀ st' c', s.loc q = .inCall st' c' → c'.id ≠ c.id

/-- A processor that stays in its call keeps a good location. -/
theorem Inv.goodLoc_same (h : Inv s) {r : P} {st st' : CallStage} {c : Call F}
    (hl : s.loc r = .inCall st c) (hn : s.nextCall ≤ s'.nextCall)
    (hu : st'.critical = false → Untouched s c.id) : GoodLoc s s' r (.inCall st' c) := by
  obtain ⟨he, hid⟩ := h.in_call hl
  refine .inr ⟨st', c, rfl, he, by omega, hu, fun q hq st₂ c₂ hq₂ heq => hq ?_⟩
  exact h.ids q r st₂ c₂ st c hq₂ hl heq

/-- The parts of the invariant that do not speak about the mutex. -/
theorem Inv.of_move (h : Inv s) {r : P} {l : Loc F} (m : MainMove s s' r l)
    (hl : GoodLoc s s' r l)
    (hfree : s'.ipcallMutex = false →
      Quiet s' ∧ ∀ p st c, s'.loc p = .inCall st c → st.critical = false)
    (htaken : s'.ipcallMutex = true → ∃ p st c, Holder s' p st c ∧ CallInv s' p c st) :
    Inv s' where
  working := by rw [m.working]; exact h.working
  located p := by
    by_cases hp : p = r
    · subst hp
      rw [m.loc_self]
      rcases hl with hl | ⟨st, c, hl, he, hid, -, -⟩
      · exact .inr (.inl hl)
      · exact .inr (.inr ⟨st, c, hl, he, hid⟩)
    · rw [m.loc_ne hp]
      rcases h.located p with hr | hr | ⟨st, c, hr, he, hid⟩
      · exact .inl hr
      · exact .inr (.inl hr)
      · exact .inr (.inr ⟨st, c, hr, he, by have := m.nextCall; omega⟩)
  old_runs x hx := by
    rw [m.runs] at hx
    have := h.old_runs x hx
    have := m.nextCall
    omega
  old_acks x hx := by
    rw [m.acks] at hx
    have := h.old_acks x hx
    have := m.nextCall
    omega
  unsent p st c hp hcrit := by
    by_cases hpr : p = r
    · subst hpr
      rw [m.loc_self] at hp
      rcases hl with hl | ⟨st', c', hl, -, -, hu, -⟩
      · rw [hl] at hp
        simp at hp
      · rw [hl] at hp
        cases hp
        exact (hu hcrit).congr m.runs m.acks
    · rw [m.loc_ne hpr] at hp
      exact (h.unsent p st c hp hcrit).congr m.runs m.acks
  ids p q st c st' c' hp hq heq := by
    by_cases hpr : p = r <;> by_cases hqr : q = r
    · rw [hpr, hqr]
    · subst hpr
      rw [m.loc_self] at hp
      rw [m.loc_ne hqr] at hq
      rcases hl with hl | ⟨_, _, hl, -, -, -, hne⟩
      · rw [hl] at hp
        simp at hp
      · rw [hl] at hp
        cases hp
        exact absurd heq.symm (hne q hqr st' c' hq)
    · subst hqr
      rw [m.loc_ne hpr] at hp
      rw [m.loc_self] at hq
      rcases hl with hl | ⟨_, _, hl, -, -, -, hne⟩
      · rw [hl] at hq
        simp at hq
      · rw [hl] at hq
        cases hq
        exact absurd heq (hne p hpr st c hp)
    · rw [m.loc_ne hpr] at hp
      rw [m.loc_ne hqr] at hq
      exact h.ids p q st c st' c' hp hq heq
  free := hfree
  taken := htaken

/-- A processor that moves outside the critical section disturbs nobody. -/
theorem Inv.of_outside (h : Inv s) {r : P} {l : Loc F}
    (m : MainMove s s' r l) (same : SameCall s s')
    (hm : s'.ipcallMutex = s.ipcallMutex) (hl : GoodLoc s s' r l)
    (hcrit : ∀ st c, l = .inCall st c → st.critical = false)
    (hold : ∀ st' c', s.loc r = .inCall st' c' → st'.critical = false) : Inv s' := by
  refine h.of_move m hl (fun hf => ?_) fun ht => ?_
  · obtain ⟨hq, hnone⟩ := h.free (hm ▸ hf)
    refine ⟨same.quiet hq, fun p st' c' hp => ?_⟩
    by_cases hpr : p = r
    · subst hpr
      rw [m.loc_self] at hp
      exact hcrit st' c' hp
    · rw [m.loc_ne hpr] at hp
      exact hnone p st' c' hp
  · obtain ⟨p, st', c', hp, hci⟩ := h.taken (hm ▸ ht)
    have hpr : p ≠ r := by
      rintro rfl
      have := hold st' c' hp.loc
      rw [hp.critical] at this
      simp at this
    refine ⟨p, st', c', ⟨by rw [m.loc_ne hpr]; exact hp.loc, hp.critical, fun q st₂ c₂ hq hql => ?_⟩,
      same.callInv hci⟩
    by_cases hqr : q = r
    · subst hqr
      rw [m.loc_self] at hql
      exact hcrit st₂ c₂ hql
    · rw [m.loc_ne hqr] at hql
      exact hp.alone q st₂ c₂ hq hql

/-- A processor in the critical section is the holder the invariant speaks of. -/
theorem Inv.holder (h : Inv s) {p : P} {st : CallStage} {c : Call F}
    (hl : s.loc p = .inCall st c) (hcrit : st.critical = true) :
    s.ipcallMutex = true ∧ Holder s p st c ∧ CallInv s p c st := by
  cases hm : s.ipcallMutex with
  | false =>
    have := (h.free hm).2 p st c hl
    rw [hcrit] at this
    simp at this
  | true =>
    obtain ⟨q, st', c', hq, hci⟩ := h.taken hm
    have hpq : p = q := by
      by_contra hne
      have := hq.alone p st c hne hl
      rw [hcrit] at this
      simp at this
    subst hpq
    have := hq.loc
    rw [hl] at this
    cases this
    exact ⟨rfl, hq, hci⟩

/-- The holder advances to its next stage inside the critical section. -/
theorem Inv.of_holder (h : Inv s) {p : P} {st st' : CallStage} {c : Call F}
    (hl : s.loc p = .inCall st c) (hcrit : st.critical = true) (hcrit' : st'.critical = true)
    (m : MainMove s s' p (.inCall st' c)) (hm : s'.ipcallMutex = s.ipcallMutex)
    (hci : CallInv s' p c st') : Inv s' := by
  obtain ⟨hmu, hold, -⟩ := h.holder hl hcrit
  have hgood : GoodLoc s s' p (.inCall st' c) :=
    h.goodLoc_same hl m.nextCall fun hc => by rw [hcrit'] at hc; simp at hc
  refine h.of_move m hgood (fun hf => ?_) fun _ => ?_
  · rw [hm, hmu] at hf
    simp at hf
  · refine ⟨p, st', c, ⟨m.loc_self, hcrit', fun q st₂ c₂ hq hql => ?_⟩, hci⟩
    rw [m.loc_ne hq] at hql
    exact hold.alone q st₂ c₂ hq hql

/-! ## Steps of the handler -/

/-- An interrupt on its way or an active handler belongs to a call whose caller waits. -/
theorem Inv.busy (h : Inv s) {q : P} (hb : s.pending q ≠ [] ∨ s.isr q ≠ .idle) :
    ∃ p st c, Holder s p st c ∧ CallInv s p c st ∧ Active s p c ∧ q ≠ p ∧
      (st = .waitCount ∨ ∃ k, st = .waitProcessors k) := by
  have hnq : ¬Quiet s := fun hq => hb.elim (fun h => h (hq q).1) (fun h => h (hq q).2)
  cases hm : s.ipcallMutex with
  | false => exact absurd (h.free hm).1 hnq
  | true =>
    obtain ⟨p, st, c, hold, hci⟩ := h.taken hm
    have hne : ∀ ha : Active s p c, q ≠ p := by
      rintro ha rfl
      exact hb.elim (fun h => h ha.caller.1) (fun h => h ha.caller.2.1)
    cases st with
    | lockTest | lockXchg => exact absurd hold.critical (by simp [CallStage.critical])
    | setFun | setCount | broadcastTest | sendIpi => exact absurd hci.1 hnq
    | unlock => exact absurd hci hnq
    | waitCount => exact ⟨p, _, c, hold, hci, hci, hne hci, .inl rfl⟩
    | waitProcessors k => exact ⟨p, _, c, hold, hci, hci.1, hne hci.1, .inr ⟨k, rfl⟩⟩

/-- A handler step, for the call `id` it works for. -/
structure IsrMove (s s' : State P F) (id : Nat) : Prop where
  loc : s'.loc = s.loc
  mutex : s'.ipcallMutex = s.ipcallMutex
  working : s'.workingProcessorCount = s.workingProcessorCount
  nextCall : s'.nextCall = s.nextCall
  runs : ∀ r ∈ s'.runs, r ∈ s.runs ∨ r.call = id
  acks : ∀ a ∈ s'.acks, a ∈ s.acks ∨ a.2 = id
  other_runs : ∀ id', id' ≠ id → ∀ q, s'.runsOf q id' = s.runsOf q id'
  other_acks : ∀ id', id' ≠ id → s'.ackedBy id' = s.ackedBy id'

/-- A handler step that keeps the call active keeps the invariant. -/
theorem Inv.of_isr (h : Inv s) {p : P} {st : CallStage} {c : Call F} (hold : Holder s p st c)
    (hci : CallInv s p c st) (hst : st = .waitCount ∨ ∃ k, st = .waitProcessors k)
    (m : IsrMove s s' c.id) (hact : Active s' p c)
    (hcount : s.ipCallCount.toNat ≤ s'.ipCallCount.toNat) : Inv s' := by
  obtain ⟨hmu, -, -⟩ := h.holder hold.loc hold.critical
  have hid := (h.in_call hold.loc).2
  have hci' : CallInv s' p c st := by
    rcases hst with rfl | ⟨k, rfl⟩
    · exact hact
    · exact ⟨hact, hci.2.trans hcount⟩
  refine ⟨?_, ?_, ?_, ?_, ?_, ?_, ?_, ?_⟩
  · rw [m.working]
    exact h.working
  · rw [m.loc, m.nextCall]
    exact h.located
  · intro r hr
    rw [m.nextCall]
    exact (m.runs r hr).elim (h.old_runs r) fun he => he ▸ hid
  · intro a ha
    rw [m.nextCall]
    exact (m.acks a ha).elim (h.old_acks a) fun he => he ▸ hid
  · intro r st' c' hl hcrit
    rw [m.loc] at hl
    have hne : c'.id ≠ c.id := by
      intro heq
      have hrp := h.ids r p st' c' st c hl hold.loc heq
      subst hrp
      rw [hold.loc] at hl
      cases hl
      rw [hold.critical] at hcrit
      simp at hcrit
    obtain ⟨h1, h2⟩ := h.unsent r st' c' hl hcrit
    exact ⟨fun q => (m.other_runs _ hne q).trans (h1 q), (m.other_acks _ hne).trans h2⟩
  · rw [m.loc]
    exact h.ids
  · intro hf
    rw [m.mutex, hmu] at hf
    simp at hf
  · intro _
    refine ⟨p, st, c, ⟨by rw [m.loc]; exact hold.loc, hold.critical, ?_⟩, hci'⟩
    rw [m.loc]
    exact hold.alone

/-- Taking an interrupt. -/
theorem Inv.takeIpi (h : Inv s) {q : P} {id : Nat} {rest : List Nat}
    (hp : s.pending q = id :: rest) :
    Inv { s.gotoIsr q (.entered id) with pending := Function.update s.pending q rest } := by
  obtain ⟨p, st, c, hold, hci, hact, hqp, hst⟩ := h.busy (.inl (by rw [hp]; simp))
  cases hact.others q hqp with
  | waiting hpq hiq hr ha =>
    rw [hp] at hpq
    obtain ⟨rfl, rfl⟩ := List.cons.inj hpq
    refine h.of_isr hold hci hst ⟨rfl, rfl, rfl, rfl, fun _ hr => .inl hr, fun _ ha => .inl ha,
      fun _ _ _ => rfl, fun _ _ => rfl⟩ ?_ le_rfl
    refine hact.advance hqp rfl (fun r hr => gotoIsr_isr_ne s _ hr)
      (fun r hr => Function.update_of_ne hr _ _) (fun _ _ => rfl) (fun _ _ => Iff.rfl) ?_
      hact.nodup hact.count
    exact .entered (Function.update_self ..) (gotoIsr_isr_self ..) hr ha
  | entered hpq | loaded hpq | ran hpq | done hpq => simp [hp] at hpq

/-- Loading the function pointer. -/
theorem Inv.isrLoad (h : Inv s) {q : P} {id : Nat} {f : F} (hi : s.isr q = .entered id)
    (hf : s.ipCallFun = some f) : Inv (s.gotoIsr q (.loaded id f)) := by
  obtain ⟨p, st, c, hold, hci, hact, hqp, hst⟩ := h.busy (.inr (by rw [hi]; simp))
  have hfn : f = c.fn := by
    have := hact.fun_eq
    rw [hf] at this
    exact Option.some.inj this
  subst hfn
  cases hact.others q hqp with
  | entered hpq hiq hr ha =>
    rw [hi] at hiq
    cases hiq
    refine h.of_isr hold hci hst ⟨rfl, rfl, rfl, rfl, fun _ hr => .inl hr, fun _ ha => .inl ha,
      fun _ _ _ => rfl, fun _ _ => rfl⟩ ?_ le_rfl
    refine hact.advance hqp rfl (fun r hr => gotoIsr_isr_ne s _ hr) (fun _ _ => rfl)
      (fun _ _ => rfl) (fun _ _ => Iff.rfl) ?_ hact.nodup hact.count
    exact .loaded hpq (gotoIsr_isr_self ..) hr ha
  | waiting _ hiq | loaded _ hiq | done _ hiq => simp [hi] at hiq
  | ran _ hiq => simp [hi] at hiq

/-- Running the function. -/
theorem Inv.isrRun (h : Inv s) {q : P} {id : Nat} {f : F} (hi : s.isr q = .loaded id f) :
    Inv { s.gotoIsr q (.ran id) with runs := s.runs ++ [⟨q, id, f⟩] } := by
  obtain ⟨p, st, c, hold, hci, hact, hqp, hst⟩ := h.busy (.inr (by rw [hi]; simp))
  cases hact.others q hqp with
  | loaded hpq hiq hr ha =>
    rw [hi] at hiq
    cases hiq
    refine h.of_isr hold hci hst ⟨rfl, rfl, rfl, rfl, ?_, fun _ ha => .inl ha, ?_,
      fun _ _ => rfl⟩ ?_ le_rfl
    · intro r hr
      exact (List.mem_append.mp hr).imp id fun hr => by rw [List.mem_singleton.mp hr]
    · exact fun id' hne r => runsOf_append_ne rfl (.inr hne)
    · refine hact.advance hqp rfl (fun r hr => gotoIsr_isr_ne s _ hr) (fun _ _ => rfl)
        (fun r hr => runsOf_append_ne rfl (.inl hr)) (fun _ _ => Iff.rfl) ?_ hact.nodup hact.count
      refine .ran hpq (.inl (gotoIsr_isr_self ..)) ?_ ha
      rw [runsOf_append_self (s := s) rfl, hr, List.nil_append]
  | waiting _ hiq | entered _ hiq | done _ hiq => simp [hi] at hiq
  | ran _ hiq => simp [hi] at hiq

/-- Writing end of interrupt. -/
theorem Inv.isrEoi (h : Inv s) {q : P} {id : Nat} (hi : s.isr q = .ran id) :
    Inv (s.gotoIsr q (.acked id)) := by
  obtain ⟨p, st, c, hold, hci, hact, hqp, hst⟩ := h.busy (.inr (by rw [hi]; simp))
  cases hact.others q hqp with
  | ran hpq hiq hr ha =>
    rw [hi] at hiq
    rcases hiq with hiq | hiq <;> cases hiq
    refine h.of_isr hold hci hst ⟨rfl, rfl, rfl, rfl, fun _ hr => .inl hr, fun _ ha => .inl ha,
      fun _ _ _ => rfl, fun _ _ => rfl⟩ ?_ le_rfl
    refine hact.advance hqp rfl (fun r hr => gotoIsr_isr_ne s _ hr) (fun _ _ => rfl)
      (fun _ _ => rfl) (fun _ _ => Iff.rfl) ?_ hact.nodup hact.count
    exact .ran hpq (.inr (gotoIsr_isr_self ..)) hr ha
  | waiting _ hiq | entered _ hiq | loaded _ hiq | done _ hiq => simp [hi] at hiq

/-- Fewer processors have acknowledged a call than there are processors. -/
theorem Active.acked_lt {p : P} {c : Call F} (ha : Active s p c) :
    (s.ackedBy c.id).length < Fintype.card P := by
  rw [← List.toFinset_card_of_nodup ha.nodup, ← Finset.card_univ]
  refine Finset.card_lt_card ⟨Finset.subset_univ _, fun hsub => ?_⟩
  exact ha.caller.2.2 (List.mem_toFinset.mp (hsub (Finset.mem_univ p)))

/-- Acknowledging. -/
theorem Inv.isrAck (h : Inv s) {q : P} {id : Nat} (hi : s.isr q = .acked id) :
    Inv { s.gotoIsr q .idle with
      ipCallCount := s.ipCallCount + 1, acks := s.acks ++ [(q, id)] } := by
  obtain ⟨p, st, c, hold, hci, hact, hqp, hst⟩ := h.busy (.inr (by rw [hi]; simp))
  cases hact.others q hqp with
  | ran hpq hiq hr ha =>
    rw [hi] at hiq
    rcases hiq with hiq | hiq <;> cases hiq
    -- the counter has room: it counts distinct processors other than the caller
    have hroom : s.ipCallCount.toNat + 1 < 2 ^ 16 := by
      have h1 := hact.acked_lt
      have h2 := hact.count
      have h3 := h.working
      have h4 := s.workingProcessorCount.toNat_lt
      omega
    have hadd : (s.ipCallCount + 1).toNat = s.ipCallCount.toNat + 1 := by
      rw [UInt16.toNat_add]
      exact Nat.mod_eq_of_lt hroom
    have hack : State.ackedBy { s.gotoIsr q .idle with
        ipCallCount := s.ipCallCount + 1, acks := s.acks ++ [(q, c.id)] } c.id =
        s.ackedBy c.id ++ [q] := ackedBy_append_self rfl
    refine h.of_isr hold hci hst ⟨rfl, rfl, rfl, rfl, fun _ hr => .inl hr, ?_, fun _ _ _ => rfl,
      ?_⟩ ?_ ?_
    · intro a ha
      exact (List.mem_append.mp ha).imp id fun ha => by rw [List.mem_singleton.mp ha]
    · exact fun id' hne => ackedBy_append_ne rfl hne
    · refine hact.advance hqp rfl (fun r hr => gotoIsr_isr_ne s _ hr) (fun _ _ => rfl)
        (fun _ _ => rfl) (fun r hr => ?_) ?_ ?_ ?_
      · rw [hack, List.mem_append, List.mem_singleton]
        exact or_iff_left hr
      · refine .done hpq (gotoIsr_isr_self ..) hr ?_
        rw [hack]
        simp
      · rw [hack]
        exact List.Nodup.append hact.nodup (List.nodup_singleton q) (by simpa using ha)
      · rw [hack, List.length_append, List.length_singleton]
        show (s.ipCallCount + 1).toNat = _
        rw [hadd, hact.count]
    · show _ ≤ (s.ipCallCount + 1).toNat
      rw [hadd]
      omega
  | waiting _ hiq | entered _ hiq | loaded _ hiq | done _ hiq => simp [hi] at hiq

/-! ## Leaving the wait loop -/

/-- When the counter has reached the number of other processors, each of them has
run the function once, has acknowledged, and is out of its handler. -/
theorem Active.all_done {p : P} {c : Call F} (ha : Active s p c)
    (hcount : Fintype.card P ≤ s.ipCallCount.toNat + 1) :
    (∀ q, q ∈ s.ackedBy c.id ↔ q ≠ p) ∧ (∀ q, q ≠ p → s.runsOf q c.id = [c.fn]) ∧ Quiet s := by
  have hsub : (s.ackedBy c.id).toFinset ⊆ Finset.univ.erase p := by
    intro q hq
    refine Finset.mem_erase.mpr ⟨?_, Finset.mem_univ q⟩
    rintro rfl
    exact ha.caller.2.2 (List.mem_toFinset.mp hq)
  have heq : (s.ackedBy c.id).toFinset = Finset.univ.erase p := by
    refine Finset.eq_of_subset_of_card_le hsub ?_
    rw [List.toFinset_card_of_nodup ha.nodup, Finset.card_erase_of_mem (Finset.mem_univ p),
      Finset.card_univ, ← ha.count]
    omega
  have hmem : ∀ q, q ∈ s.ackedBy c.id ↔ q ≠ p := by
    intro q
    rw [← List.mem_toFinset, heq, Finset.mem_erase]
    simp
  have hserved : ∀ q, q ≠ p →
      s.runsOf q c.id = [c.fn] ∧ s.pending q = [] ∧ s.isr q = .idle := by
    intro q hq
    cases ha.others q hq with
    | done hp hi hr _ => exact ⟨hr, hp, hi⟩
    | waiting _ _ _ hna | entered _ _ _ hna | loaded _ _ _ hna | ran _ _ _ hna =>
      exact absurd ((hmem q).mpr hq) hna
  refine ⟨hmem, fun q hq => (hserved q hq).1, fun q => ?_⟩
  by_cases hq : q = p
  · rw [hq]
    exact ⟨ha.caller.1, ha.caller.2.1⟩
  · exact (hserved q hq).2

/-! ## Every step keeps the invariant -/

/-- No processor is still to be counted. -/
theorem Inv.counted (h : Inv s) {p : P} : s.loc p ≠ .starting ∧ s.loc p ≠ .booting := by
  rcases h.located p with hl | hl | ⟨st, c, hl, -⟩ <;> simp [hl]

/-- A processor that takes the mutex starts its call. -/
theorem Inv.lockXchg (h : Inv s) {p : P} {c : Call F} (hl : s.loc p = .inCall .lockXchg c)
    (hm : s.ipcallMutex = false) :
    Inv { s.goto p (.inCall .setFun c) with ipcallMutex := true } := by
  obtain ⟨hq, hnone⟩ := h.free hm
  have m : MainMove s { s.goto p (.inCall .setFun c) with ipcallMutex := true } p
      (.inCall .setFun c) := ⟨rfl, rfl, rfl, rfl, le_rfl⟩
  refine h.of_move m (h.goodLoc_same hl le_rfl fun hc => by simp [CallStage.critical] at hc)
    (fun hf => by simp at hf) fun _ => ?_
  refine ⟨p, .setFun, c, ⟨m.loc_self, rfl, fun q st' c' hqp hql => ?_⟩, hq, ?_⟩
  · rw [m.loc_ne hqp] at hql
    exact hnone q st' c' hql
  · exact (h.unsent p _ c hl rfl).congr rfl rfl

/-- Sending the interrupt starts the wait. -/
theorem Inv.sendIpi (h : Inv s) {p : P} {c : Call F} (hl : s.loc p = .inCall .sendIpi c) :
    Inv ((s.broadcast p c.id).goto p (.inCall .waitCount c)) := by
  obtain ⟨-, -, hq, hu, hf, hc⟩ := h.holder hl rfl
  have m : MainMove s ((s.broadcast p c.id).goto p (.inCall .waitCount c)) p
      (.inCall .waitCount c) := ⟨rfl, rfl, rfl, rfl, le_rfl⟩
  refine h.of_holder hl rfl rfl m rfl ?_
  refine ⟨hf, ⟨?_, (hq p).2, ?_⟩, fun q hqp => ?_, ?_, ?_⟩
  · simp [State.broadcast, (hq p).1]
  · show p ∉ s.ackedBy c.id
    rw [hu.2]
    simp
  · have hon : (s.loc q).apicOn = true := by
      rcases h.located q with hr | hr | ⟨st, c', hr, -⟩ <;> simp [hr, Loc.apicOn]
    refine .waiting ?_ (hq q).2 (hu.1 q) ?_
    · simp [State.broadcast, hqp, hon, (hq q).1]
    · show q ∉ s.ackedBy c.id
      rw [hu.2]
      simp
  · show (s.ackedBy c.id).Nodup
    rw [hu.2]
    exact List.nodup_nil
  · show s.ipCallCount.toNat = (s.ackedBy c.id).length
    rw [hu.2, hc]
    rfl

/-- Without other processors there is nobody to wait for. -/
theorem Inv.broadcastNo (h : Inv s) {p : P} {c : Call F} (hl : s.loc p = .inCall .broadcastTest c)
    (hw : ¬s.workingProcessorCount.toNat > 1) : Inv (s.goto p (.inCall .waitCount c)) := by
  obtain ⟨-, -, hq, hu, hf, hc⟩ := h.holder hl rfl
  have hcard : Fintype.card P ≤ 1 := by
    rw [← h.working]
    omega
  have m : MainMove s (s.goto p (.inCall .waitCount c)) p (.inCall .waitCount c) :=
    ⟨rfl, rfl, rfl, rfl, le_rfl⟩
  refine h.of_holder hl rfl rfl m rfl ?_
  refine ⟨hf, ⟨(hq p).1, (hq p).2, ?_⟩, fun q hqp => ?_, ?_, ?_⟩
  · show p ∉ s.ackedBy c.id
    rw [hu.2]
    simp
  · exact absurd (Fintype.card_le_one_iff.mp hcard q p) hqp
  · show (s.ackedBy c.id).Nodup
    rw [hu.2]
    exact List.nodup_nil
  · show s.ipCallCount.toNat = (s.ackedBy c.id).length
    rw [hu.2, hc]
    rfl

/-- Releasing the mutex ends the call. -/
theorem Inv.unlock (h : Inv s) {p : P} {c : Call F} (hl : s.loc p = .inCall .unlock c) :
    Inv { s.goto p c.back with ipcallMutex := false } := by
  obtain ⟨-, hold, hq⟩ := h.holder hl rfl
  have hback : c.back = .running := by simp [Call.back, (h.in_call hl).1]
  have m : MainMove s { s.goto p c.back with ipcallMutex := false } p c.back :=
    ⟨rfl, rfl, rfl, rfl, le_rfl⟩
  refine h.of_move m (.inl hback) (fun _ => ⟨hq, fun q st' c' hql => ?_⟩) fun ht => by simp at ht
  by_cases hqp : q = p
  · subst hqp
    rw [m.loc_self, hback] at hql
    simp at hql
  · rw [m.loc_ne hqp] at hql
    exact hold.alone q st' c' hqp hql

/-- Every step keeps the invariant. -/
theorem Inv.step (h : Inv s) (hs : Step bsp apCount s s') : Inv s' := by
  cases hs with
  | initApic hl => exact absurd hl h.counted.1
  | increment hl => exact absurd hl h.counted.2
  | startEarlyCall f hl => exact absurd hl h.counted.2
  | @passBarrier p hl _ _ =>
    refine h.of_outside ⟨rfl, rfl, rfl, rfl, le_rfl⟩ ⟨rfl, rfl, rfl, rfl, rfl, rfl⟩ rfl
      (.inl rfl) (fun _ _ hr => by cases hr) fun st' c' hr => ?_
    simp [hl] at hr
  | @startCall p f hl _ =>
    refine h.of_outside ⟨rfl, rfl, rfl, rfl, Nat.le_succ _⟩ ⟨rfl, rfl, rfl, rfl, rfl, rfl⟩ rfl
      (.inr ⟨_, _, rfl, rfl, Nat.lt_succ_self _, fun _ => h.untouched_next le_rfl, ?_⟩)
      (fun _ _ hr => by cases hr; rfl) ?_
    · exact fun q _ st' c' hql => (h.in_call hql).2.ne
    · intro st' c' hr
      simp [hl] at hr
  | @lockTest p c hl _ _ =>
    refine h.of_outside ⟨rfl, rfl, rfl, rfl, le_rfl⟩ ⟨rfl, rfl, rfl, rfl, rfl, rfl⟩ rfl
      (h.goodLoc_same hl le_rfl fun _ => h.unsent p _ c hl rfl) (fun _ _ hr => by cases hr; rfl)
      fun st' c' hr => ?_
    rw [hl] at hr
    cases hr
    rfl
  | @lockRetry p c hl _ _ =>
    refine h.of_outside ⟨rfl, rfl, rfl, rfl, le_rfl⟩ ⟨rfl, rfl, rfl, rfl, rfl, rfl⟩ rfl
      (h.goodLoc_same hl le_rfl fun _ => h.unsent p _ c hl rfl) (fun _ _ hr => by cases hr; rfl)
      fun st' c' hr => ?_
    rw [hl] at hr
    cases hr
    rfl
  | lockXchg hl _ hm => exact h.lockXchg hl hm
  | setFun hl _ =>
    obtain ⟨-, -, hq, hu⟩ := h.holder hl rfl
    exact h.of_holder hl rfl rfl ⟨rfl, rfl, rfl, rfl, le_rfl⟩ rfl ⟨hq, hu.congr rfl rfl, rfl⟩
  | setCount hl _ =>
    obtain ⟨-, -, hq, hu, hf⟩ := h.holder hl rfl
    exact h.of_holder hl rfl rfl ⟨rfl, rfl, rfl, rfl, le_rfl⟩ rfl
      ⟨hq, hu.congr rfl rfl, hf, rfl⟩
  | broadcastYes hl _ _ =>
    obtain ⟨-, -, hq, hu, hf, hc⟩ := h.holder hl rfl
    exact h.of_holder hl rfl rfl ⟨rfl, rfl, rfl, rfl, le_rfl⟩ rfl
      ⟨hq, hu.congr rfl rfl, hf, hc⟩
  | broadcastNo hl _ hw => exact h.broadcastNo hl hw
  | sendIpi hl _ => exact h.sendIpi hl
  | waitCount hl _ =>
    obtain ⟨-, -, hci⟩ := h.holder hl rfl
    exact h.of_holder hl rfl rfl ⟨rfl, rfl, rfl, rfl, le_rfl⟩ rfl
      ⟨hci.goto _ _, le_rfl⟩
  | waitMore hl _ _ =>
    obtain ⟨-, -, hci, -⟩ := h.holder hl rfl
    exact h.of_holder hl rfl rfl ⟨rfl, rfl, rfl, rfl, le_rfl⟩ rfl
      (hci.goto _ _)
  | waitDone hl _ hk =>
    obtain ⟨-, -, hact, hle⟩ := h.holder hl rfl
    have hw := h.working
    have hquiet := (hact.all_done (by omega)).2.2
    exact h.of_holder hl rfl rfl ⟨rfl, rfl, rfl, rfl, le_rfl⟩ rfl
      (SameCall.quiet ⟨rfl, rfl, rfl, rfl, rfl, rfl⟩ hquiet)
  | unlock hl _ => exact h.unlock hl
  | takeIpi hp _ => exact h.takeIpi hp
  | isrLoad hi hf => exact h.isrLoad hi hf
  | isrRun hi => exact h.isrRun hi
  | isrEoi hi => exact h.isrEoi hi
  | isrAck hi => exact h.isrAck hi

/-- The invariant holds in every state reached from then on. -/
theorem Inv.steps (h : Inv s) (hs : Steps bsp apCount s s') : Inv s' := by
  induction hs with
  | refl => exact h
  | tail _ hstep ih => exact ih.step hstep

/-- What call `c` of processor `p` has done when `p` leaves its wait loop: every other
processor has run exactly the function of this call, exactly once, for this call; no
interrupt is on its way and no handler is active on any processor; and the counter
counts exactly one acknowledgement of this call by each other processor. -/
structure CallComplete (s : State P F) (p : P) (c : Call F) : Prop where
  ran : ∀ q, q ≠ p → s.runsOf q c.id = [c.fn]
  quiet : Quiet s
  once : (s.ackedBy c.id).Nodup
  acked : ∀ q, q ∈ s.ackedBy c.id ↔ q ≠ p
  count : s.ipCallCount.toNat = (s.ackedBy c.id).length

/-- Once all processors are counted, a call that leaves its wait loop is complete. -/
theorem Inv.complete (h : Inv s) (hs : Step bsp apCount s s') {p : P} {c : Call F}
    {k : UInt16} (hl : s.loc p = .inCall (.waitProcessors k) c)
    (hl' : s'.loc p = .inCall .unlock c) : CallComplete s' p c := by
  obtain ⟨hk, rfl⟩ := hs.leaves_wait hl hl'
  obtain ⟨-, -, hact, hle⟩ := h.holder hl rfl
  have hw := h.working
  obtain ⟨hmem, hruns, hquiet⟩ := hact.all_done (by omega)
  exact ⟨hruns, hquiet, hact.nodup, hmem, hact.count⟩

end Preservation

end KoalemOS.Smp
