import KoalemOS.Smp.StartUp

/-!
# From power-on to the calls after boot

An early call of the bootstrap processor leaves its wait loop one acknowledgement too
soon, so that an interrupt of it may still be on its way when everyone is past the
barrier. The next call then counts the late acknowledgement for its own, and leaves its
wait loop with an interrupt still on its way.

- `JoinsQuietly`: nothing is left of the early calls when the bootstrap processor is counted
- `Counting`: the application processors that are still to be counted after it
- `JoinsQuietly.inv`: from then on the processors get to `Inv`
- `JoinsQuietly.afterBoot`: and boot ends as `AfterBoot` says
-/

namespace KoalemOS.Smp

variable {P F : Type}

/-! ## The bootstrap processor is counted -/

/-- All processors have just been started, and the logs are empty. -/
structure ColdStart (s : State P F) : Prop extends PowerOn s where
  no_acks : s.acks = []

/-- Nothing is left of the early calls: no interrupt is on its way, and no handler is
active on a processor that waits at the barrier. (One that is not counted yet can still
return from its handler before it is.) -/
def JoinsQuietly (s : State P F) : Prop :=
  ∀ q, s.pending q = [] ∧ (s.loc q = .barrier → s.isr q = .idle)

/-- The state in which processor `p` has just been counted. -/
def State.join [DecidableEq P] (s : State P F) (p : P) : State P F :=
  { s.goto p .barrier with workingProcessorCount := s.workingProcessorCount + 1 }

@[simp] theorem join_loc_self [DecidableEq P] (s : State P F) (p : P) :
    (s.join p).loc p = .barrier :=
  goto_loc_self ..

theorem join_loc_ne [DecidableEq P] (s : State P F) {p q : P} (h : q ≠ p) :
    (s.join p).loc q = s.loc q :=
  goto_loc_ne _ _ h

/-- From the increment of the bootstrap processor to the first processor past the barrier. -/
structure Joining [Fintype P] (bsp : P) (s : State P F) : Prop where
  joined : s.loc bsp = .barrier
  located : ∀ p, s.loc p = .starting ∨ s.loc p = .booting ∨ s.loc p = .barrier
  quiet : s.pending bsp = [] ∧ s.isr bsp = .idle
  unlocked : s.ipcallMutex = false
  counter : s.workingProcessorCount.toNat =
    (Finset.univ.filter fun p => (s.loc p).counted).card % 2 ^ 16

section Boot

variable [Fintype P] [DecidableEq P] {bsp : P} {apCount : UInt16} {s s' : State P F}

theorem counter_join {p : P} (hl : (s.loc p).counted = false)
    (hc : s.workingProcessorCount.toNat =
      (Finset.univ.filter fun q => (s.loc q).counted).card % 2 ^ 16) :
    (s.join p).workingProcessorCount.toNat =
      (Finset.univ.filter fun q => ((s.join p).loc q).counted).card % 2 ^ 16 := by
  show (s.workingProcessorCount + 1).toNat =
    (Finset.univ.filter fun q => ((s.goto p .barrier).loc q).counted).card % 2 ^ 16
  rw [card_counted_goto hl, UInt16.toNat_add, show (1 : UInt16).toNat = 1 from rfl, hc]
  omega

/-- The bootstrap processor increments the counter. -/
theorem BootInv.join (h : BootInv bsp s) (hl : s.loc bsp = .booting) : Joining bsp (s.join bsp) where
  joined := join_loc_self ..
  located p := by
    by_cases hp : p = bsp
    · subst hp
      exact .inr (.inr (join_loc_self ..))
    · rw [join_loc_ne _ hp]
      exact h.others p hp
  quiet := h.quiet
  unlocked := h.free fun st c hr => by simp [hl] at hr
  counter := by
    refine counter_join h.early.not_past.1 ?_
    rw [← h.counter]
    exact (Nat.mod_eq_of_lt s.workingProcessorCount.toNat_lt).symm

/-! ## Application processors join -/

omit [DecidableEq P] in
theorem Joining.not_counted (h : Joining bsp s) {p : P} :
    (s.loc p).counted = false ↔ s.loc p = .starting ∨ s.loc p = .booting := by
  rcases h.located p with hl | hl | hl <;> simp [hl, Loc.counted]

omit [DecidableEq P] in
/-- Handlers do not disturb the joining. -/
theorem Joining.of_isr (h : Joining bsp s) (hloc : s'.loc = s.loc)
    (hm : s'.ipcallMutex = s.ipcallMutex)
    (hw : s'.workingProcessorCount = s.workingProcessorCount)
    (hq : s'.pending bsp = [] ∧ s'.isr bsp = .idle) : Joining bsp s' where
  joined := by rw [hloc]; exact h.joined
  located := by rw [hloc]; exact h.located
  quiet := hq
  unlocked := hm.trans h.unlocked
  counter := by rw [hw, hloc]; exact h.counter

/-- An application processor enables its local APIC. -/
theorem Joining.initApic (h : Joining bsp s) {p : P} (hl : s.loc p = .starting) :
    Joining bsp (s.goto p .booting) where
  joined := by
    rw [goto_loc_ne]
    · exact h.joined
    · rintro rfl
      simp [h.joined] at hl
  located q := by
    by_cases hq : q = p
    · subst hq
      exact .inr (.inl (goto_loc_self ..))
    · rw [goto_loc_ne _ _ hq]
      exact h.located q
  quiet := h.quiet
  unlocked := h.unlocked
  counter := by
    have hsame : ∀ q, ((s.goto p .booting).loc q).counted = (s.loc q).counted := by
      intro q
      by_cases hq : q = p
      · subst hq
        rw [goto_loc_self, hl]
        rfl
      · rw [goto_loc_ne _ _ hq]
    simp only [hsame]
    exact h.counter

/-- An application processor increments the counter. -/
theorem Joining.increment (h : Joining bsp s) {p : P} (hl : s.loc p = .booting) :
    Joining bsp (s.join p) where
  joined := by
    rw [join_loc_ne]
    · exact h.joined
    · rintro rfl
      simp [h.joined] at hl
  located q := by
    by_cases hq : q = p
    · subst hq
      exact .inr (.inr (join_loc_self ..))
    · rw [join_loc_ne _ hq]
      exact h.located q
  quiet := h.quiet
  unlocked := h.unlocked
  counter := counter_join (h.not_counted.mpr (.inr hl)) h.counter

omit [DecidableEq P] in
/-- Who passes the barrier finds everyone counted. -/
theorem Joining.all_counted (h : Joining bsp s) (hcard : Fintype.card P = apCount.toNat + 1)
    (hpass : ¬s.workingProcessorCount.toNat < apCount.toNat + 1) :
    s.workingProcessorCount.toNat = Fintype.card P ∧ ∀ p, s.loc p = .barrier := by
  have hle : (Finset.univ.filter fun p => (s.loc p).counted).card ≤ Fintype.card P :=
    Finset.card_le_univ _
  have hmod := Nat.mod_le (Finset.univ.filter fun p => (s.loc p).counted).card (2 ^ 16)
  rw [← h.counter] at hmod
  -- the counter holds no more than the processors there are, so `ap_count + 1` leaves nobody out
  have hall : (Finset.univ.filter fun p => (s.loc p).counted) = Finset.univ := by
    rw [← Finset.card_eq_iff_eq_univ]
    omega
  refine ⟨by omega, fun p => Loc.counted_iff.mp ?_⟩
  have hp : p ∈ Finset.univ.filter fun p => (s.loc p).counted := by
    rw [hall]
    exact Finset.mem_univ p
  exact (Finset.mem_filter.mp hp).2

/-! ## Nothing is left of the early calls -/

/-- The joining when nothing is left of the early calls. -/
structure Counting (bsp : P) (s : State P F) : Prop extends Joining bsp s where
  sent : ∀ p, s.pending p = []
  answered : ∀ p, s.loc p = .barrier → s.isr p = .idle
  runs_lt : ∀ r ∈ s.runs, r.call < s.nextCall
  acks_lt : ∀ a ∈ s.acks, a.2 < s.nextCall
  active_lt : ∀ p id, (s.isr p).call = some id → id < s.nextCall

/-- Up to the increment of the bootstrap processor, acknowledgements are of numbered calls. -/
theorem BootInv.acks_step (h : BootInv bsp s) (ha : ∀ a ∈ s.acks, a.2 < s.nextCall)
    (hs : Step bsp apCount s s') : ∀ a ∈ s'.acks, a.2 < s'.nextCall := by
  cases hs with
  | @isrAck q id hi =>
    intro a hmem
    rcases List.mem_append.mp hmem with hmem | hmem
    · exact ha a hmem
    · rw [List.mem_singleton.mp hmem]
      exact h.active_lt q id (by rw [hi]; rfl)
  | startCall | startEarlyCall => exact fun a hmem => (ha a hmem).trans (Nat.lt_succ_self _)
  | _ => exact ha

/-- The bootstrap processor joins quietly. -/
theorem BootInv.counting (h : BootInv bsp s) (ha : ∀ a ∈ s.acks, a.2 < s.nextCall)
    (hl : s.loc bsp = .booting) (hq : JoinsQuietly s) : Counting bsp (s.join bsp) where
  toJoining := h.join hl
  sent p := (hq p).1
  answered p hp := by
    by_cases hpb : p = bsp
    · subst hpb
      exact h.quiet.2
    · rw [join_loc_ne _ hpb] at hp
      exact (hq p).2 hp
  runs_lt := h.runs_lt
  acks_lt := ha
  active_lt := h.active_lt

/-- When everyone is counted, all is quiet. -/
theorem Counting.inv (h : Counting bsp s) (hw : s.workingProcessorCount.toNat = Fintype.card P)
    (hall : ∀ p, s.loc p = .barrier) : Inv s where
  working := hw
  located p := .inl (hall p)
  old_runs := h.runs_lt
  old_acks := h.acks_lt
  unsent p st c hl := by simp [hall p] at hl
  ids p q st c st' c' hl := by simp [hall p] at hl
  free _ := ⟨fun p => ⟨h.sent p, h.answered p (hall p)⟩, fun p st c hl => by simp [hall p] at hl⟩
  taken ht := by simp [h.unlocked] at ht

/-- The handler of a processor that is not counted yet moves on. -/
theorem Counting.of_isr (h : Counting bsp s) {q : P} {i : Isr F} (hq : s.isr q ≠ .idle)
    (hisr : s'.isr = Function.update s.isr q i)
    (hi : ∀ id, i.call = some id → (s.isr q).call = some id) (hloc : s'.loc = s.loc)
    (hp : s'.pending = s.pending) (hm : s'.ipcallMutex = s.ipcallMutex)
    (hw : s'.workingProcessorCount = s.workingProcessorCount) (hn : s'.nextCall = s.nextCall)
    (hruns : ∀ r ∈ s'.runs, r ∈ s.runs ∨ (s.isr q).call = some r.call)
    (hacks : ∀ a ∈ s'.acks, a ∈ s.acks ∨ (s.isr q).call = some a.2) : Counting bsp s' := by
  -- the handler is neither on the bootstrap processor nor on one that is counted
  have hne : bsp ≠ q := by
    rintro rfl
    exact hq h.quiet.2
  refine ⟨h.toJoining.of_isr hloc hm hw ⟨by rw [hp]; exact h.quiet.1, ?_⟩, by rw [hp]; exact h.sent,
    fun p hl => ?_, fun r hr => ?_, fun a ha => ?_, fun p id hid => ?_⟩
  · rw [hisr, Function.update_of_ne hne]
    exact h.quiet.2
  · rw [hloc] at hl
    have hpq : p ≠ q := by
      rintro rfl
      exact hq (h.answered p hl)
    rw [hisr, Function.update_of_ne hpq]
    exact h.answered p hl
  · rw [hn]
    exact (hruns r hr).elim (h.runs_lt r) (h.active_lt q _)
  · rw [hn]
    exact (hacks a ha).elim (h.acks_lt a) (h.active_lt q _)
  · rw [hn]
    rw [hisr] at hid
    by_cases hpq : p = q
    · subst hpq
      rw [Function.update_self] at hid
      exact h.active_lt p id (hi id hid)
    · rw [Function.update_of_ne hpq] at hid
      exact h.active_lt p id hid

/-- Every step of the joining keeps it quiet, until everyone is counted. -/
theorem Counting.step (h : Counting bsp s) (hcard : Fintype.card P = apCount.toNat + 1)
    (hs : Step bsp apCount s s') : Counting bsp s' ∨ Inv s' := by
  -- nobody makes a call
  have none_running : ∀ {p : P}, s.loc p ≠ .running ∧ ∀ st c, s.loc p ≠ .inCall st c := by
    intro p
    rcases h.located p with hl | hl | hl <;> simp [hl]
  cases hs with
  | @initApic p hl _ =>
    refine .inl ⟨h.toJoining.initApic hl, h.sent, fun q hq => ?_, h.runs_lt, h.acks_lt, h.active_lt⟩
    by_cases hqp : q = p
    · subst hqp
      simp at hq
    · rw [goto_loc_ne _ _ hqp] at hq
      exact h.answered q hq
  | @increment p hl hi =>
    refine .inl ⟨h.toJoining.increment hl, h.sent, fun q hq => ?_, h.runs_lt, h.acks_lt, h.active_lt⟩
    by_cases hqp : q = p
    · subst hqp
      exact hi
    · exact h.answered q ((join_loc_ne s hqp).symm.trans hq)
  | passBarrier hl hi hpass =>
    -- the first to pass finds everyone counted, and with that all is quiet
    obtain ⟨hw, hall⟩ := h.toJoining.all_counted hcard hpass
    have hstep : Step bsp apCount s _ := .passBarrier hl hi hpass
    exact .inr ((h.inv hw hall).step hstep)
  | startCall _ hl => exact absurd hl none_running.1
  | startEarlyCall _ hl => simp [h.joined] at hl
  | lockTest hl | lockRetry hl | lockXchg hl | setFun hl | setCount hl | broadcastYes hl
  | broadcastNo hl | sendIpi hl | waitCount hl | waitMore hl | waitDone hl | unlock hl =>
    exact absurd hl (none_running.2 _ _)
  | takeIpi hp _ => simp [h.sent] at hp
  | @isrLoad q id f hi _ =>
    exact .inl (h.of_isr (by simp [hi]) rfl (by simp [hi, Isr.call]) rfl rfl rfl rfl rfl
      (fun _ hr => .inl hr) fun _ ha => .inl ha)
  | @isrRun q id f hi =>
    refine .inl (h.of_isr (by simp [hi]) rfl (by simp [hi, Isr.call]) rfl rfl rfl rfl rfl
      (fun r hr => ?_) fun _ ha => .inl ha)
    refine (List.mem_append.mp hr).imp_right fun hr => ?_
    rw [List.mem_singleton.mp hr, hi]
    rfl
  | @isrEoi q id hi =>
    exact .inl (h.of_isr (by simp [hi]) rfl (by simp [hi, Isr.call]) rfl rfl rfl rfl rfl
      (fun _ hr => .inl hr) fun _ ha => .inl ha)
  | @isrAck q id hi =>
    refine .inl (h.of_isr (i := .idle) (by simp [hi]) rfl (by simp [Isr.call]) rfl rfl rfl rfl rfl
      (fun _ hr => .inl hr) fun a ha => ?_)
    refine (List.mem_append.mp ha).imp_right fun ha => ?_
    rw [List.mem_singleton.mp ha, hi]
    rfl

/-- In every run from a cold start, the bootstrap processor is counted in the boot
invariant, with a log of numbered calls. -/
theorem ColdStart.acks_lt {s₀ : State P F} (h₀ : ColdStart s₀)
    (hcard : Fintype.card P = apCount.toNat + 1) (hrun : Steps bsp apCount s₀ s)
    (hl : s.loc bsp = .booting) : ∀ a ∈ s.acks, a.2 < s.nextCall := by
  have hall : (BootInv bsp s ∧ ∀ a ∈ s.acks, a.2 < s.nextCall) ∨ Joined bsp s := by
    clear hl
    induction hrun with
    | refl => exact .inl ⟨h₀.toPowerOn.bootInv bsp, by simp [h₀.no_acks]⟩
    | tail _ hs ih =>
      rcases ih with ⟨hinv, hacks⟩ | ih
      · exact (hinv.step hcard hs).imp_left fun hinv' => ⟨hinv', hinv.acks_step hacks hs⟩
      · exact .inr (ih.step hs)
  -- once it is counted, the bootstrap processor does not come back to `booting`
  refine (hall.resolve_right fun h => ?_).2
  rcases h with h | h | ⟨st, c, h, -⟩ <;> simp [hl] at h

/-- When the bootstrap processor joins quietly, everyone past the barrier is in the
invariant of the calls after boot. -/
theorem JoinsQuietly.inv {s₀ : State P F} (hq : JoinsQuietly s) (h₀ : ColdStart s₀)
    (hcard : Fintype.card P = apCount.toNat + 1) (hrun : Steps bsp apCount s₀ s)
    (hl : s.loc bsp = .booting) (hrest : Steps bsp apCount (s.join bsp) s') {p : P}
    (hp : s'.loc p = .running ∨ ∃ st c, s'.loc p = .inCall st c) : Inv s' := by
  -- by induction on the rest of the run: the joining goes on, or it has ended in `Inv`
  have hall : Counting bsp s' ∨ Inv s' := by
    clear hp
    induction hrest with
    | refl =>
      exact .inl ((BootInv.of_run h₀.toPowerOn hcard hrun hl).counting (h₀.acks_lt hcard hrun hl) hl hq)
    | tail _ hs ih =>
      rcases ih with ih | ih
      · exact ih.step hcard hs
      · exact .inr (ih.step hs)
  -- while it goes on, nobody is past the barrier
  refine hall.resolve_left fun h => ?_
  rcases h.located p with hl | hl | hl <;> simp [hl] at hp

/-- When the bootstrap processor joins quietly, boot ends as `AfterBoot` says. -/
theorem JoinsQuietly.afterBoot {s₀ : State P F} (hq : JoinsQuietly s) (h₀ : ColdStart s₀)
    (hcard : Fintype.card P = apCount.toNat + 1) (hrun : Steps bsp apCount s₀ s)
    (hl : s.loc bsp = .booting) (hrest : Steps bsp apCount (s.join bsp) s')
    (hall : ∀ p, s'.loc p = .running) : AfterBoot s' :=
  (hq.inv h₀ hcard hrun hl hrest (p := bsp) (.inl (hall bsp))).afterBoot hall

end Boot

end KoalemOS.Smp
