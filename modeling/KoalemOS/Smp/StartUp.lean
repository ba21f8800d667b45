import KoalemOS.Smp.AfterBoot
import Mathlib.Tactic.FinCases

/-!
# Inter-processor calls during start-up

Before the bootstrap processor has added itself to `working_processor_count` it
already makes calls (`map_page` through `invalidate_tlbs_for`, while it prints or
allocates). The wait loop then compares with a count that does not include the
caller: it leaves after one acknowledgement too few.

- `Loc.counted`: the processor has incremented `working_processor_count`
- `BootInv`: what holds until the bootstrap processor increments the counter
- `ack_once`: a processor with an interrupt on its way can acknowledge one more
- `earlyCall_served_iff`: a call reaches every processor that was counted when it
  began, in every continuation, exactly when no processor was counted
-/

namespace KoalemOS.Smp

variable {P F : Type}

/-! ## States before the barrier -/

/-- The processor has incremented `working_processor_count` and waits at the barrier. -/
def Loc.counted : Loc F → Bool
  | .barrier => true
  | _ => false

/-- The call a handler works for. -/
def Isr.call : Isr F → Option Nat
  | .idle => none
  | .entered id | .loaded id _ | .ran id | .acked id => some id

theorem Loc.counted_iff {l : Loc F} : l.counted = true ↔ l = .barrier := by
  cases l <;> simp [Loc.counted]

/-- All processors have just been started. -/
structure PowerOn (s : State P F) : Prop where
  starting : ∀ p, s.loc p = .starting
  quiet : Quiet s
  uncounted : s.workingProcessorCount = 0
  unlocked : s.ipcallMutex = false
  no_runs : s.runs = []

/-- The location of the bootstrap processor until it increments the counter. -/
inductive EarlyLoc (s : State P F) : Loc F → Prop where
  | starting : EarlyLoc s .starting
  | booting : EarlyLoc s .booting
  | inCall (st : CallStage) (c : Call F) (he : c.early = true) (hid : c.id < s.nextCall) :
    EarlyLoc s (.inCall st c)

/-- An early location only depends on how many calls have been numbered. -/
theorem EarlyLoc.mono {s s' : State P F} {l : Loc F} (h : EarlyLoc s l)
    (hn : s.nextCall ≤ s'.nextCall) : EarlyLoc s' l := by
  cases h with
  | starting => exact .starting
  | booting => exact .booting
  | inCall st c he hid => exact .inCall st c he (hid.trans_le hn)

/-- An early location is before the increment of the counter. -/
theorem EarlyLoc.not_past {s : State P F} {l : Loc F} (h : EarlyLoc s l) :
    l.counted = false ∧ l ≠ .running ∧ l ≠ .barrier := by
  cases h <;> simp [Loc.counted]

/-- What holds until the bootstrap processor increments the counter. -/
structure BootInv [Fintype P] (bsp : P) (s : State P F) : Prop where
  others : ∀ p, p ≠ bsp → s.loc p = .starting ∨ s.loc p = .booting ∨ s.loc p = .barrier
  early : EarlyLoc s (s.loc bsp)
  quiet : s.pending bsp = [] ∧ s.isr bsp = .idle
  free : (∀ st c, s.loc bsp = .inCall st c → st.critical = false) → s.ipcallMutex = false
  counter : s.workingProcessorCount.toNat = (Finset.univ.filter fun p => (s.loc p).counted).card
  runs_lt : ∀ r ∈ s.runs, r.call < s.nextCall
  sent_lt : ∀ p, ∀ id ∈ s.pending p, id < s.nextCall
  active_lt : ∀ p id, (s.isr p).call = some id → id < s.nextCall

/-- The bootstrap processor has incremented the counter. -/
def Joined (bsp : P) (s : State P F) : Prop :=
  s.loc bsp = .barrier ∨ s.loc bsp = .running ∨ ∃ st c, s.loc bsp = .inCall st c ∧ c.early = false

/-- Past its increment, the bootstrap processor stays there. -/
theorem Joined.step [DecidableEq P] {bsp : P} {apCount : UInt16} {s s' : State P F}
    (h : Joined bsp s) (hs : Step bsp apCount s s') : Joined bsp s' := by
  -- a step of another processor leaves the bootstrap processor where it is
  have keep : ∀ {p : P} {l : Loc F}, p ≠ bsp → s'.loc = Function.update s.loc p l →
      Joined bsp s' := by
    intro p l hp hloc
    have hb : s'.loc bsp = s.loc bsp := by rw [hloc, Function.update_of_ne hp.symm]
    unfold Joined
    rw [hb]
    exact h
  have same : s'.loc = s.loc → Joined bsp s' := by
    intro hloc
    unfold Joined
    rw [hloc]
    exact h
  cases hs with
  | takeIpi | isrLoad | isrRun | isrEoi | isrAck => exact same rfl
  | @initApic p hl | @increment p hl =>
    refine keep ?_ rfl
    rintro rfl
    rcases h with h | h | ⟨st, c, h, -⟩ <;> simp [hl] at h
  | startEarlyCall f hl => rcases h with h | h | ⟨st, c, h, -⟩ <;> simp [hl] at h
  | @passBarrier p hl =>
    by_cases hp : p = bsp
    · subst hp
      exact .inr (.inl (goto_loc_self ..))
    · exact keep hp rfl
  | @startCall p f hl =>
    by_cases hp : p = bsp
    · subst hp
      exact .inr (.inr ⟨_, _, goto_loc_self .., rfl⟩)
    · exact keep hp rfl
  | @unlock p c hl =>
    by_cases hp : p = bsp
    · subst hp
      rcases h with h | h | ⟨st, c', h, he⟩
      · simp [hl] at h
      · simp [hl] at h
      · rw [hl] at h
        cases h
        refine .inr (.inl ?_)
        show (s.goto p c.back).loc p = .running
        simp [Call.back, he]
    · exact keep hp rfl
  | @lockTest p c hl | @lockRetry p c hl | @lockXchg p c hl | @setFun p c hl | @setCount p c hl
  | @broadcastYes p c hl | @broadcastNo p c hl | @sendIpi p c hl | @waitCount p c hl
  | @waitMore p c k hl | @waitDone p c k hl =>
    by_cases hp : p = bsp
    · subst hp
      rcases h with h | h | ⟨st, c', h, he⟩
      · simp [hl] at h
      · simp [hl] at h
      · rw [hl] at h
        cases h
        exact .inr (.inr ⟨_, _, goto_loc_self .., he⟩)
    · exact keep hp rfl

section Boot

variable [Fintype P] {bsp : P} {s s' : State P F}

theorem PowerOn.bootInv (h : PowerOn s) (bsp : P) : BootInv bsp s where
  others p _ := .inl (h.starting p)
  early := by
    rw [h.starting bsp]
    exact .starting
  quiet := h.quiet bsp
  free _ := h.unlocked
  counter := by
    have hnone : ∀ p, (s.loc p).counted = false := fun p => by rw [h.starting p]; rfl
    simp [h.uncounted, hnone]
  runs_lt := by simp [h.no_runs]
  sent_lt p id hid := by simp [(h.quiet p).1] at hid
  active_lt p id hid := by simp [(h.quiet p).2, Isr.call] at hid

/-- The counter stays below the number of processors. -/
theorem BootInv.counter_lt (h : BootInv bsp s) : s.workingProcessorCount.toNat < Fintype.card P := by
  rw [h.counter, ← Finset.card_univ]
  refine Finset.card_lt_card (Finset.filter_ssubset.mpr ⟨bsp, Finset.mem_univ _, ?_⟩)
  simp [h.early.not_past.1]

/-- An application processor has no call to make yet. -/
theorem BootInv.ap_not_running (h : BootInv bsp s) {p : P} (hp : p ≠ bsp) :
    s.loc p ≠ .running ∧ ∀ st c, s.loc p ≠ .inCall st c := by
  rcases h.others p hp with hl | hl | hl <;> simp [hl]

/-! ## Steps of the handlers -/

/-- A handler step of a processor other than the bootstrap processor. -/
theorem BootInv.of_isr (h : BootInv bsp s) (hloc : s'.loc = s.loc)
    (hm : s'.ipcallMutex = s.ipcallMutex)
    (hw : s'.workingProcessorCount = s.workingProcessorCount) (hn : s'.nextCall = s.nextCall)
    (hq : s'.pending bsp = s.pending bsp ∧ s'.isr bsp = s.isr bsp)
    (hruns : ∀ r ∈ s'.runs, r.call < s.nextCall)
    (hsent : ∀ p, ∀ id ∈ s'.pending p, id < s.nextCall)
    (hactive : ∀ p id, (s'.isr p).call = some id → id < s.nextCall) : BootInv bsp s' where
  others p hp := by rw [hloc]; exact h.others p hp
  early := by rw [hloc]; exact h.early.mono hn.ge
  quiet := by rw [hq.1, hq.2]; exact h.quiet
  free := by rw [hloc, hm]; exact h.free
  counter := by rw [hw, hloc]; exact h.counter
  runs_lt := by rw [hn]; exact hruns
  sent_lt := by rw [hn]; exact hsent
  active_lt := by rw [hn]; exact hactive

variable [DecidableEq P]

/-- The handler of `q` moves on, for the call it works for. -/
theorem BootInv.of_gotoIsr (h : BootInv bsp s) {q : P} {i : Isr F}
    (hq : s.isr q ≠ .idle) (hisr : s'.isr = Function.update s.isr q i)
    (hi : ∀ id, i.call = some id → (s.isr q).call = some id) (hloc : s'.loc = s.loc)
    (hp : s'.pending = s.pending) (hm : s'.ipcallMutex = s.ipcallMutex)
    (hw : s'.workingProcessorCount = s.workingProcessorCount) (hn : s'.nextCall = s.nextCall)
    (hruns : ∀ r ∈ s'.runs, r ∈ s.runs ∨ (s.isr q).call = some r.call) : BootInv bsp s' := by
  have hne : bsp ≠ q := by
    rintro rfl
    exact hq h.quiet.2
  refine h.of_isr hloc hm hw hn ⟨by rw [hp], by rw [hisr, Function.update_of_ne hne]⟩
    (fun r hr => ?_) (by rw [hp]; exact h.sent_lt) fun p id hid => ?_
  · rcases hruns r hr with hr | hr
    · exact h.runs_lt r hr
    · exact h.active_lt q _ hr
  · rw [hisr] at hid
    by_cases hpq : p = q
    · subst hpq
      rw [Function.update_self] at hid
      exact h.active_lt p id (hi id hid)
    · rw [Function.update_of_ne hpq] at hid
      exact h.active_lt p id hid

/-- A processor takes an interrupt. -/
theorem BootInv.takeIpi (h : BootInv bsp s) {q : P} {id : Nat} {rest : List Nat}
    (hp : s.pending q = id :: rest) :
    BootInv bsp { s.gotoIsr q (.entered id) with
      pending := Function.update s.pending q rest } := by
  have hne : bsp ≠ q := by
    rintro rfl
    simp [h.quiet.1] at hp
  refine h.of_isr rfl rfl rfl rfl ⟨Function.update_of_ne hne _ _, gotoIsr_isr_ne _ _ hne⟩
    h.runs_lt (fun p x hx => ?_) fun p x hx => ?_
  · change x ∈ Function.update s.pending q rest p at hx
    by_cases hpq : p = q
    · subst hpq
      rw [Function.update_self] at hx
      exact h.sent_lt p x (by simp [hp, hx])
    · rw [Function.update_of_ne hpq] at hx
      exact h.sent_lt p x hx
  · by_cases hpq : p = q
    · subst hpq
      have hx : (Isr.entered id : Isr F).call = some x := by
        simpa [State.gotoIsr] using hx
      simp only [Isr.call, Option.some.injEq] at hx
      exact h.sent_lt p x (by simp [hp, hx])
    · exact h.active_lt p x (by simpa [State.gotoIsr, hpq] using hx)

/-! ## Steps of the bootstrap processor -/

/-- The bootstrap processor moves inside the boot code. -/
theorem BootInv.of_bsp (h : BootInv bsp s) {l : Loc F}
    (hloc : s'.loc = Function.update s.loc bsp l) (hl : EarlyLoc s' l) (hisr : s'.isr = s.isr)
    (hruns : s'.runs = s.runs) (hw : s'.workingProcessorCount = s.workingProcessorCount)
    (hn : s.nextCall ≤ s'.nextCall) (hq : s'.pending bsp = s.pending bsp)
    (hsent : ∀ p, ∀ id ∈ s'.pending p, id ∈ s.pending p ∨ id < s'.nextCall)
    (hfree : (∀ st c, l = .inCall st c → st.critical = false) → s'.ipcallMutex = false) :
    BootInv bsp s' where
  others p hp := by rw [hloc, Function.update_of_ne hp]; exact h.others p hp
  early := by rw [hloc, Function.update_self]; exact hl
  quiet := by rw [hq, hisr]; exact h.quiet
  free := by rw [hloc, Function.update_self]; exact hfree
  counter := by
    rw [hw, h.counter]
    congr 1
    ext p
    simp only [Finset.mem_filter, Finset.mem_univ, true_and]
    by_cases hp : p = bsp
    · subst hp
      rw [hloc, Function.update_self, h.early.not_past.1, hl.not_past.1]
    · rw [hloc, Function.update_of_ne hp]
  runs_lt r hr := by
    rw [hruns] at hr
    exact (h.runs_lt r hr).trans_le hn
  sent_lt p id hid := by
    rcases hsent p id hid with hid | hid
    · exact (h.sent_lt p id hid).trans_le hn
    · exact hid
  active_lt p id hid := by
    rw [hisr] at hid
    exact (h.active_lt p id hid).trans_le hn

/-- The bootstrap processor moves on inside its call. -/
theorem BootInv.of_call (h : BootInv bsp s) {st st' : CallStage} {c : Call F}
    (hl : s.loc bsp = .inCall st c) (hloc : s'.loc = Function.update s.loc bsp (.inCall st' c))
    (hisr : s'.isr = s.isr) (hruns : s'.runs = s.runs)
    (hw : s'.workingProcessorCount = s.workingProcessorCount) (hn : s'.nextCall = s.nextCall)
    (hq : s'.pending bsp = s.pending bsp)
    (hsent : ∀ p, ∀ id ∈ s'.pending p, id ∈ s.pending p ∨ id = c.id)
    (hfree : st'.critical = false → s'.ipcallMutex = false) : BootInv bsp s' := by
  have hearly := h.early
  rw [hl] at hearly
  cases hearly with
  | inCall _ _ he hid =>
    refine h.of_bsp hloc (.inCall st' c he (by omega)) hisr hruns hw hn.ge hq ?_ ?_
    · intro p x hx
      rcases hsent p x hx with hx | rfl
      · exact .inl hx
      · exact .inr (by omega)
    · exact fun hc => hfree (hc st' c rfl)

/-! ## Steps of the application processors -/

/-- A processor that makes a call is the bootstrap processor. -/
theorem BootInv.caller (h : BootInv bsp s) {p : P} {st : CallStage} {c : Call F}
    (hl : s.loc p = .inCall st c) : p = bsp := by
  by_contra hp
  exact (h.ap_not_running hp).2 st c hl

/-- An application processor enables its local APIC. -/
theorem BootInv.initApic_ap (h : BootInv bsp s) {p : P} (hl : s.loc p = .starting)
    (hp : p ≠ bsp) : BootInv bsp (s.goto p .booting) where
  others q hq := by
    by_cases hqp : q = p
    · subst hqp
      exact .inr (.inl (goto_loc_self ..))
    · rw [goto_loc_ne _ _ hqp]
      exact h.others q hq
  early := by
    rw [goto_loc_ne _ _ hp.symm]
    exact h.early.mono le_rfl
  quiet := h.quiet
  free := by rw [goto_loc_ne _ _ hp.symm]; exact h.free
  counter := by
    rw [goto_workingProcessorCount, h.counter]
    congr 1
    ext q
    simp only [Finset.mem_filter, Finset.mem_univ, true_and]
    by_cases hqp : q = p
    · subst hqp
      rw [goto_loc_self, hl]
      rfl
    · rw [goto_loc_ne _ _ hqp]
  runs_lt := h.runs_lt
  sent_lt := h.sent_lt
  active_lt := h.active_lt

omit [Fintype P] in
/-- Only the processor that arrives at the barrier is counted anew. -/
theorem counted_goto_barrier (s : State P F) (p q : P) :
    ((s.goto p .barrier).loc q).counted = true ↔ q = p ∨ (s.loc q).counted = true := by
  by_cases hqp : q = p
  · subst hqp
    simp [Loc.counted]
  · rw [goto_loc_ne _ _ hqp]
    simp [hqp]

/-- A processor that arrives at the barrier is one more. -/
theorem card_counted_goto {p : P} (hl : (s.loc p).counted = false) :
    (Finset.univ.filter fun q => ((s.goto p .barrier).loc q).counted).card =
      (Finset.univ.filter fun q => (s.loc q).counted).card + 1 := by
  have hset : (Finset.univ.filter fun q => ((s.goto p .barrier).loc q).counted) =
      insert p (Finset.univ.filter fun q => (s.loc q).counted) := by
    ext q
    simp [counted_goto_barrier]
  rw [hset, Finset.card_insert_of_notMem (by simp [hl])]

/-- An application processor increments the counter. -/
theorem BootInv.increment_ap (h : BootInv bsp s) {p : P} (hl : s.loc p = .booting)
    (hp : p ≠ bsp) (hcard : Fintype.card P ≤ 2 ^ 16) :
    BootInv bsp { s.goto p .barrier with
      workingProcessorCount := s.workingProcessorCount + 1 } where
  others q hq := by
    by_cases hqp : q = p
    · subst hqp
      exact .inr (.inr (goto_loc_self ..))
    · show (s.goto p .barrier).loc q = _ ∨ _
      rw [goto_loc_ne _ _ hqp]
      exact h.others q hq
  early := by
    show EarlyLoc _ ((s.goto p .barrier).loc bsp)
    rw [goto_loc_ne _ _ hp.symm]
    exact h.early.mono le_rfl
  quiet := h.quiet
  free := by
    show (∀ st c, (s.goto p .barrier).loc bsp = _ → _) → _
    rw [goto_loc_ne _ _ hp.symm]
    exact h.free
  counter := by
    have hnew : (s.loc p).counted = false := by simp [hl, Loc.counted]
    -- the bootstrap processor is still missing, so the counter cannot wrap
    have hlt : (Finset.univ.filter fun q => ((s.goto p .barrier).loc q).counted).card <
        Fintype.card P := by
      rw [← Finset.card_univ]
      refine Finset.card_lt_card (Finset.filter_ssubset.mpr ⟨bsp, Finset.mem_univ _, ?_⟩)
      simp [counted_goto_barrier, hp.symm, h.early.not_past.1]
    rw [card_counted_goto hnew, ← h.counter] at hlt
    have hsum : (s.workingProcessorCount + 1).toNat = s.workingProcessorCount.toNat + 1 := by
      rw [UInt16.toNat_add, show (1 : UInt16).toNat = 1 from rfl]
      exact Nat.mod_eq_of_lt (by omega)
    show (s.workingProcessorCount + 1).toNat = (Finset.univ.filter fun q =>
      ((s.goto p .barrier).loc q).counted).card
    rw [hsum, card_counted_goto hnew, h.counter]
  runs_lt := h.runs_lt
  sent_lt := h.sent_lt
  active_lt := h.active_lt

/-! ## Every step -/

/-- Every step keeps the boot invariant, until the bootstrap processor increments the
counter. -/
theorem BootInv.step {apCount : UInt16} (h : BootInv bsp s)
    (hcard : Fintype.card P = apCount.toNat + 1) (hs : Step bsp apCount s s') :
    BootInv bsp s' ∨ Joined bsp s' := by
  have hap := apCount.toNat_lt
  cases hs with
  | @initApic p hl _ =>
    refine .inl ?_
    by_cases hp : p = bsp
    · subst hp
      refine h.of_bsp rfl .booting rfl rfl rfl le_rfl rfl (fun _ _ hx => .inl hx) fun _ => ?_
      exact h.free fun st c hr => by simp [hl] at hr
    · exact h.initApic_ap hl hp
  | @increment p hl _ =>
    by_cases hp : p = bsp
    · subst hp
      exact .inr (.inl (goto_loc_self ..))
    · exact .inl (h.increment_ap hl hp (by omega))
  | @passBarrier p hl _ hpass =>
    have := h.counter_lt
    omega
  | @startCall p f hl _ =>
    by_cases hp : p = bsp
    · subst hp
      exact absurd hl h.early.not_past.2.1
    · exact absurd hl (h.ap_not_running hp).1
  | startEarlyCall f hl _ =>
    refine .inl (h.of_bsp rfl (.inCall .lockTest ⟨f, s.nextCall, true⟩ rfl (Nat.lt_succ_self _))
      rfl rfl rfl (Nat.le_succ _) rfl (fun _ _ hx => .inl hx) fun _ => ?_)
    exact h.free fun st c hr => by simp [hl] at hr
  | lockTest hl _ hm =>
    obtain rfl := h.caller hl
    exact .inl (h.of_call hl rfl rfl rfl rfl rfl rfl (fun _ _ hx => .inl hx) fun _ => hm)
  | @lockRetry p c hl _ hm =>
    obtain rfl := h.caller hl
    have hfree := h.free fun st c' hr => by
      rw [hl] at hr
      cases hr
      rfl
    rw [hm] at hfree
    exact absurd hfree (by decide)
  | lockXchg hl _ _ | setFun hl _ | setCount hl _ | broadcastYes hl _ _ | broadcastNo hl _ _
  | waitCount hl _ | waitMore hl _ _ | waitDone hl _ _ =>
    obtain rfl := h.caller hl
    exact .inl (h.of_call hl rfl rfl rfl rfl rfl rfl (fun _ _ hx => .inl hx)
      fun hc => by simp [CallStage.critical] at hc)
  | @sendIpi p c hl _ =>
    obtain rfl := h.caller hl
    refine .inl (h.of_call hl rfl rfl rfl rfl rfl (by simp [State.broadcast]) (fun q x hx => ?_)
      fun hc => by simp [CallStage.critical] at hc)
    simp only [goto_pending, State.broadcast] at hx
    split_ifs at hx
    · simpa using hx
    · exact .inl hx
  | @unlock p c hl _ =>
    obtain rfl := h.caller hl
    have hearly := h.early
    rw [hl] at hearly
    cases hearly with
    | inCall _ _ he _ =>
      have hback : c.back = .booting := by simp [Call.back, he]
      refine .inl (h.of_bsp (l := .booting) ?_ .booting rfl rfl rfl le_rfl rfl
        (fun _ _ hx => .inl hx) fun _ => rfl)
      rw [← hback]
      rfl
  | takeIpi hp _ => exact .inl (h.takeIpi hp)
  | @isrLoad q id f hi hf =>
    exact .inl (h.of_gotoIsr (by simp [hi]) rfl (by simp [hi, Isr.call]) rfl rfl rfl rfl rfl
      fun r hr => .inl hr)
  | @isrRun q id f hi =>
    refine .inl (h.of_gotoIsr (by simp [hi]) rfl (by simp [hi, Isr.call]) rfl rfl rfl rfl rfl
      fun r hr => ?_)
    rcases List.mem_append.mp hr with hr | hr
    · exact .inl hr
    · refine .inr ?_
      rw [List.mem_singleton.mp hr, hi]
      rfl
  | @isrEoi q id hi =>
    exact .inl (h.of_gotoIsr (by simp [hi]) rfl (by simp [hi, Isr.call]) rfl rfl rfl rfl rfl
      fun r hr => .inl hr)
  | @isrAck q id hi =>
    exact .inl (h.of_gotoIsr (i := .idle) (by simp [hi]) rfl (by simp [Isr.call]) rfl rfl rfl rfl rfl
      fun r hr => .inl hr)

/-- In every run from power-on, a bootstrap processor still in its boot code finds the
boot invariant. -/
theorem BootInv.of_run {apCount : UInt16} {s₀ : State P F} (h₀ : PowerOn s₀)
    (hcard : Fintype.card P = apCount.toNat + 1) (hrun : Steps bsp apCount s₀ s)
    (hl : s.loc bsp = .booting) : BootInv bsp s := by
  have hall : BootInv bsp s ∨ Joined bsp s := by
    clear hl
    induction hrun with
    | refl => exact .inl (h₀.bootInv bsp)
    | tail _ hs ih =>
      rcases ih with ih | ih
      · exact ih.step hcard hs
      · exact .inr (ih.step hs)
  refine hall.resolve_right fun h => ?_
  rcases h with h | h | ⟨st, c, h, -⟩ <;> simp [hl] at h

end Boot

/-! ## One more acknowledgement -/

section Ack

variable [DecidableEq P] {bsp : P} {apCount : UInt16} {s s' s'' : State P F}

/-- Between the two states only the handler of `q` has run. -/
structure HandlerRan (q : P) (s s' : State P F) : Prop where
  loc : s'.loc = s.loc
  fn : s'.ipCallFun = s.ipCallFun
  mutex : s'.ipcallMutex = s.ipcallMutex
  working : s'.workingProcessorCount = s.workingProcessorCount
  others : ∀ r, r ≠ q → s'.isr r = s.isr r ∧ s'.pending r = s.pending r ∧
    ∀ id, s'.runsOf r id = s.runsOf r id

theorem HandlerRan.trans {q : P} (h : HandlerRan q s s') (h' : HandlerRan q s' s'') :
    HandlerRan q s s'' where
  loc := h'.loc.trans h.loc
  fn := h'.fn.trans h.fn
  mutex := h'.mutex.trans h.mutex
  working := h'.working.trans h.working
  others r hr := by
    obtain ⟨h1, h2, h3⟩ := h.others r hr
    obtain ⟨h1', h2', h3'⟩ := h'.others r hr
    exact ⟨h1'.trans h1, h2'.trans h2, fun id => (h3' id).trans (h3 id)⟩

/-- The interrupts on their way to `q` once its handler returns for the next time. -/
def State.left (s : State P F) (q : P) : List Nat :=
  match s.isr q with
  | .idle => (s.pending q).tail
  | _ => s.pending q

/-- From `s` the handler of `q` can run until it has acknowledged once more. -/
def CanAck (bsp : P) (apCount : UInt16) (q : P) (s : State P F) : Prop :=
  ∃ s', Steps bsp apCount s s' ∧ HandlerRan q s s' ∧ s'.ipCallCount = s.ipCallCount + 1 ∧
    s'.isr q = .idle ∧ s'.pending q = s.left q

theorem CanAck.of_step {q : P} (h : CanAck bsp apCount q s') (hs : Step bsp apCount s s')
    (hr : HandlerRan q s s') (hc : s'.ipCallCount = s.ipCallCount) (hl : s'.left q = s.left q) :
    CanAck bsp apCount q s := by
  obtain ⟨t, hsteps, hran, hcount, hi, hp⟩ := h
  exact ⟨t, .head hs hsteps, hr.trans hran, by rw [hcount, hc], hi, hp.trans hl⟩

theorem canAck_of_acked {q : P} {id : Nat} (hi : s.isr q = .acked id) :
    CanAck bsp apCount q s := by
  refine ⟨_, Relation.ReflTransGen.single (.isrAck hi), ⟨rfl, rfl, rfl, rfl, fun r hr => ?_⟩, rfl,
    gotoIsr_isr_self .., by simp [State.left, hi]⟩
  exact ⟨gotoIsr_isr_ne _ _ hr, rfl, fun _ => rfl⟩

theorem canAck_of_ran {q : P} {id : Nat} (hi : s.isr q = .ran id) : CanAck bsp apCount q s := by
  refine (canAck_of_acked (gotoIsr_isr_self s q (.acked id))).of_step (.isrEoi hi)
    ⟨rfl, rfl, rfl, rfl, fun r hr => ?_⟩ rfl (by simp [State.left, hi])
  exact ⟨gotoIsr_isr_ne _ _ hr, rfl, fun _ => rfl⟩

theorem canAck_of_loaded {q : P} {id : Nat} {f : F} (hi : s.isr q = .loaded id f) :
    CanAck bsp apCount q s := by
  have hran : CanAck bsp apCount q { s.gotoIsr q (.ran id) with runs := s.runs ++ [⟨q, id, f⟩] } :=
    canAck_of_ran (gotoIsr_isr_self s q (.ran id))
  refine hran.of_step (.isrRun hi) ⟨rfl, rfl, rfl, rfl, fun r hr => ?_⟩ rfl
    (by simp [State.left, hi, State.gotoIsr])
  exact ⟨gotoIsr_isr_ne _ _ hr, rfl, fun _ => runsOf_append_ne rfl (.inl hr)⟩

theorem canAck_of_entered {q : P} {id : Nat} {f : F} (hi : s.isr q = .entered id)
    (hf : s.ipCallFun = some f) : CanAck bsp apCount q s := by
  refine (canAck_of_loaded (gotoIsr_isr_self s q (.loaded id f))).of_step (.isrLoad hi hf)
    ⟨rfl, rfl, rfl, rfl, fun r hr => ?_⟩ rfl (by simp [State.left, hi])
  exact ⟨gotoIsr_isr_ne _ _ hr, rfl, fun _ => rfl⟩

/-- A processor whose handler is active, or that has an interrupt on its way, can
acknowledge once more. -/
theorem ack_once {q : P} {f : F} (hf : s.ipCallFun = some f)
    (hq : s.pending q ≠ [] ∨ s.isr q ≠ .idle) : CanAck bsp apCount q s := by
  cases hi : s.isr q with
  | entered id => exact canAck_of_entered hi hf
  | loaded id g => exact canAck_of_loaded hi
  | ran id => exact canAck_of_ran hi
  | acked id => exact canAck_of_acked hi
  | idle =>
    cases hp : s.pending q with
    | nil => exact absurd hq (by simp [hi, hp])
    | cons id rest =>
      have hentered : CanAck bsp apCount q
          { s.gotoIsr q (.entered id) with pending := Function.update s.pending q rest } :=
        canAck_of_entered (gotoIsr_isr_self s q (.entered id)) hf
      refine hentered.of_step (.takeIpi hp hi) ⟨rfl, rfl, rfl, rfl, fun r hr => ?_⟩ rfl
        (by simp [State.left, State.gotoIsr, hi, hp])
      exact ⟨gotoIsr_isr_ne _ _ hr, Function.update_of_ne hr _ _, fun _ => rfl⟩

/-! ## An early call that leaves a processor out -/

/-- The state in which the bootstrap processor has just entered a call of `f`. -/
def State.earlyCall (s : State P F) (bsp : P) (f : F) : State P F :=
  { s.goto bsp (.inCall .lockTest ⟨f, s.nextCall, true⟩) with nextCall := s.nextCall + 1 }

/-- Every continuation of the call of `f` begun in `s` returns only after all processors
counted in `s` have run `f` for it. -/
def EarlyCallServed (bsp : P) (apCount : UInt16) (s : State P F) (f : F) : Prop :=
  ∀ s₁ s₂, Steps bsp apCount (s.earlyCall bsp f) s₁ → Step bsp apCount s₁ s₂ →
    s₁.loc bsp = .inCall .unlock ⟨f, s.nextCall, true⟩ → s₂.loc bsp = .booting →
    ∀ a, a ≠ bsp → s.loc a = .barrier → f ∈ s₂.runsOf a s.nextCall

/-- Call `c` of the bootstrap processor, begun in `s`, has been broadcast as far as the counter
required it, and the processors in `acked` have acknowledged once since. -/
structure Waiting (s : State P F) (bsp : P) (c : Call F) (acked : List P) (t : State P F) : Prop where
  loc : t.loc = Function.update s.loc bsp (.inCall .waitCount c)
  fn : t.ipCallFun = some c.fn
  count : t.ipCallCount.toNat = acked.length
  working : t.workingProcessorCount = s.workingProcessorCount
  caller : t.isr bsp = .idle ∧ t.pending bsp = s.pending bsp
  sent : s.workingProcessorCount.toNat > 1 → ∀ q, q ∉ acked → q ≠ bsp → (s.loc q).apicOn = true →
    t.pending q = s.pending q ++ [c.id] ∧ t.isr q = s.isr q
  answered : ∀ q ∈ acked, t.isr q = .idle ∧
    (s.pending q ≠ [] ∨ s.isr q ≠ .idle → t.pending q ≠ [])
  runs : ∀ q, q ∉ acked → t.runsOf q c.id = s.runsOf q c.id

/-- One more processor acknowledges. -/
theorem Waiting.ack {c : Call F} {acked : List P} {t : State P F} (w : Waiting s bsp c acked t)
    (hw : s.workingProcessorCount.toNat > 1) {q : P} (hq : q ∉ acked) (hqb : q ≠ bsp)
    (hon : (s.loc q).apicOn = true) (hlen : acked.length + 1 < 2 ^ 16) :
    ∃ t', Steps bsp apCount t t' ∧ Waiting s bsp c (q :: acked) t' := by
  obtain ⟨hpend, hisr⟩ := w.sent hw q hq hqb hon
  obtain ⟨t', hsteps, hran, hcount, hidle, hleft⟩ := ack_once (q := q) w.fn (.inl (by simp [hpend]))
  have hout : ∀ {r : P}, r ∉ q :: acked → r ≠ q ∧ r ∉ acked := by simp
  refine ⟨t', hsteps, hran.loc.trans w.loc, hran.fn.trans w.fn, ?_, hran.working.trans w.working,
    ?_, fun _ r hr hrb hron => ?_, fun r hr => ?_, fun r hr => ?_⟩
  · rw [hcount, UInt16.toNat_add, w.count, show (1 : UInt16).toNat = 1 from rfl]
    exact Nat.mod_eq_of_lt hlen
  · rw [(hran.others bsp hqb.symm).1, (hran.others bsp hqb.symm).2.1]
    exact w.caller
  · rw [(hran.others r (hout hr).1).1, (hran.others r (hout hr).1).2.1]
    exact w.sent hw r (hout hr).2 hrb hron
  · by_cases hrq : r = q
    · subst hrq
      refine ⟨hidle, fun hbusy => ?_⟩
      rw [hleft]
      -- what was on its way to `r`, or the interrupt of this call, is still to come
      cases hi : s.isr r with
      | idle =>
        obtain ⟨id, rest, hp⟩ := List.exists_cons_of_ne_nil (hbusy.resolve_right (by simp [hi]))
        simp [State.left, hisr, hi, hpend, hp]
      | entered | loaded | ran | acked => simp [State.left, hisr, hi, hpend]
    · rw [(hran.others r hrq).1, (hran.others r hrq).2.1]
      exact w.answered r ((List.mem_cons.mp hr).resolve_left hrq)
  · rw [(hran.others r (hout hr).1).2.2]
    exact w.runs r (hout hr).2

/-- Any duplicate-free list of processors can acknowledge, one after the other. -/
theorem Waiting.ackAll {c : Call F} {t : State P F} (w : Waiting s bsp c [] t)
    (hw : s.workingProcessorCount.toNat > 1) (l : List P) (hnd : l.Nodup)
    (hl : ∀ q ∈ l, q ≠ bsp ∧ (s.loc q).apicOn = true) (hlen : l.length < 2 ^ 16) :
    ∃ t', Steps bsp apCount t t' ∧ Waiting s bsp c l t' := by
  induction l with
  | nil => exact ⟨t, .refl, w⟩
  | cons q l ih =>
    obtain ⟨hq, hnd⟩ := List.nodup_cons.mp hnd
    have hlen : l.length + 1 < 2 ^ 16 := hlen
    obtain ⟨t', hsteps, w'⟩ := ih hnd (fun r hr => hl r (List.mem_cons_of_mem _ hr)) (by omega)
    obtain ⟨hqb, hon⟩ := hl q List.mem_cons_self
    obtain ⟨t'', hsteps', w''⟩ := w'.ack hw hq hqb hon hlen
    exact ⟨t'', hsteps.trans hsteps', w''⟩

/-- The caller in its wait loop, with the count it has loaded. -/
def State.atLimit (t : State P F) (bsp : P) (c : Call F) : State P F :=
  t.goto bsp (.inCall (.waitProcessors t.ipCallCount) c)

/-- With enough acknowledgements the caller leaves its wait loop. -/
theorem Waiting.leaves (apCount : UInt16) {c : Call F} {acked : List P} {t : State P F}
    (w : Waiting s bsp c acked t) (hle : s.workingProcessorCount.toNat ≤ acked.length + 1) :
    Step bsp apCount t (t.atLimit bsp c) ∧
      Step bsp apCount (t.atLimit bsp c) ((t.atLimit bsp c).goto bsp (.inCall .unlock c)) := by
  have hwait : t.loc bsp = .inCall .waitCount c := by rw [w.loc, Function.update_self]
  have hdone : ¬(t.ipCallCount.toNat : Int) < t.workingProcessorCount.toNat - 1 := by
    rw [w.working, w.count]
    omega
  exact ⟨.waitCount hwait w.caller.1, .waitDone (goto_loc_self ..) w.caller.1 hdone⟩

/-- The state in which the bootstrap processor has just entered call `c`. -/
def State.begin (s : State P F) (bsp : P) (c : Call F) : State P F :=
  { s.goto bsp (.inCall .lockTest c) with nextCall := s.nextCall + 1 }

/-- The caller gets as far as its wait loop without any other processor moving. -/
theorem begin_waiting (apCount : UInt16) {c : Call F} (hidle : s.isr bsp = .idle)
    (hfree : s.ipcallMutex = false) :
    ∃ t, Steps bsp apCount (s.begin bsp c) t ∧ Waiting s bsp c [] t := by
  let s₁ := (s.begin bsp c).goto bsp (.inCall .lockXchg c)
  let s₂ := { s₁.goto bsp (.inCall .setFun c) with ipcallMutex := true }
  let s₃ := { s₂.goto bsp (.inCall .setCount c) with ipCallFun := some c.fn }
  let s₄ := { s₃.goto bsp (.inCall .broadcastTest c) with ipCallCount := 0 }
  have h₁ : Steps bsp apCount (s.begin bsp c) s₁ := .single (.lockTest (goto_loc_self ..) hidle hfree)
  have h₂ : Steps bsp apCount (s.begin bsp c) s₂ := h₁.tail (.lockXchg (goto_loc_self ..) hidle hfree)
  have h₃ : Steps bsp apCount (s.begin bsp c) s₃ := h₂.tail (.setFun (goto_loc_self ..) hidle)
  have h₄ : Steps bsp apCount (s.begin bsp c) s₄ := h₃.tail (.setCount (goto_loc_self ..) hidle)
  have hloc : ∀ l, Function.update s₄.loc bsp l = Function.update s.loc bsp l := by
    intro l
    simp only [s₄, s₃, s₂, s₁, State.goto, State.begin, Function.update_idem]
  have hat : s₄.loc bsp = .inCall .broadcastTest c := goto_loc_self ..
  by_cases hw : s.workingProcessorCount.toNat > 1
  · let s₅ := s₄.goto bsp (.inCall .sendIpi c)
    have h₅ : Steps bsp apCount (s.begin bsp c) s₅ := h₄.tail (.broadcastYes hat hidle hw)
    refine ⟨_, h₅.tail (.sendIpi (goto_loc_self ..) hidle), ?_, rfl, rfl, rfl, ⟨hidle, ?_⟩,
      fun _ q _ hqb hon => ⟨?_, rfl⟩, by simp, fun _ _ => rfl⟩
    · show Function.update (Function.update s₄.loc bsp _) bsp _ = _
      rw [Function.update_idem]
      exact hloc _
    · show (s₅.broadcast bsp c.id).pending bsp = _
      simp only [State.broadcast, ne_eq, not_true_eq_false, false_and, if_false]
      rfl
    · have hon' : (s₅.loc q).apicOn = true := by
        show (Function.update s₄.loc bsp _ q).apicOn = true
        rw [hloc, Function.update_of_ne hqb]
        exact hon
      show (s₅.broadcast bsp c.id).pending q = _
      simp only [State.broadcast, ne_eq, hqb, hon', not_false_eq_true, and_self, if_true]
      rfl
  · exact ⟨_, h₄.tail (.broadcastNo hat hidle hw), hloc _, rfl, rfl, rfl, ⟨hidle, rfl⟩,
      fun hgt => absurd hgt hw, by simp, fun _ _ => rfl⟩

end Ack

section Schedule

variable [DecidableEq P] [Fintype P] {bsp : P} {apCount : UInt16} {s : State P F}

/-- A counted processor can be left out: the others acknowledge, the caller returns. -/
theorem BootInv.leave_out (h : BootInv bsp s) (hl : s.loc bsp = .booting) (f : F) {a : P}
    (ha : s.loc a = .barrier) : ¬EarlyCallServed bsp apCount s f := by
  intro hserved
  let c : Call F := ⟨f, s.nextCall, true⟩
  have hfree : s.ipcallMutex = false := h.free fun st c hr => by simp [hl] at hr
  obtain ⟨t, hcall, w⟩ := begin_waiting apCount (c := c) h.quiet.2 hfree
  have hne : ∀ {q}, s.loc q = .barrier → q ≠ bsp := by
    rintro q hq rfl
    exact h.early.not_past.2.2 hq
  let others := (Finset.univ.filter fun q => (s.loc q).counted).erase a
  have hmem : ∀ {q}, q ∈ others.toList ↔ q ≠ a ∧ s.loc q = .barrier := by
    intro q
    simp [others, Loc.counted_iff]
  have hcard : others.toList.length + 1 = s.workingProcessorCount.toNat := by
    rw [Finset.length_toList, h.counter]
    exact Finset.card_erase_add_one (by simp [ha, Loc.counted_iff])
  have hlt := s.workingProcessorCount.toNat_lt
  obtain ⟨t', hacks, w'⟩ : ∃ t', Steps bsp apCount t t' ∧ Waiting s bsp c others.toList t' := by
    by_cases hw : s.workingProcessorCount.toNat > 1
    · refine w.ackAll hw _ (Finset.nodup_toList _) (fun q hq => ?_) (by omega)
      exact ⟨hne (hmem.mp hq).2, by rw [(hmem.mp hq).2]; rfl⟩
    · have hnil : others.toList = [] := List.eq_nil_of_length_eq_zero (by omega)
      rw [hnil]
      exact ⟨t, .refl, w⟩
  obtain ⟨hwait, hdone⟩ := w'.leaves apCount hcard.ge
  have hback : Step bsp apCount ((t'.atLimit bsp c).goto bsp (.inCall .unlock c)) _ :=
    .unlock (goto_loc_self ..) w'.caller.1
  have hran := hserved _ _ (((hcall.trans hacks).tail hwait).tail hdone) hback (goto_loc_self ..)
    (goto_loc_self _ bsp c.back) a (hne ha) ha
  change f ∈ t'.runsOf a c.id at hran
  rw [w'.runs a (by simp [hmem]), runsOf_eq_nil fun r hr => (h.runs_lt r hr).ne] at hran
  simp at hran

/-- **Inter-processor calls during start-up.** In any run from power-on, when the
bootstrap processor begins a call in its boot code: every continuation of the run returns
from the call only after each processor that was counted when the call began has run the
function for it, if and only if no processor was counted then. -/
theorem earlyCall_served_iff {s₀ : State P F} (h₀ : PowerOn s₀)
    (hcard : Fintype.card P = apCount.toNat + 1) (hrun : Steps bsp apCount s₀ s)
    (hl : s.loc bsp = .booting) (f : F) :
    EarlyCallServed bsp apCount s f ↔ ∀ a, s.loc a ≠ .barrier := by
  have hinv := BootInv.of_run h₀ hcard hrun hl
  constructor
  · intro hserved a ha
    exact hinv.leave_out hl f ha hserved
  · intro hnone s₁ s₂ _ _ _ _ a _ ha
    exact absurd ha (hnone a)

end Schedule

/-! ## Two processors -/

/-- A bootstrap processor, 0, and an application processor, 1, at power-on. -/
def twoStarting : State (Fin 2) Nat where
  loc _ := .starting
  isr _ := .idle
  pending _ := []
  ipCallFun := none
  ipCallCount := 0
  ipcallMutex := false
  workingProcessorCount := 0
  nextCall := 0
  runs := []
  acks := []

theorem twoStarting_powerOn : PowerOn twoStarting :=
  ⟨fun _ => rfl, fun _ => ⟨rfl, rfl⟩, rfl, rfl, rfl⟩

/-- Before processor 1 is counted, a call of processor 0 owes it nothing. -/
theorem earlyCall_served_iff_two : ∃ s, Steps 0 1 twoStarting s ∧ s.loc 0 = .booting ∧
    EarlyCallServed 0 1 s 7 := by
  have hrun : Steps 0 1 twoStarting (twoStarting.goto 0 .booting) :=
    .single (.initApic rfl rfl)
  refine ⟨_, hrun, rfl, ?_⟩
  refine (earlyCall_served_iff twoStarting_powerOn (by decide) hrun rfl 7).mpr fun a => ?_
  fin_cases a <;> simp [State.goto, twoStarting]

/-- Once processor 1 is counted, processor 0 returns from a call without it. -/
theorem earlyCall_misses_counted : ¬∀ s, Steps 0 1 twoStarting s → s.loc 0 = .booting →
    ∀ f, EarlyCallServed 0 1 s f := by
  intro hall
  let booted := (twoStarting.goto 0 .booting).goto 1 .booting
  let s : State (Fin 2) Nat := { booted.goto 1 .barrier with
    workingProcessorCount := booted.workingProcessorCount + 1 }
  have hrun : Steps 0 1 twoStarting s :=
    ((Relation.ReflTransGen.single (.initApic rfl rfl)).tail (.initApic rfl rfl)).tail
      (.increment rfl rfl)
  have hinv : BootInv 0 s := .of_run twoStarting_powerOn (by decide) hrun rfl
  exact hinv.leave_out rfl 7 (a := 1) rfl (hall s hrun rfl 7)

end KoalemOS.Smp
