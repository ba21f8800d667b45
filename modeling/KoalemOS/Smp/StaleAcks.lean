import KoalemOS.Smp.Joining

/-!
# A late acknowledgement

When an interrupt of an early call is still on its way as the bootstrap processor is
counted, all processors can pass the barrier with it on its way. A call they make then
leaves its wait loop one acknowledgement too soon, and so do the calls after it.

- `FunStored`: `__ip_call_fun` is stored before the first interrupt is sent
- `Stuck`: the joining, while a processor has not answered an early call
- `Gathered`: a processor past the barrier can make a call
- `Gathered.round`: the call it makes leaves an interrupt on its way
- `callsComplete_iff`: calls after the barrier are complete in every continuation, exactly
  when the bootstrap processor joins quietly
-/

namespace KoalemOS.Smp

variable {P F : Type} [DecidableEq P] {bsp : P} {apCount : UInt16} {s s' : State P F}

/-! ## The function pointer -/

/-- Before the first store of `__ip_call_fun` no interrupt has been sent. -/
def FunStored (s : State P F) : Prop :=
  s.ipCallFun = none → Quiet s ∧
    ∀ p st c, s.loc p = .inCall st c → st = .lockTest ∨ st = .lockXchg ∨ st = .setFun

theorem FunStored.of_move (h : FunStored s) {p : P} {l : Loc F}
    (hloc : s'.loc = Function.update s.loc p l) (hf : s'.ipCallFun = s.ipCallFun)
    (hi : s'.isr = s.isr) (hp : s'.pending = s.pending)
    (hl : s.ipCallFun = none →
      ∀ st c, l = .inCall st c → st = .lockTest ∨ st = .lockXchg ∨ st = .setFun) :
    FunStored s' := by
  intro hnone
  rw [hf] at hnone
  obtain ⟨hq, hst⟩ := h hnone
  refine ⟨fun q => ?_, fun q st c hql => ?_⟩
  · rw [hi, hp]
    exact hq q
  · rw [hloc] at hql
    by_cases hqp : q = p
    · subst hqp
      rw [Function.update_self] at hql
      exact hl hnone st c hql
    · rw [Function.update_of_ne hqp] at hql
      exact hst q st c hql

/-- Every step keeps it. -/
theorem FunStored.step (h : FunStored s) (hs : Step bsp apCount s s') : FunStored s' := by
  cases hs with
  | initApic | increment | passBarrier =>
    exact h.of_move rfl rfl rfl rfl fun _ _ _ hl => by cases hl
  | startCall | startEarlyCall | lockTest | lockRetry | lockXchg =>
    exact h.of_move rfl rfl rfl rfl fun _ _ _ hl => by cases hl; simp
  | @unlock p c hl =>
    refine h.of_move rfl rfl rfl rfl fun hnone => ?_
    exact absurd ((h hnone).2 p _ c hl) (by simp)
  | setFun => exact fun hnone => by simp at hnone
  | @setCount p c hl | @broadcastYes p c hl | @broadcastNo p c hl | @waitCount p c hl
  | @waitMore p c k hl | @waitDone p c k hl =>
    refine h.of_move rfl rfl rfl rfl fun hnone => ?_
    exact absurd ((h hnone).2 p _ c hl) (by simp)
  | @sendIpi p c hl => exact fun hnone => absurd ((h hnone).2 p _ c hl) (by simp)
  | @takeIpi q id rest hp => exact fun hnone => by simp [((h hnone).1 q).1] at hp
  | isrLoad _ hf => exact fun hnone => by simp [show s.ipCallFun = none from hnone] at hf
  | @isrRun q id f hi | @isrEoi q id hi | @isrAck q id hi =>
    exact fun hnone => by simp [((h hnone).1 q).2] at hi

theorem ColdStart.funStored {s₀ : State P F} (h₀ : ColdStart s₀) (hrun : Steps bsp apCount s₀ s) :
    FunStored s := by
  induction hrun with
  | refl => exact fun _ => ⟨h₀.quiet, fun p st c hl => by simp [h₀.starting p] at hl⟩
  | tail _ hs ih => exact ih.step hs

/-! ## Everyone joins, one processor does not answer -/

variable [Fintype P]

/-- The joining, while processor `q` has not answered an early call. -/
structure Stuck (bsp q : P) (s : State P F) : Prop extends Joining bsp s where
  fn : ∃ f, s.ipCallFun = some f
  busy : s.pending q ≠ [] ∨ s.loc q = .barrier ∧ s.isr q ≠ .idle

variable {q : P}

/-- A processor that is not counted yet can return from its handler. -/
theorem Stuck.settle (h : Stuck bsp q s) (apCount : UInt16) {r : P} (hr : s.loc r ≠ .barrier) :
    ∃ t, Steps bsp apCount s t ∧ Stuck bsp q t ∧ t.loc = s.loc ∧ t.isr r = .idle := by
  by_cases hi : s.isr r = .idle
  · exact ⟨s, .refl, h, rfl, hi⟩
  obtain ⟨f, hf⟩ := h.fn
  obtain ⟨t, hsteps, hran, -, hidle, hleft⟩ := ack_once hf (.inr hi)
  have hbr : bsp ≠ r := by
    rintro rfl
    exact hr h.joined
  obtain ⟨hbi, hbp, -⟩ := hran.others bsp hbr
  refine ⟨t, hsteps, ⟨h.toJoining.of_isr hran.loc hran.mutex hran.working ?_, ?_, ?_⟩, hran.loc, hidle⟩
  · rw [hbi, hbp]
    exact h.quiet
  · rw [hran.fn]
    exact h.fn
  · by_cases hqr : q = r
    · -- the handler returns, but another interrupt is still on its way
      subst hqr
      have hp := h.busy.resolve_right fun hb => hr hb.1
      refine .inl ?_
      rw [hleft]
      cases hs : s.isr q with
      | idle => exact absurd hs hi
      | entered | loaded | ran | acked => simpa [State.left, hs] using hp
    · obtain ⟨hqi, hqp, -⟩ := hran.others q hqr
      rw [hqi, hqp, hran.loc]
      exact h.busy

/-- A processor that has enabled its APIC can be counted. -/
theorem Stuck.count (h : Stuck bsp q s) (apCount : UInt16) {r : P} (hr : s.loc r = .booting) :
    ∃ t, Steps bsp apCount s t ∧ Stuck bsp q t ∧ t.loc = Function.update s.loc r .barrier := by
  obtain ⟨t, hsteps, ht, hloc, hidle⟩ := h.settle apCount (r := r) (by simp [hr])
  have hl : t.loc r = .booting := by rw [hloc, hr]
  refine ⟨t.join r, hsteps.tail (.increment hl hidle), ⟨ht.toJoining.increment hl, ht.fn, ?_⟩, ?_⟩
  · refine ht.busy.imp_right fun hb => ⟨?_, hb.2⟩
    by_cases hqr : q = r
    · rw [hqr]
      exact join_loc_self ..
    · rw [join_loc_ne _ hqr]
      exact hb.1
  · show Function.update t.loc r .barrier = _
    rw [hloc]

/-- Any processor can be counted. -/
theorem Stuck.arrive (h : Stuck bsp q s) (apCount : UInt16) (r : P) :
    ∃ t, Steps bsp apCount s t ∧ Stuck bsp q t ∧ t.loc = Function.update s.loc r .barrier := by
  rcases h.located r with hl | hl | hl
  · obtain ⟨t, hsteps, ht, hloc, hidle⟩ := h.settle apCount (r := r) (by simp [hl])
    have hl' : t.loc r = .starting := by rw [hloc, hl]
    have hbusy : t.pending q ≠ [] ∨ (t.goto r .booting).loc q = .barrier ∧ t.isr q ≠ .idle := by
      refine ht.busy.imp_right fun hb => ⟨?_, hb.2⟩
      rw [goto_loc_ne]
      · exact hb.1
      · rintro rfl
        simp [hl'] at hb
    have hon : Stuck bsp q (t.goto r .booting) := ⟨ht.toJoining.initApic hl', ht.fn, hbusy⟩
    obtain ⟨u, hsteps', hu, hloc'⟩ := hon.count apCount (goto_loc_self ..)
    refine ⟨u, (hsteps.tail (.initApic hl' hidle)).trans hsteps', hu, ?_⟩
    rw [hloc', ← hloc]
    simp [State.goto]
  · exact h.count apCount hl
  · exact ⟨s, .refl, h, by rw [← hl, Function.update_eq_self]⟩

/-- All processors can be counted. -/
theorem Stuck.arriveAll (h : Stuck bsp q s) (apCount : UInt16) (l : List P) :
    ∃ t, Steps bsp apCount s t ∧ Stuck bsp q t ∧ ∀ r ∈ l, t.loc r = .barrier := by
  induction l with
  | nil => exact ⟨s, .refl, h, by simp⟩
  | cons r l ih =>
    obtain ⟨t, hsteps, ht, hall⟩ := ih
    obtain ⟨u, hsteps', hu, hloc⟩ := ht.arrive apCount r
    refine ⟨u, hsteps.trans hsteps', hu, fun x hx => ?_⟩
    rw [hloc]
    by_cases hxr : x = r
    · rw [hxr, Function.update_self]
    · rw [Function.update_of_ne hxr]
      exact hall x ((List.mem_cons.mp hx).resolve_left hxr)

/-! ## A call that leaves too soon -/

/-- Everyone is counted, the bootstrap processor is past the barrier, and nobody makes a call. -/
structure Gathered (bsp : P) (s : State P F) : Prop where
  caller : s.loc bsp = .running
  others : ∀ r, s.loc r = .barrier ∨ s.loc r = .running
  quiet : s.pending bsp = [] ∧ s.isr bsp = .idle
  unlocked : s.ipcallMutex = false
  working : s.workingProcessorCount.toNat = Fintype.card P
  fn : ∃ f, s.ipCallFun = some f

/-- The bootstrap processor makes a call, every processor acknowledges once, and a processor
that had something left to answer has again. -/
theorem Gathered.round (h : Gathered bsp s) (apCount : UInt16) (hqb : q ≠ bsp)
    (hbusy : s.pending q ≠ [] ∨ s.isr q ≠ .idle) :
    ∃ u c k, Steps bsp apCount s u ∧ c.early = false ∧
      u.loc = Function.update s.loc bsp (.inCall (.waitProcessors k) c) ∧
      Step bsp apCount u (u.goto bsp (.inCall .unlock c)) ∧ (∀ r, u.isr r = .idle) ∧
      u.pending q ≠ [] ∧ u.pending bsp = [] ∧
      u.workingProcessorCount = s.workingProcessorCount ∧ ∃ f, u.ipCallFun = some f := by
  obtain ⟨f, -⟩ := h.fn
  let c : Call F := ⟨f, s.nextCall, false⟩
  have hstart : Step bsp apCount s (s.begin bsp c) := .startCall f h.caller h.quiet.2
  obtain ⟨t, hcall, w⟩ := begin_waiting apCount (c := c) h.quiet.2 h.unlocked
  have hcard := s.workingProcessorCount.toNat_lt
  have hworking := h.working
  have hgt : 1 < Fintype.card P := Fintype.one_lt_card_iff.mpr ⟨q, bsp, hqb⟩
  let others := (Finset.univ.erase bsp).toList
  have hmem : ∀ r, r ∈ others ↔ r ≠ bsp := by simp [others]
  have hlen : others.length = Fintype.card P - 1 := by
    rw [Finset.length_toList, Finset.card_erase_of_mem (Finset.mem_univ _), Finset.card_univ]
  -- all have enabled their APIC, so that an interrupt reaches each of them
  have hon : ∀ r, (s.loc r).apicOn = true := by
    intro r
    rcases h.others r with hl | hl <;> simp [hl, Loc.apicOn]
  obtain ⟨t', hacks, w'⟩ : ∃ t', Steps bsp apCount t t' ∧ Waiting s bsp c others t' :=
    w.ackAll (by omega) others (Finset.nodup_toList _) (fun r hr => ⟨(hmem r).mp hr, hon r⟩) (by omega)
  obtain ⟨hwait, hdone⟩ := w'.leaves apCount (by omega)
  refine ⟨t'.atLimit bsp c, c, t'.ipCallCount, ((hcall.trans hacks).tail hwait).head hstart, rfl, ?_, hdone,
    fun r => ?_, (w'.answered q ((hmem q).mpr hqb)).2 hbusy, w'.caller.2.trans h.quiet.1, w'.working, f, w'.fn⟩
  · show Function.update t'.loc bsp _ = _
    rw [w'.loc, Function.update_idem]
  · by_cases hr : r = bsp
    · rw [hr]
      exact w'.caller.1
    · exact (w'.answered r ((hmem r).mpr hr)).1

omit [Fintype P] in
/-- Everyone at the barrier can pass it. -/
theorem passAll (hw : ¬s.workingProcessorCount.toNat < apCount.toNat + 1) (hidle : ∀ r, s.isr r = .idle)
    (hloc : ∀ r, s.loc r = .barrier ∨ s.loc r = .running) (l : List P) :
    ∃ L, Steps bsp apCount s { s with loc := L } ∧ (∀ r, L r = .barrier ∨ L r = .running) ∧
      ∀ r ∈ l, L r = .running := by
  induction l with
  | nil => exact ⟨s.loc, .refl, hloc, by simp⟩
  | cons r l ih =>
    obtain ⟨L, hsteps, hL, hl⟩ := ih
    rcases hL r with hr | hr
    · refine ⟨Function.update L r .running, hsteps.tail (.passBarrier hr (hidle r) hw), fun x => ?_, fun x hx => ?_⟩
      · by_cases hx : x = r
        · rw [hx, Function.update_self]
          exact .inr rfl
        · rw [Function.update_of_ne hx]
          exact hL x
      · by_cases hxr : x = r
        · rw [hxr, Function.update_self]
        · rw [Function.update_of_ne hxr]
          exact hl x ((List.mem_cons.mp hx).resolve_left hxr)
    · refine ⟨L, hsteps, hL, fun x hx => ?_⟩
      rcases List.mem_cons.mp hx with rfl | hx
      · exact hr
      · exact hl x hx

/-! ## The calls after the barrier -/

/-- The processor is past the barrier. -/
def Loc.past : Loc F → Bool
  | .running => true
  | .inCall _ c => !c.early
  | _ => false

/-- In every continuation, a call that leaves its wait loop when everyone is past the barrier
is complete. -/
def CallsComplete (bsp : P) (apCount : UInt16) (s : State P F) : Prop :=
  ∀ s₁ s₂, Steps bsp apCount s s₁ → Step bsp apCount s₁ s₂ → (∀ q, (s₁.loc q).past = true) →
    ∀ p c k, s₁.loc p = .inCall (.waitProcessors k) c → s₂.loc p = .inCall .unlock c →
      CallComplete s₂ p c

/-- A call of the bootstrap processor spoils the calls after it. -/
theorem Gathered.spoils (h : Gathered bsp s) (hcard : Fintype.card P = apCount.toNat + 1)
    (hqb : q ≠ bsp) (hbusy : s.pending q ≠ [] ∨ s.isr q ≠ .idle) :
    ¬CallsComplete bsp apCount s := by
  intro hall
  obtain ⟨u, c, k, hsteps, he, hloc, hdone, hidle, hq, hp, hw, hf⟩ := h.round apCount hqb hbusy
  -- the call returns, and everyone else passes the barrier
  let v : State P F := { (u.goto bsp (.inCall .unlock c)).goto bsp c.back with ipcallMutex := false }
  have hback : Step bsp apCount (u.goto bsp (.inCall .unlock c)) v := .unlock (goto_loc_self ..) (hidle bsp)
  have hworking : v.workingProcessorCount.toNat = Fintype.card P := by
    show u.workingProcessorCount.toNat = _
    rw [hw]
    exact h.working
  have hv : v.loc = Function.update s.loc bsp .running := by
    show Function.update (Function.update u.loc bsp _) bsp c.back = _
    rw [hloc, Function.update_idem, Function.update_idem, show c.back = Loc.running by simp [Call.back, he]]
  have hvloc : ∀ r, v.loc r = .barrier ∨ v.loc r = .running := by
    intro r
    rw [hv]
    by_cases hr : r = bsp
    · rw [hr, Function.update_self]
      exact .inr rfl
    · rw [Function.update_of_ne hr]
      exact h.others r
  have hpast : ¬v.workingProcessorCount.toNat < apCount.toNat + 1 := by omega
  obtain ⟨L, hpass, -, hL⟩ := @passAll _ _ _ bsp apCount v hpast hidle hvloc Finset.univ.toList
  have hrunning : ∀ r, L r = .running := fun r => hL r (by simp)
  have hagain : Gathered bsp { v with loc := L } :=
    ⟨hrunning bsp, fun r => .inr (hrunning r), ⟨hp, hidle bsp⟩, rfl, hworking, hf⟩
  -- the next call leaves its wait loop when everyone is past the barrier
  obtain ⟨u', c', k', hsteps', he', hloc', hdone', -, hq', -⟩ := hagain.round apCount hqb (.inl hq)
  have hend := hall u' _ ((((hsteps.tail hdone).tail hback).trans hpass).trans hsteps') hdone' (fun r => ?_) bsp c' k'
    (by rw [hloc', Function.update_self]) (goto_loc_self ..)
  · exact hq' (hend.quiet q).1
  · rw [hloc']
    by_cases hr : r = bsp
    · rw [hr, Function.update_self]
      simp [Loc.past, he']
    · rw [Function.update_of_ne hr]
      show (L r).past = true
      rw [hrunning r]
      rfl

/-- An early call that is not answered spoils the calls after boot. -/
theorem Stuck.spoils (h : Stuck bsp q s) (hcard : Fintype.card P = apCount.toNat + 1)
    (hlt : apCount.toNat < 65535) (hqb : q ≠ bsp) : ¬CallsComplete bsp apCount s := by
  intro hall
  obtain ⟨t, hsteps, ht, hbar⟩ := h.arriveAll apCount Finset.univ.toList
  have hcounted : ∀ r, t.loc r = .barrier := fun r => hbar r (by simp)
  have hworking : t.workingProcessorCount.toNat = Fintype.card P := by
    rw [ht.counter]
    simp only [hcounted, Loc.counted, Finset.filter_true, Finset.card_univ]
    omega
  have hpass : Step bsp apCount t (t.goto bsp .running) := .passBarrier ht.joined ht.quiet.2 (by omega)
  have hgathered : Gathered bsp (t.goto bsp .running) := by
    refine ⟨goto_loc_self .., fun r => ?_, ht.quiet, ht.unlocked, hworking, ht.fn⟩
    by_cases hr : r = bsp
    · rw [hr]
      exact .inr (goto_loc_self ..)
    · rw [goto_loc_ne _ _ hr]
      exact .inl (hcounted r)
  refine hgathered.spoils hcard hqb (ht.busy.imp_right fun hb => hb.2) fun s₁ s₂ h₁ => ?_
  exact hall s₁ s₂ ((hsteps.tail hpass).trans h₁)

/-! ## Exactly when they are complete -/

/-- Nobody has passed the barrier, and the bootstrap processor waits there. -/
structure Held (bsp : P) (s : State P F) : Prop where
  joined : s.loc bsp = .barrier
  located : ∀ p, s.loc p = .starting ∨ s.loc p = .booting ∨ s.loc p = .barrier

omit [Fintype P] in
/-- A processor on its way to the barrier goes on. -/
theorem Held.goto (h : Held bsp s) {p : P} {l : Loc F} (hloc : s'.loc = Function.update s.loc p l)
    (hp : s.loc p ≠ .barrier) (hl : l = .booting ∨ l = .barrier) : Held bsp s' := by
  have hne : bsp ≠ p := by
    rintro rfl
    exact hp h.joined
  refine ⟨by rw [hloc, Function.update_of_ne hne]; exact h.joined, fun r => ?_⟩
  rw [hloc]
  by_cases hr : r = p
  · rw [hr, Function.update_self]
    exact .inr hl
  · rw [Function.update_of_ne hr]
    exact h.located r

omit [Fintype P] in
/-- With 65535 application processors `working_processor_count` stays below the number of
all, and nobody passes the barrier. -/
theorem Held.step (h : Held bsp s) (hfull : apCount.toNat = 65535) (hs : Step bsp apCount s s') :
    Held bsp s' := by
  have none_running : ∀ {p : P}, s.loc p ≠ .running ∧ ∀ st c, s.loc p ≠ .inCall st c := by
    intro p
    rcases h.located p with hl | hl | hl <;> simp [hl]
  cases hs with
  | initApic hl => exact h.goto rfl (by simp [hl]) (.inl rfl)
  | increment hl => exact h.goto rfl (by simp [hl]) (.inr rfl)
  | passBarrier _ _ hpass =>
    have := s.workingProcessorCount.toNat_lt
    omega
  | startCall _ hl => exact absurd hl none_running.1
  | startEarlyCall _ hl => simp [h.joined] at hl
  | lockTest hl | lockRetry hl | lockXchg hl | setFun hl | setCount hl | broadcastYes hl
  | broadcastNo hl | sendIpi hl | waitCount hl | waitMore hl | waitDone hl | unlock hl =>
    exact absurd hl (none_running.2 _ _)
  | takeIpi | isrLoad | isrRun | isrEoi | isrAck => exact ⟨h.joined, h.located⟩

omit [Fintype P] in
theorem Held.steps (h : Held bsp s) (hfull : apCount.toNat = 65535) (hs : Steps bsp apCount s s') :
    Held bsp s' := by
  induction hs with
  | refl => exact h
  | tail _ hstep ih => exact ih.step hfull hstep

/-- **Inter-processor calls after boot.** In any run from power-on, as the bootstrap processor
is counted: in every continuation, every call that leaves its wait loop when everyone is past
the barrier is complete, if and only if nothing is left of the early calls (or there are so
many processors that nobody passes the barrier). -/
theorem callsComplete_iff {s₀ : State P F} (h₀ : ColdStart s₀)
    (hcard : Fintype.card P = apCount.toNat + 1) (hrun : Steps bsp apCount s₀ s)
    (hl : s.loc bsp = .booting) :
    CallsComplete bsp apCount (s.join bsp) ↔ JoinsQuietly s ∨ apCount.toNat = 65535 := by
  have hinv := BootInv.of_run h₀.toPowerOn hcard hrun hl
  constructor
  · -- a processor with something left to answer spoils the second call after the barrier
    intro hall
    by_contra hnot
    obtain ⟨hnot, hne⟩ := not_or.mp hnot
    have hlt := apCount.toNat_lt
    obtain ⟨q, hq⟩ := not_forall.mp hnot
    have hbusy : s.pending q ≠ [] ∨ s.loc q = .barrier ∧ s.isr q ≠ .idle := by
      by_contra hidle
      rw [not_or, not_not] at hidle
      exact hq ⟨hidle.1, fun hb => by_contra fun hi => hidle.2 ⟨hb, hi⟩⟩
    have hqb : q ≠ bsp := by
      rintro rfl
      rcases hbusy with hb | hb
      · exact hb hinv.quiet.1
      · simp [hl] at hb
    have hfn : ∃ f, s.ipCallFun = some f := by
      refine Option.ne_none_iff_exists'.mp fun hnone => ?_
      have := ((h₀.funStored hrun) hnone).1 q
      exact hbusy.elim (fun hb => hb this.1) fun hb => hb.2 this.2
    have hstuck : Stuck bsp q (s.join bsp) := by
      refine ⟨hinv.join hl, hfn, hbusy.imp_right fun hb => ⟨?_, hb.2⟩⟩
      rw [join_loc_ne _ hqb]
      exact hb.1
    exact hstuck.spoils hcard (by omega) hqb hall
  · rintro (hq | hfull) s₁ s₂ h₁ h₂ hpast p c k hl₁ hl₂
    · exact (hq.inv h₀ hcard hrun hl h₁ (.inr ⟨_, c, hl₁⟩)).complete h₂ hl₁ hl₂
    · have hheld : Held bsp s₁ := by
        have hjoin := hinv.join hl
        exact Held.steps ⟨hjoin.joined, hjoin.located⟩ hfull h₁
      have := hpast bsp
      simp [hheld.joined, Loc.past] at this

/-! ## Three processors -/

omit [DecidableEq P] [Fintype P]

/-- A bootstrap processor, 0, and two application processors at power-on. -/
def threeStarting : State (Fin 3) Nat where
  loc _ := .starting
  isr _ := .idle
  pending _ := []
  ipCallFun := none
  ipCallCount := 0
  ipcallMutex := false
  workingProcessorCount := 0
  nextCall := 0
  runs := []
  acks := []

theorem threeStarting_coldStart : ColdStart threeStarting :=
  ⟨⟨fun _ => rfl, fun _ => ⟨rfl, rfl⟩, rfl, rfl, rfl⟩, rfl⟩

/-- Both application processors are counted, and both answer the early call before the
bootstrap processor is counted. -/
theorem callsComplete_iff_three : ∃ s, Steps 0 2 threeStarting s ∧ s.runsOf 1 0 = [7] ∧ s.runsOf 2 0 = [7] ∧
    CallsComplete 0 2 (s.join 0) := by
  let e : Call Nat := ⟨7, 0, true⟩
  have counted : Steps 0 2 threeStarting _ :=
    ((((Relation.ReflTransGen.refl.tail (.initApic (p := 0) rfl rfl)).tail (.initApic (p := 1) rfl rfl)).tail
      (.initApic (p := 2) rfl rfl)).tail (.increment (p := 1) rfl rfl)).tail (.increment (p := 2) rfl rfl)
  have locked := ((counted.tail (.startEarlyCall 7 rfl rfl)).tail (.lockTest (p := 0) (c := e) rfl rfl rfl)).tail
    (.lockXchg (p := 0) (c := e) rfl rfl rfl)
  have sent := (((locked.tail (.setFun (p := 0) (c := e) rfl rfl)).tail (.setCount (p := 0) (c := e) rfl rfl)).tail
    (.broadcastYes (p := 0) (c := e) rfl rfl (by decide))).tail (.sendIpi (p := 0) (c := e) rfl rfl)
  have first := ((((sent.tail (.takeIpi (q := 1) rfl rfl)).tail (.isrLoad (q := 1) (f := 7) rfl rfl)).tail
    (.isrRun (q := 1) (f := 7) rfl)).tail (.isrEoi (q := 1) rfl)).tail (.isrAck (q := 1) rfl)
  have second := ((((first.tail (.takeIpi (q := 2) rfl rfl)).tail (.isrLoad (q := 2) (f := 7) rfl rfl)).tail
    (.isrRun (q := 2) (f := 7) rfl)).tail (.isrEoi (q := 2) rfl)).tail (.isrAck (q := 2) rfl)
  have back := ((second.tail (.waitCount (p := 0) (c := e) rfl rfl)).tail
    (.waitDone (p := 0) (c := e) (k := 2) rfl rfl (by decide))).tail (.unlock (p := 0) (c := e) rfl rfl)
  refine ⟨_, back, rfl, rfl, (callsComplete_iff threeStarting_coldStart (by decide) back rfl).mpr (.inl fun q => ?_)⟩
  fin_cases q <;> exact ⟨rfl, fun _ => rfl⟩

/-- The early call returns when processor 1 has answered it, all pass the barrier with its
interrupt on the way to processor 2, and the call of processor 0 counts the late
acknowledgement for its own: it leaves its wait loop before processor 2 has run its function. -/
theorem not_callsComplete_powerOn : ¬∀ s₀ : State (Fin 3) Nat, ColdStart s₀ → CallsComplete 0 2 s₀ := by
  intro hall
  let e : Call Nat := ⟨7, 0, true⟩
  let c : Call Nat := ⟨8, 1, false⟩
  have counted : Steps 0 2 threeStarting _ :=
    ((((Relation.ReflTransGen.refl.tail (.initApic (p := 0) rfl rfl)).tail (.initApic (p := 1) rfl rfl)).tail
      (.initApic (p := 2) rfl rfl)).tail (.increment (p := 1) rfl rfl)).tail (.increment (p := 2) rfl rfl)
  have locked := ((counted.tail (.startEarlyCall 7 rfl rfl)).tail (.lockTest (p := 0) (c := e) rfl rfl rfl)).tail
    (.lockXchg (p := 0) (c := e) rfl rfl rfl)
  have sent := (((locked.tail (.setFun (p := 0) (c := e) rfl rfl)).tail (.setCount (p := 0) (c := e) rfl rfl)).tail
    (.broadcastYes (p := 0) (c := e) rfl rfl (by decide))).tail (.sendIpi (p := 0) (c := e) rfl rfl)
  have first := ((((sent.tail (.takeIpi (q := 1) rfl rfl)).tail (.isrLoad (q := 1) (f := 7) rfl rfl)).tail
    (.isrRun (q := 1) (f := 7) rfl)).tail (.isrEoi (q := 1) rfl)).tail (.isrAck (q := 1) rfl)
  -- one acknowledgement of two is enough: the bootstrap processor is not counted
  have back := ((first.tail (.waitCount (p := 0) (c := e) rfl rfl)).tail
    (.waitDone (p := 0) (c := e) (k := 1) rfl rfl (by decide))).tail (.unlock (p := 0) (c := e) rfl rfl)
  have past := (((back.tail (.increment (p := 0) rfl rfl)).tail (.passBarrier (p := 0) rfl rfl (by decide))).tail
    (.passBarrier (p := 1) rfl rfl (by decide))).tail (.passBarrier (p := 2) rfl rfl (by decide))
  have locked' := ((past.tail (.startCall (p := 0) 8 rfl rfl)).tail (.lockTest (p := 0) (c := c) rfl rfl rfl)).tail
    (.lockXchg (p := 0) (c := c) rfl rfl rfl)
  have sent' := (((locked'.tail (.setFun (p := 0) (c := c) rfl rfl)).tail (.setCount (p := 0) (c := c) rfl rfl)).tail
    (.broadcastYes (p := 0) (c := c) rfl rfl (by decide))).tail (.sendIpi (p := 0) (c := c) rfl rfl)
  have first' := ((((sent'.tail (.takeIpi (q := 1) rfl rfl)).tail (.isrLoad (q := 1) (f := 8) rfl rfl)).tail
    (.isrRun (q := 1) (f := 8) rfl)).tail (.isrEoi (q := 1) rfl)).tail (.isrAck (q := 1) rfl)
  -- processor 2 answers the early call
  have late := ((((first'.tail (.takeIpi (q := 2) rfl rfl)).tail (.isrLoad (q := 2) (f := 8) rfl rfl)).tail
    (.isrRun (q := 2) (f := 8) rfl)).tail (.isrEoi (q := 2) rfl)).tail (.isrAck (q := 2) rfl)
  obtain ⟨s, run, hpast, hl, hi, hw, hq⟩ : ∃ s, Steps 0 2 threeStarting s ∧ (∀ q, (s.loc q).past = true) ∧
      s.loc 0 = .inCall (.waitProcessors 2) c ∧ s.isr 0 = .idle ∧ s.workingProcessorCount = 3 ∧ s.pending 2 = [1] := by
    refine ⟨_, late.tail (.waitCount (p := 0) (c := c) rfl rfl), fun q => ?_, rfl, rfl, rfl, rfl⟩
    fin_cases q <;> rfl
  have left : Step 0 2 s (s.goto 0 (.inCall .unlock c)) := .waitDone hl hi (by rw [hw]; decide)
  have hend := hall _ threeStarting_coldStart s _ run left hpast 0 c 2 hl (goto_loc_self ..)
  have := (hend.quiet 2).1
  simp [hq] at this

end KoalemOS.Smp
