import KoalemOS.Smp.ApHandOut
import KoalemOS.Smp.Joining
import Mathlib.Data.Fintype.Option

/-!
# One barrier for the start and for the calls

The start of the processors and the calls between them meet in `__kernel_init`: both count
processors in `working_processor_count` and wait for `ap_count + 1` of them. Seen from the calls,
the accesses with which stacks and TLS areas are handed out are no steps at all, and what is
left are the steps of the barrier.

- `ApStart.view`: a state of the start as the calls see it
- `ApStartInv.view_step`: an access is no step, or the steps of the barrier
- `steps_view`: the start is a run of the calls from power-on
- `apStart_afterBoot`: without early calls it ends as `AfterBoot` says
-/

namespace KoalemOS.Smp

variable {P F : Type} {count : UInt16} {width : Nat} {B : ApBuffers count width} {s s' : ApStart P} {p : P}

/-! ## What the calls see -/

/-- The bootstrap processor has enabled its local APIC before it comes to `boot_aps`. -/
def BspLoc.loc : BspLoc → Loc F
  | .barrier => .barrier
  | .returned => .running
  | _ => .booting

/-- An application processor enables its local APIC in `__kernel_init`, just before it is counted. -/
def ApLoc.loc : ApLoc → Loc F
  | .barrier => .barrier
  | .returned => .running
  | _ => .starting

theorem BspLoc.loc_of_not_working {l : BspLoc} (h : l.working = false) : (l.loc : Loc F) = .booting := by
  cases l <;> simp_all [BspLoc.loc, BspLoc.working]

theorem ApLoc.loc_of_not_working {l : ApLoc} (h : l.working = false) : (l.loc : Loc F) = .starting := by
  cases l <;> simp_all [ApLoc.loc, ApLoc.working]

/-- The state of the calls while no call is made and no interrupt is sent. -/
def silent (loc : P → Loc F) (working : UInt16) : State P F where
  loc := loc
  isr _ := .idle
  pending _ := []
  ipCallFun := none
  ipCallCount := 0
  ipcallMutex := false
  workingProcessorCount := working
  nextCall := 0
  runs := []
  acks := []

/-- Where a processor is; `none` is the bootstrap processor. -/
def ApStart.locOf (s : ApStart P) : Option P → Loc F
  | none => s.bsp.loc
  | some p => (s.ap p).loc

/-- The start as the calls see it. -/
def ApStart.view (s : ApStart P) : State (Option P) F := silent s.locOf s.workingProcessorCount

theorem coldStart_silent : ColdStart (silent (fun _ => .starting) 0 : State P F) :=
  ⟨⟨fun _ => rfl, fun _ => ⟨rfl, rfl⟩, rfl, rfl, rfl⟩, rfl⟩

theorem joinsQuietly_view (s : ApStart P) : JoinsQuietly (s.view : State (Option P) F) := fun _ => ⟨rfl, fun _ => rfl⟩

/-! ## Moves of one processor -/

section Moves

variable [DecidableEq P]

/-- An application processor moves. -/
theorem ApStart.view_ap {l : ApLoc} (hbsp : s'.bsp = s.bsp) (hap : s'.ap = Function.update s.ap p l) :
    (s'.view : State (Option P) F) =
      { s.view.goto (some p) l.loc with workingProcessorCount := s'.workingProcessorCount } := by
  have hloc : (s'.locOf : Option P → Loc F) = Function.update s.locOf (some p) l.loc := by
    funext q
    cases q with
    | none => simp [ApStart.locOf, hbsp]
    | some q =>
      by_cases hq : q = p
      · subst hq
        simp [ApStart.locOf, hap]
      · simp [ApStart.locOf, hap, hq]
  rw [ApStart.view, hloc]
  rfl

/-- The bootstrap processor moves. -/
theorem ApStart.view_bsp (hap : s'.ap = s.ap) :
    (s'.view : State (Option P) F) =
      { s.view.goto none s'.bsp.loc with workingProcessorCount := s'.workingProcessorCount } := by
  have hloc : (s'.locOf : Option P → Loc F) = Function.update s.locOf none s'.bsp.loc := by
    funext q
    cases q <;> simp [ApStart.locOf, hap]
  rw [ApStart.view, hloc]
  rfl

/-- Until an application processor is counted, the calls do not see it move. -/
theorem ApStart.view_ap_eq {l : ApLoc} (hbsp : s'.bsp = s.bsp) (hap : s'.ap = Function.update s.ap p l)
    (hcount : s'.workingProcessorCount = s.workingProcessorCount) (hl : (s.ap p).working = false)
    (hl' : l.working = false) : (s'.view : State (Option P) F) = s.view := by
  have hsame : (l.loc : Loc F) = s.view.loc (some p) :=
    (ApLoc.loc_of_not_working hl').trans (ApLoc.loc_of_not_working hl).symm
  rw [ApStart.view_ap hbsp hap, hcount, hsame, State.goto, Function.update_eq_self]
  rfl

/-- Nor the bootstrap processor. -/
theorem ApStart.view_bsp_eq (hap : s'.ap = s.ap) (hcount : s'.workingProcessorCount = s.workingProcessorCount)
    (hl : s.bsp.working = false) (hl' : s'.bsp.working = false) : (s'.view : State (Option P) F) = s.view := by
  have hsame : (s'.bsp.loc : Loc F) = s.view.loc none :=
    (BspLoc.loc_of_not_working hl').trans (BspLoc.loc_of_not_working hl).symm
  rw [ApStart.view_bsp hap, hcount, hsame, State.goto, Function.update_eq_self]
  rfl

theorem ApStart.view_goto (s : ApStart P) (p : P) (l : ApLoc) :
    ((s.goto p l).view : State (Option P) F) = s.view.goto (some p) l.loc :=
  ApStart.view_ap rfl rfl

/-- The bootstrap processor is counted. -/
theorem ApStart.view_join (s : ApStart P) :
    (ApStart.view { s with workingProcessorCount := s.workingProcessorCount + 1, bsp := .barrier } :
      State (Option P) F) = s.view.join none :=
  ApStart.view_bsp rfl

end Moves

/-! ## Every access -/

section Steps

variable [DecidableEq P] [Fintype P]

omit [DecidableEq P] in
/-- Who waits at the barrier reads the `ap_count` that the bootstrap processor has stored. -/
theorem ApStartInv.apCount_eq (hcard : Fintype.card P = count.toNat) (h : ApStartInv B s)
    (hwaits : s.bsp = .barrier ∨ ∃ p, s.ap p = .barrier) : s.apCount = count := by
  apply h.barrier.apCount
  rcases hwaits with hl | ⟨p, hl⟩
  · rw [hl]
    rfl
  · have hstack : (s.ap p).hasStack = true := by
      rw [hl]
      rfl
    exact (BspLoc.stackPublished_sets ((h.safe hcard).stack p hstack).1).1

/-- **An access of the start.** The calls see nothing of it, or the steps with which a processor is counted or
leaves the barrier. -/
theorem ApStartInv.view_step (hcard : Fintype.card P = count.toNat) (h : ApStartInv B s) (hs : ApStartStep B s s') :
    Steps none count (s.view : State (Option P) F) s'.view := by
  -- an access that the calls do not see is no step
  have stays : ∀ {t : State (Option P) F}, t = s.view → Steps none count s.view t := by
    rintro t rfl
    exact .refl
  cases hs with
  | bootAps hl | initMut hl | publishTls hl | setLimit hl | setSize hl | setPtr hl =>
    exact stays (ApStart.view_bsp_eq rfl rfl (by rw [hl]; rfl) rfl)
  | stackExchange hl | stackWait hl | stackCompare hl | tlsWait hl | tlsLoad hl | tlsExchange hl =>
    exact stays (ApStart.view_ap_eq rfl rfl rfl (by rw [hl]; rfl) (by split_ifs <;> rfl))
  | stackAdd hl | stackStore hl | stackUnlock hl | tlsTake hl | tlsCount hl | tlsUnlock hl =>
    exact stays (ApStart.view_ap_eq rfl rfl rfl (by rw [hl]; rfl) rfl)
  | bspCount hl =>
    have hbooting : (s.view : State (Option P) F).loc none = .booting := congrArg BspLoc.loc hl
    rw [ApStart.view_join]
    exact .single (.increment hbooting rfl)
  | bspPass hl hopen =>
    have hbarrier : (s.view : State (Option P) F).loc none = .barrier := congrArg BspLoc.loc hl
    have hmove : (ApStart.view { s with bsp := .returned } : State (Option P) F) = s.view.goto none .running :=
      ApStart.view_bsp rfl
    rw [ApStart.BarrierOpen, h.apCount_eq hcard (.inl hl)] at hopen
    rw [hmove]
    exact .single (.passBarrier hbarrier rfl hopen)
  | @apCount p hl =>
    -- the local APIC is enabled, and the processor is counted
    have hstarting : (s.view : State (Option P) F).loc (some p) = .starting := congrArg ApLoc.loc hl
    have hinit : Step none count s.view ((s.view : State (Option P) F).goto (some p) .booting) :=
      .initApic hstarting rfl
    have hcounted : Step none count ((s.view : State (Option P) F).goto (some p) .booting)
        { (s.view.goto (some p) .booting).goto (some p) .barrier with
          workingProcessorCount := s.workingProcessorCount + 1 } := .increment (goto_loc_self _ _ _) rfl
    have hmove : (ApStart.view ({ s with workingProcessorCount := s.workingProcessorCount + 1 }.goto p .barrier) :
        State (Option P) F) = { (s.view.goto (some p) .booting).goto (some p) .barrier with
          workingProcessorCount := s.workingProcessorCount + 1 } := by
      rw [ApStart.view_goto, State.goto, State.goto, State.goto, Function.update_idem]
      rfl
    rw [hmove]
    exact .tail (.single hinit) hcounted
  | @apPass p hl hopen =>
    have hbarrier : (s.view : State (Option P) F).loc (some p) = .barrier := congrArg ApLoc.loc hl
    rw [ApStart.BarrierOpen, h.apCount_eq hcard (.inr ⟨p, hl⟩)] at hopen
    rw [ApStart.view_goto]
    exact .single (.passBarrier hbarrier rfl hopen)

/-! ## Every run -/

/-- Any number of accesses. -/
theorem ApStartInv.view_steps (hcard : Fintype.card P = count.toNat) (h : ApStartInv B s) (hs : ApStartSteps B s s') :
    Steps none count (s.view : State (Option P) F) s'.view := by
  induction hs with
  | refl => exact .refl
  | tail hrun hstep ih => exact ih.trans ((h.steps hcard hrun).view_step hcard hstep)

/-- **The start as a run of the calls.** The processors start as they do before the first call. -/
theorem steps_view (hcard : Fintype.card P = count.toNat) (hs : ApStartSteps B (.powerOn P) s) :
    Steps none count (silent (fun _ => .starting) 0 : State (Option P) F) s.view := by
  -- the bootstrap processor comes to `boot_aps` with its local APIC enabled
  have hbsp : Step none count (silent (fun _ => .starting) 0 : State (Option P) F) (ApStart.powerOn P).view := by
    have hinit : (ApStart.powerOn P).view = (silent (fun _ => .starting) 0 : State (Option P) F).goto none .booting := by
      rw [ApStart.view, State.goto]
      have hloc : (ApStart.powerOn P).locOf = Function.update (fun _ => (.starting : Loc F)) none .booting := by
        funext q
        cases q <;> simp [ApStart.locOf, ApStart.powerOn, ApLoc.loc, BspLoc.loc]
      rw [hloc]
      rfl
    rw [hinit]
    exact .initApic rfl rfl
  exact .trans (.single hbsp) (apStartInv_powerOn.view_steps hcard hs)

omit [Fintype P] in
/-- The moment at which the bootstrap processor is counted. -/
theorem ApStartSteps.joins (hs : ApStartSteps B (.powerOn P) s) (hworking : s.bsp.working = true) :
    ∃ u, ApStartSteps B (.powerOn P) u ∧ u.bsp = .booted ∧
      ApStartSteps B { u with workingProcessorCount := u.workingProcessorCount + 1, bsp := .barrier } s := by
  induction hs with
  | refl => cases hworking
  | @tail t s hrun hstep ih =>
    -- the bootstrap processor becomes a working one by its increment and by no other access
    by_cases hbefore : t.bsp.working = true
    · obtain ⟨u, hu, hl, hrest⟩ := ih hbefore
      exact ⟨u, hu, hl, hrest.tail hstep⟩
    · cases hstep with
      | bspCount hl => exact ⟨t, hrun, hl, .refl⟩
      | bspPass hl => simp [hl, BspLoc.working] at hbefore
      | bootAps | initMut | publishTls | setLimit | setSize | setPtr => cases hworking
      | _ => exact absurd hworking hbefore

/-- **Boot without calls.** When everybody has left the barrier of the start, boot is over: what holds of the calls
after boot holds from there on. -/
theorem apStart_afterBoot (hcard : Fintype.card P = count.toNat) (hs : ApStartSteps B (.powerOn P) s)
    (hbsp : s.bsp = .returned) (haps : ∀ p, s.ap p = .returned) : AfterBoot (s.view : State (Option P) F) := by
  obtain ⟨u, hu, hl, hrest⟩ := hs.joins (by rw [hbsp]; rfl)
  have hcard' : Fintype.card (Option P) = count.toNat + 1 := by rw [Fintype.card_option, hcard]
  have hbooting : (u.view : State (Option P) F).loc none = .booting := congrArg BspLoc.loc hl
  have hjoined := (apStartInv_powerOn.steps hcard (hu.tail (.bspCount hl))).view_steps (F := F) hcard hrest
  rw [ApStart.view_join] at hjoined
  -- no call has been made, so that nothing is left of one
  refine (joinsQuietly_view u).afterBoot coldStart_silent hcard' (steps_view hcard hu) hbooting hjoined fun q => ?_
  cases q with
  | none => exact congrArg BspLoc.loc hbsp
  | some p => exact congrArg ApLoc.loc (haps p)

end Steps

end KoalemOS.Smp
