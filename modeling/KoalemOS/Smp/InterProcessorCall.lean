import Mathlib.Algebra.Group.Nat.Defs
import Mathlib.Data.Fintype.Card
import Mathlib.Logic.Function.Basic
import Mathlib.Logic.Relation

/-!
# Inter-processor calls as a transition system

The processors run `__kernel_init` (`src/kernel/kernel_start.c`), the callers run
`inter_processor_call` (`src/kernel/apic.c`) around the spin lock of
`src/libc/threads.c`, and every processor answers the interrupt with
`isr_inter_processor_call` (`src/kernel/isr/inter_processor_call.c`). A step is one
access to shared memory or one interrupt event; any processor may take the next one.

- `Loc`: where a processor is in the code it runs outside the interrupt handler
- `Isr`: where it is in the handler, which masks further interrupts until it returns
- `State`: the shared variables, the interrupts on their way, and two ghost logs
- `Step`: the transitions
-/

namespace KoalemOS.Smp

/-! ## Program locations -/

/-- The shared-memory steps of `inter_processor_call`, in program order.
`mtx_lock` is a test followed by an exchange; the wait loop loads the counter and
then the processor count. -/
inductive CallStage where
  | lockTest
  | lockXchg
  | setFun
  | setCount
  | broadcastTest
  | sendIpi
  | waitCount
  | waitProcessors (count : UInt16)
  | unlock
  deriving DecidableEq

/-- The processor is inside the section `ipcall_mutex` protects. -/
def CallStage.critical : CallStage → Bool
  | .lockTest | .lockXchg => false
  | _ => true

/-- One invocation: the function, a ghost number, and whether the caller is still
in `__kernel_bsp_init`, before its increment of `working_processor_count`. -/
structure Call (F : Type) where
  fn : F
  id : Nat
  early : Bool

/-- Where a processor is. `starting` is the part of `__kernel_init` before
`init_apic` has enabled the local APIC, which until then drops fixed interrupts. -/
inductive Loc (F : Type) where
  | starting
  | booting
  | barrier
  | running
  | inCall (stage : CallStage) (call : Call F)

/-- Where a processor returns to after a call. -/
def Call.back {F : Type} (c : Call F) : Loc F := if c.early then .booting else .running

/-- The handler: not running; entered; `__ip_call_fun` loaded; the function has run;
end of interrupt written, the increment of `__ip_call_count` still to come. -/
inductive Isr (F : Type) where
  | idle
  | entered (id : Nat)
  | loaded (id : Nat) (fn : F)
  | ran (id : Nat)
  | acked (id : Nat)

/-! ## States -/

/-- A function run by a handler: on which processor, for which call. -/
structure Run (P F : Type) where
  proc : P
  call : Nat
  fn : F

/-- The state of all processors `P` and of the shared variables. -/
structure State (P F : Type) where
  loc : P → Loc F
  isr : P → Isr F
  /-- Interrupts sent to a processor and not yet taken, as call numbers. -/
  pending : P → List Nat
  ipCallFun : Option F
  ipCallCount : UInt16
  ipcallMutex : Bool
  workingProcessorCount : UInt16
  /-- Ghost: the number of the next call. -/
  nextCall : Nat
  /-- Ghost: the functions run by handlers so far. -/
  runs : List (Run P F)
  /-- Ghost: the increments of `__ip_call_count` so far. -/
  acks : List (P × Nat)

section Steps

variable {P F : Type} [DecidableEq P]

/-- Move processor `p` to `l`. -/
def State.goto (s : State P F) (p : P) (l : Loc F) : State P F :=
  { s with loc := Function.update s.loc p l }

/-- Move the handler of `p` to `i`. -/
def State.gotoIsr (s : State P F) (p : P) (i : Isr F) : State P F :=
  { s with isr := Function.update s.isr p i }

/-- The local APIC of a processor accepts fixed interrupts. -/
def Loc.apicOn : Loc F → Bool
  | .starting => false
  | _ => true

/-- A write of the interrupt command register with "all excluding self". -/
def State.broadcast (s : State P F) (p : P) (id : Nat) : State P F :=
  { s with pending := fun q =>
      if q ≠ p ∧ (s.loc q).apicOn then s.pending q ++ [id] else s.pending q }

/-- The transitions, for a bootstrap processor and the `ap_count` it has counted. -/
inductive Step (bsp : P) (apCount : UInt16) : State P F → State P F → Prop where
  /-- `init_apic` -/
  | initApic {s : State P F} {p : P} (hl : s.loc p = .starting) (hi : s.isr p = .idle) :
      Step bsp apCount s (s.goto p .booting)
  /-- `atomic_fetch_add(&working_processor_count, 1)` -/
  | increment {s : State P F} {p : P} (hl : s.loc p = .booting) (hi : s.isr p = .idle) :
      Step bsp apCount s { s.goto p .barrier with
        workingProcessorCount := s.workingProcessorCount + 1 }
  /-- `while(atomic_load(&working_processor_count) < ap_count+1)` is left -/
  | passBarrier {s : State P F} {p : P} (hl : s.loc p = .barrier) (hi : s.isr p = .idle)
      (h : ¬s.workingProcessorCount.toNat < apCount.toNat + 1) :
      Step bsp apCount s (s.goto p .running)
  /-- A call after the barrier, by any processor. -/
  | startCall {s : State P F} {p : P} (f : F) (hl : s.loc p = .running) (hi : s.isr p = .idle) :
      Step bsp apCount s { s.goto p (.inCall .lockTest ⟨f, s.nextCall, false⟩) with
        nextCall := s.nextCall + 1 }
  /-- A call in `__kernel_bsp_init`. -/
  | startEarlyCall {s : State P F} (f : F) (hl : s.loc bsp = .booting) (hi : s.isr bsp = .idle) :
      Step bsp apCount s { s.goto bsp (.inCall .lockTest ⟨f, s.nextCall, true⟩) with
        nextCall := s.nextCall + 1 }
  /-- `mtx_lock`: the load finds the mutex free. -/
  | lockTest {s : State P F} {p : P} {c : Call F} (hl : s.loc p = .inCall .lockTest c)
      (hi : s.isr p = .idle) (h : s.ipcallMutex = false) :
      Step bsp apCount s (s.goto p (.inCall .lockXchg c))
  /-- `mtx_lock`: the exchange finds the mutex taken, back to the load. -/
  | lockRetry {s : State P F} {p : P} {c : Call F} (hl : s.loc p = .inCall .lockXchg c)
      (hi : s.isr p = .idle) (h : s.ipcallMutex = true) :
      Step bsp apCount s (s.goto p (.inCall .lockTest c))
  /-- `mtx_lock`: the exchange takes the mutex. -/
  | lockXchg {s : State P F} {p : P} {c : Call F} (hl : s.loc p = .inCall .lockXchg c)
      (hi : s.isr p = .idle) (h : s.ipcallMutex = false) :
      Step bsp apCount s { s.goto p (.inCall .setFun c) with ipcallMutex := true }
  /-- `__ip_call_fun = f` -/
  | setFun {s : State P F} {p : P} {c : Call F} (hl : s.loc p = .inCall .setFun c)
      (hi : s.isr p = .idle) :
      Step bsp apCount s { s.goto p (.inCall .setCount c) with ipCallFun := some c.fn }
  /-- `atomic_store(&__ip_call_count, 0)` -/
  | setCount {s : State P F} {p : P} {c : Call F} (hl : s.loc p = .inCall .setCount c)
      (hi : s.isr p = .idle) :
      Step bsp apCount s { s.goto p (.inCall .broadcastTest c) with ipCallCount := 0 }
  /-- `broadcast_ipi`: `get_working_processor_count() > 1` holds. -/
  | broadcastYes {s : State P F} {p : P} {c : Call F} (hl : s.loc p = .inCall .broadcastTest c)
      (hi : s.isr p = .idle) (h : s.workingProcessorCount.toNat > 1) :
      Step bsp apCount s (s.goto p (.inCall .sendIpi c))
  /-- `broadcast_ipi`: `get_working_processor_count() > 1` does not hold. -/
  | broadcastNo {s : State P F} {p : P} {c : Call F} (hl : s.loc p = .inCall .broadcastTest c)
      (hi : s.isr p = .idle) (h : ¬s.workingProcessorCount.toNat > 1) :
      Step bsp apCount s (s.goto p (.inCall .waitCount c))
  /-- `broadcast_ipi`: the write of the command register. -/
  | sendIpi {s : State P F} {p : P} {c : Call F} (hl : s.loc p = .inCall .sendIpi c)
      (hi : s.isr p = .idle) :
      Step bsp apCount s ((s.broadcast p c.id).goto p (.inCall .waitCount c))
  /-- The wait loop loads `__ip_call_count`. -/
  | waitCount {s : State P F} {p : P} {c : Call F} (hl : s.loc p = .inCall .waitCount c)
      (hi : s.isr p = .idle) :
      Step bsp apCount s (s.goto p (.inCall (.waitProcessors s.ipCallCount) c))
  /-- The wait loop goes round: `count < get_working_processor_count() - 1`, as `int`s. -/
  | waitMore {s : State P F} {p : P} {c : Call F} {k : UInt16}
      (hl : s.loc p = .inCall (.waitProcessors k) c) (hi : s.isr p = .idle)
      (h : (k.toNat : Int) < s.workingProcessorCount.toNat - 1) :
      Step bsp apCount s (s.goto p (.inCall .waitCount c))
  /-- The wait loop is left. -/
  | waitDone {s : State P F} {p : P} {c : Call F} {k : UInt16}
      (hl : s.loc p = .inCall (.waitProcessors k) c) (hi : s.isr p = .idle)
      (h : ¬(k.toNat : Int) < s.workingProcessorCount.toNat - 1) :
      Step bsp apCount s (s.goto p (.inCall .unlock c))
  /-- `mtx_unlock`, and the call returns. -/
  | unlock {s : State P F} {p : P} {c : Call F} (hl : s.loc p = .inCall .unlock c)
      (hi : s.isr p = .idle) :
      Step bsp apCount s { s.goto p c.back with ipcallMutex := false }
  /-- A processor takes an interrupt, wherever it is. -/
  | takeIpi {s : State P F} {q : P} {id : Nat} {rest : List Nat} (hp : s.pending q = id :: rest)
      (hi : s.isr q = .idle) :
      Step bsp apCount s { s.gotoIsr q (.entered id) with
        pending := Function.update s.pending q rest }
  /-- The handler loads `__ip_call_fun`. -/
  | isrLoad {s : State P F} {q : P} {id : Nat} {f : F} (hi : s.isr q = .entered id)
      (hf : s.ipCallFun = some f) :
      Step bsp apCount s (s.gotoIsr q (.loaded id f))
  /-- The handler runs the function. -/
  | isrRun {s : State P F} {q : P} {id : Nat} {f : F} (hi : s.isr q = .loaded id f) :
      Step bsp apCount s { s.gotoIsr q (.ran id) with runs := s.runs ++ [⟨q, id, f⟩] }
  /-- `apic_write_eoi` -/
  | isrEoi {s : State P F} {q : P} {id : Nat} (hi : s.isr q = .ran id) :
      Step bsp apCount s (s.gotoIsr q (.acked id))
  /-- `atomic_fetch_add(&__ip_call_count, 1)`, and the handler returns. -/
  | isrAck {s : State P F} {q : P} {id : Nat} (hi : s.isr q = .acked id) :
      Step bsp apCount s { s.gotoIsr q .idle with
        ipCallCount := s.ipCallCount + 1, acks := s.acks ++ [(q, id)] }

/-- Any number of steps. -/
abbrev Steps (bsp : P) (apCount : UInt16) : State P F → State P F → Prop :=
  Relation.ReflTransGen (Step bsp apCount)

/-! ## Reading the ghost logs -/

/-- The functions handlers of `q` have run for call `id`. -/
def State.runsOf (s : State P F) (q : P) (id : Nat) : List F :=
  (s.runs.filter fun r => r.proc = q ∧ r.call = id).map Run.fn

/-- The processors that have acknowledged call `id`. -/
def State.ackedBy (s : State P F) (id : Nat) : List P :=
  (s.acks.filter fun a => a.2 = id).map Prod.fst

end Steps

/-! ## Small facts about the updates -/

section Updates

variable {P F : Type} [DecidableEq P] (s : State P F) (p q : P) (l : Loc F) (i : Isr F)

@[simp] theorem goto_loc_self : (s.goto p l).loc p = l := by simp [State.goto]

theorem goto_loc_ne {p q : P} (h : q ≠ p) : (s.goto p l).loc q = s.loc q := by
  simp [State.goto, h]

@[simp] theorem goto_isr : (s.goto p l).isr = s.isr := rfl
@[simp] theorem goto_pending : (s.goto p l).pending = s.pending := rfl
@[simp] theorem goto_ipCallFun : (s.goto p l).ipCallFun = s.ipCallFun := rfl
@[simp] theorem goto_ipCallCount : (s.goto p l).ipCallCount = s.ipCallCount := rfl
@[simp] theorem goto_ipcallMutex : (s.goto p l).ipcallMutex = s.ipcallMutex := rfl
@[simp] theorem goto_workingProcessorCount :
    (s.goto p l).workingProcessorCount = s.workingProcessorCount := rfl
@[simp] theorem goto_nextCall : (s.goto p l).nextCall = s.nextCall := rfl
@[simp] theorem goto_runs : (s.goto p l).runs = s.runs := rfl
@[simp] theorem goto_acks : (s.goto p l).acks = s.acks := rfl

@[simp] theorem gotoIsr_isr_self : (s.gotoIsr p i).isr p = i := by simp [State.gotoIsr]

theorem gotoIsr_isr_ne {p q : P} (h : q ≠ p) : (s.gotoIsr p i).isr q = s.isr q := by
  simp [State.gotoIsr, h]

@[simp] theorem gotoIsr_loc : (s.gotoIsr p i).loc = s.loc := rfl
@[simp] theorem gotoIsr_pending : (s.gotoIsr p i).pending = s.pending := rfl
@[simp] theorem gotoIsr_ipCallFun : (s.gotoIsr p i).ipCallFun = s.ipCallFun := rfl
@[simp] theorem gotoIsr_ipCallCount : (s.gotoIsr p i).ipCallCount = s.ipCallCount := rfl
@[simp] theorem gotoIsr_ipcallMutex : (s.gotoIsr p i).ipcallMutex = s.ipcallMutex := rfl
@[simp] theorem gotoIsr_workingProcessorCount :
    (s.gotoIsr p i).workingProcessorCount = s.workingProcessorCount := rfl
@[simp] theorem gotoIsr_nextCall : (s.gotoIsr p i).nextCall = s.nextCall := rfl
@[simp] theorem gotoIsr_runs : (s.gotoIsr p i).runs = s.runs := rfl
@[simp] theorem gotoIsr_acks : (s.gotoIsr p i).acks = s.acks := rfl

end Updates

end KoalemOS.Smp
