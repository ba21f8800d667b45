import KoalemOS.Heap.Clients
import KoalemOS.Libc.Threads
import KoalemOS.Library.SlotHandOut

/-!
# Application processors start (`src/kernel/kernel_start.s`, `kernel_start.c`, `tls.c`)

Application processors enter `_kernel_start` while the bootstrap processor is still on its way
to the two buffers they need: `__ap_load_init_stack` hands out initial stacks under a lock of its
own, `tls_create` hands out TLS areas under `ap_mut`, and at the end all wait for each other in
`__kernel_init`. A processor takes one access to shared memory at a time.

- `ApBuffers`: the blocks the bootstrap processor reserves (`ApBuffers.ofLive`)
- `ApStartStep`: one access of the bootstrap processor or of an application processor
- `StackAt`, `TlsAt`: how far a processor is with the hand-out of slots of either kind
-/

namespace KoalemOS.Smp

open KoalemOS.Library

/-! ## The code -/

/-- `AP_INIT_STACK_SIZE` -/
abbrev apInitStackSize : Nat := 128

/-- `sizeof(tcb_t)` -/
abbrev sizeofTcb : Nat := 8

/-- Where the bootstrap processor is in `__kernel_bsp_init` and behind it. -/
inductive BspLoc where
  /-- before `ap_count = *count_ptr` in `boot_aps` -/
  | bootAps
  /-- `tls_reserve_ap_space`, before `mtx_init` -/
  | initMut
  /-- before the store of `ap_tls` -/
  | publishTls
  /-- `reserve_ap_init_stack` and `set_ap_init_stack`, before its first store -/
  | setLimit
  | setSize
  | setPtr
  /-- before `atomic_fetch_add` -/
  | booted
  | barrier
  | returned
  deriving DecidableEq

/-- Where an application processor is in `_kernel_start`; what it holds in `rax` is a parameter. -/
inductive ApLoc where
  /-- `__ap_load_init_stack_mtx_loop` -/
  | stackExchange
  /-- `__ap_load_init_stack_mtx_done` -/
  | stackWait
  | stackCompare (rax : Nat)
  | stackAdd (rax : Nat)
  | stackStore (rax : Nat)
  | stackUnlock
  /-- `while(!atomic_load(&ap_tls))` -/
  | tlsWait
  /-- `mtx_lock(&ap_mut)` -/
  | tlsLoad
  | tlsExchange
  /-- `ap_tls + ap_tls_used++ * (tls_image_size + sizeof(tcb_t))` -/
  | tlsTake
  | tlsCount (used : Nat)
  | tlsUnlock
  /-- the rest of `tls_create`, and `__kernel_init` up to `atomic_fetch_add` -/
  | kernelInit
  | barrier
  | returned
  | panicked
  deriving DecidableEq

/-- Shared memory, and where the processors are. `rsp` and `ptr` are what a processor gets for
its initial stack and for its TLS area. -/
structure ApStart (P : Type) where
  apCount : UInt16
  apInitStackMutex : Nat
  apInitStackSize : Nat
  apInitStackPtr : Nat
  apInitStackLimit : Nat
  apTls : Nat
  apTlsUsed : Nat
  apMut : Bool
  workingProcessorCount : UInt16
  bsp : BspLoc
  ap : P → ApLoc
  rsp : P → Nat
  ptr : P → Nat

/-- The signed value of a register, as `jge` compares it. -/
def signed (x : Nat) : Int := if x < 2 ^ 63 then x else x - 2 ^ 64

/-- The blocks that `kmalloc` has returned to the bootstrap processor, for `count` TLS areas of
`width` bytes and for `count` initial stacks. They are not null, do not overlap, and the stacks lie in the
upper half of the address space, as the heap does. -/
structure ApBuffers (count : UInt16) (width : Nat) where
  tlsBuf : Nat
  stackBuf : Nat
  tls_ne : tlsBuf ≠ 0
  stack_ne : stackBuf ≠ 0
  tls_end : tlsBuf + width * count.toNat < 2 ^ 64
  stack_end : stackBuf + 128 * count.toNat < 2 ^ 64
  stack_upper : 2 ^ 63 ≤ stackBuf
  apart : tlsBuf + width * count.toNat ≤ stackBuf ∨ stackBuf + 128 * count.toNat ≤ tlsBuf

section Reserved

open Heap

variable {L : Layout} {ops : List HeapOp} {lives : List LiveBlock} {k : Paging.Kernel}

/-- A live block lies in the upper half of the address space. -/
theorem liveBlock_upper (h : LiveRun L CallsCleanly ops lives k) {b : LiveBlock} (hb : b ∈ lives) :
    2 ^ 63 ≤ b.ptr ∧ b.ptr + b.size < 2 ^ 64 := by
  have hstart := L.lower
  have hbuf := L.buf_below
  have hupper := L.upper
  obtain ⟨bs, hserves⟩ := h.servesAll
  have hend : k.kernelHeapEnd ≤ L.kernelHeapStart + kernelHeapMaxSize := by
    obtain ⟨F, V, hstate⟩ := hserves.heap
    exact hstate.limit
  obtain ⟨hlow, hhigh⟩ := hserves.sound.inside b hb
  omega

/-- Two live blocks of the heap are such buffers. -/
def ApBuffers.ofLive (h : LiveRun L CallsCleanly ops lives k) (count : UInt16) (imageSize tls stack : Nat)
    (hlive : [LiveBlock.fresh stack (apInitStackSize * count.toNat),
      LiveBlock.fresh tls ((imageSize + sizeofTcb) * count.toNat)].Sublist lives) :
    ApBuffers count (imageSize + sizeofTcb) :=
  have hstack := liveBlock_upper h (hlive.subset List.mem_cons_self)
  have htls := liveBlock_upper h (hlive.subset (List.mem_cons_of_mem _ List.mem_cons_self))
  { tlsBuf := tls
    stackBuf := stack
    tls_ne := fun hzero => by
      have hpos : 2 ^ 63 ≤ tls := htls.1
      omega
    stack_ne := fun hzero => by
      have hpos : 2 ^ 63 ≤ stack := hstack.1
      omega
    tls_end := htls.2
    stack_end := hstack.2
    stack_upper := hstack.1
    apart := by
      obtain ⟨bs, hserves⟩ := h.servesAll
      have hpair := hserves.sound.apart.sublist hlive
      exact (List.rel_of_pairwise_cons hpair List.mem_cons_self).symm }

end Reserved

namespace ApStart

/-- Static memory holds zeros, and no processor has begun. -/
def powerOn (P : Type) : ApStart P :=
  ⟨0, 0, 0, 0, 0, 0, 0, false, 0, .bootAps, fun _ => .stackExchange, fun _ => 0, fun _ => 0⟩

variable {P : Type} [DecidableEq P]

/-- Processor `p` goes on at `l`. -/
def goto (s : ApStart P) (p : P) (l : ApLoc) : ApStart P := { s with ap := Function.update s.ap p l }

/-- `while(atomic_load(&working_processor_count) < ap_count+1)` is left. -/
def BarrierOpen (s : ApStart P) : Prop := ¬s.workingProcessorCount.toNat < s.apCount.toNat + 1

end ApStart

open ApStart in
/-- One access to shared memory, for an `ap_count` of `count` and the buffers `B`; `width` is
`tls_image_size + sizeof(tcb_t)`. -/
inductive ApStartStep {P : Type} [DecidableEq P] {count : UInt16} {width : Nat} (B : ApBuffers count width) :
    ApStart P → ApStart P → Prop where
  | bootAps {s : ApStart P} : s.bsp = .bootAps →
      ApStartStep B s { s with apCount := count, bsp := .initMut }
  | initMut {s : ApStart P} : s.bsp = .initMut →
      ApStartStep B s { s with apMut := (Libc.mtxInit s.apMut Libc.mtxPlain).2, bsp := .publishTls }
  | publishTls {s : ApStart P} : s.bsp = .publishTls →
      ApStartStep B s { s with apTls := B.tlsBuf, bsp := .setLimit }
  | setLimit {s : ApStart P} : s.bsp = .setLimit →
      ApStartStep B s
        { s with apInitStackLimit := wrap (B.stackBuf + s.apCount.toNat * apInitStackSize), bsp := .setSize }
  | setSize {s : ApStart P} : s.bsp = .setSize →
      ApStartStep B s { s with apInitStackSize := Smp.apInitStackSize, bsp := .setPtr }
  | setPtr {s : ApStart P} : s.bsp = .setPtr →
      ApStartStep B s { s with apInitStackPtr := B.stackBuf, bsp := .booted }
  | bspCount {s : ApStart P} : s.bsp = .booted →
      ApStartStep B s { s with workingProcessorCount := s.workingProcessorCount + 1, bsp := .barrier }
  | bspPass {s : ApStart P} : s.bsp = .barrier → s.BarrierOpen →
      ApStartStep B s { s with bsp := .returned }
  /-- `xchg`: once more while the mutex is taken. -/
  | stackExchange {s : ApStart P} {p : P} : s.ap p = .stackExchange →
      ApStartStep B s
        ({ s with apInitStackMutex := 1 }.goto p (if s.apInitStackMutex = 0 then .stackWait else .stackExchange))
  | stackWait {s : ApStart P} {p : P} : s.ap p = .stackWait →
      ApStartStep B s
        (s.goto p (if s.apInitStackPtr = 0 then .stackWait else .stackCompare s.apInitStackPtr))
  | stackCompare {s : ApStart P} {p : P} {rax : Nat} : s.ap p = .stackCompare rax →
      ApStartStep B s
        (s.goto p (if signed rax ≥ signed s.apInitStackLimit then .panicked else .stackAdd rax))
  | stackAdd {s : ApStart P} {p : P} {rax : Nat} : s.ap p = .stackAdd rax →
      ApStartStep B s
        ({ s with rsp := Function.update s.rsp p (wrap (rax + s.apInitStackSize)) }.goto p
          (.stackStore (wrap (rax + s.apInitStackSize))))
  | stackStore {s : ApStart P} {p : P} {rax : Nat} : s.ap p = .stackStore rax →
      ApStartStep B s ({ s with apInitStackPtr := rax }.goto p .stackUnlock)
  | stackUnlock {s : ApStart P} {p : P} : s.ap p = .stackUnlock →
      ApStartStep B s ({ s with apInitStackMutex := 0 }.goto p .tlsWait)
  | tlsWait {s : ApStart P} {p : P} : s.ap p = .tlsWait →
      ApStartStep B s (s.goto p (if s.apTls = 0 then .tlsWait else .tlsLoad))
  | tlsLoad {s : ApStart P} {p : P} : s.ap p = .tlsLoad →
      ApStartStep B s (s.goto p (if !s.apMut then .tlsExchange else .tlsLoad))
  | tlsExchange {s : ApStart P} {p : P} : s.ap p = .tlsExchange →
      ApStartStep B s ({ s with apMut := true }.goto p (if !s.apMut then .tlsTake else .tlsLoad))
  | tlsTake {s : ApStart P} {p : P} : s.ap p = .tlsTake →
      ApStartStep B s
        ({ s with ptr := Function.update s.ptr p (wrap (s.apTls + s.apTlsUsed * width)) }.goto p
          (.tlsCount s.apTlsUsed))
  | tlsCount {s : ApStart P} {p : P} {used : Nat} : s.ap p = .tlsCount used →
      ApStartStep B s ({ s with apTlsUsed := used + 1 }.goto p .tlsUnlock)
  | tlsUnlock {s : ApStart P} {p : P} : s.ap p = .tlsUnlock →
      ApStartStep B s ({ s with apMut := false }.goto p .kernelInit)
  | apCount {s : ApStart P} {p : P} : s.ap p = .kernelInit →
      ApStartStep B s ({ s with workingProcessorCount := s.workingProcessorCount + 1 }.goto p .barrier)
  | apPass {s : ApStart P} {p : P} : s.ap p = .barrier → s.BarrierOpen →
      ApStartStep B s (s.goto p .returned)

/-- States after any number of accesses, in any interleaving. -/
def ApStartSteps {P : Type} [DecidableEq P] {count : UInt16} {width : Nat} (B : ApBuffers count width) :
    ApStart P → ApStart P → Prop := Relation.ReflTransGen (ApStartStep B)

/-! ## What a place in the code says -/

namespace BspLoc

/-- The bootstrap processor has stored `ap_count`. -/
def counted : BspLoc → Bool
  | bootAps => false
  | _ => true

/-- It has stored `ap_tls`. -/
def tlsPublished : BspLoc → Bool
  | bootAps | initMut | publishTls => false
  | _ => true

/-- It has stored the limit of the initial stacks. -/
def limitSet : BspLoc → Bool
  | setSize | setPtr | booted | barrier | returned => true
  | _ => false

/-- It has stored their size. -/
def sizeSet : BspLoc → Bool
  | setPtr | booted | barrier | returned => true
  | _ => false

/-- It has stored `__ap_init_stack_ptr`. -/
def stackPublished : BspLoc → Bool
  | booted | barrier | returned => true
  | _ => false

/-- It has incremented `working_processor_count`. -/
def working : BspLoc → Bool
  | barrier | returned => true
  | _ => false

theorem stackPublished_sets {l : BspLoc} (h : l.stackPublished = true) :
    l.counted = true ∧ l.limitSet = true ∧ l.sizeSet = true := by
  cases l <;> simp_all [stackPublished, counted, limitSet, sizeSet]

end BspLoc

namespace ApLoc

/-- The processor has incremented `working_processor_count`. -/
def working : ApLoc → Bool
  | barrier | returned => true
  | _ => false

/-- It has its initial stack in `rsp`. -/
def hasStack : ApLoc → Bool
  | stackExchange | stackWait | stackCompare _ | stackAdd _ | panicked => false
  | _ => true

/-- It has left `__ap_load_init_stack`. -/
def pastStack : ApLoc → Bool
  | stackExchange | stackWait | stackCompare _ | stackAdd _ | stackStore _ | stackUnlock | panicked => false
  | _ => true

/-- It has its TLS area. -/
def hasTls : ApLoc → Bool
  | tlsCount _ | tlsUnlock | kernelInit | barrier | returned => true
  | _ => false

/-- It has found `ap_tls` published. -/
def pastTlsWait : ApLoc → Bool
  | tlsLoad | tlsExchange | tlsTake | tlsCount _ | tlsUnlock | kernelInit | barrier | returned => true
  | _ => false

end ApLoc

variable {count : UInt16} {width : Nat} {B : ApBuffers count width} {l l' : ApLoc} {x k : Nat} {t : Turn}

/-- The end of an initial stack. -/
def ApBuffers.stackTop (B : ApBuffers count width) (k : Nat) : Nat := B.stackBuf + 128 * k + 128

/-- The start of a TLS area. -/
def ApBuffers.tlsArea (B : ApBuffers count width) (k : Nat) : Nat := B.tlsBuf + width * k

/-- How far a processor is with the hand-out of initial stacks; `x` is its `rsp`. -/
def StackAt (B : ApBuffers count width) (l : ApLoc) (x : Nat) (t : Turn) : Prop :=
  match l with
  | .stackExchange => t = .before
  | .stackWait => t = .entered
  | .stackCompare rax | .stackAdd rax => ∃ k, t = .read k ∧ rax = B.stackBuf + 128 * k
  | .stackStore rax => ∃ k, t = .read k ∧ rax = B.stackTop k ∧ x = B.stackTop k
  | .stackUnlock => ∃ k, t = .stored k ∧ x = B.stackTop k
  | .panicked => False
  | _ => ∃ k, t = .after k ∧ x = B.stackTop k

/-- How far a processor is with the hand-out of TLS areas; `x` is its `ptr`. -/
def TlsAt (B : ApBuffers count width) (l : ApLoc) (x : Nat) (t : Turn) : Prop :=
  match l with
  | .tlsTake => t = .entered
  | .tlsCount used => t = .read used ∧ x = B.tlsArea used
  | .tlsUnlock => ∃ k, t = .stored k ∧ x = B.tlsArea k
  | .kernelInit | .barrier | .returned => ∃ k, t = .after k ∧ x = B.tlsArea k
  | _ => t = .before

/-- Nobody takes part in the hand-out of TLS areas before the wait for them. -/
theorem tlsAt_before (hl : l.pastTlsWait = false) : TlsAt B l x t ↔ t = .before := by
  cases l <;> first | exact Iff.rfl | cases hl

theorem tlsAt_slot (h : TlsAt B l x t) (hl : l.hasTls = true) : ∃ k, t.slot = some k ∧ x = B.tlsArea k := by
  cases l with
  | tlsCount used =>
    obtain ⟨rfl, hx⟩ := h
    exact ⟨used, rfl, hx⟩
  | tlsUnlock | kernelInit | barrier | returned =>
    obtain ⟨k, rfl, hx⟩ := h
    exact ⟨k, rfl, hx⟩
  | _ => cases hl

/-- A processor that has left the hand-out of stacks stays out of it. -/
theorem stackAt_after (hl : l.pastStack = true) : StackAt B l x t ↔ ∃ k, t = .after k ∧ x = B.stackTop k := by
  cases l <;> first | exact Iff.rfl | cases hl

theorem stackAt_slot (h : StackAt B l x t) (hl : l.hasStack = true) : ∃ k, t.slot = some k ∧ x = B.stackTop k := by
  cases l with
  | stackExchange | stackWait | stackCompare | stackAdd | panicked => cases hl
  | stackStore rax =>
    obtain ⟨k, rfl, -, hx⟩ := h
    exact ⟨k, rfl, hx⟩
  | _ =>
    obtain ⟨k, rfl, hx⟩ := h
    exact ⟨k, rfl, hx⟩

end KoalemOS.Smp
