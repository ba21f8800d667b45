import KoalemOS.Smp.ApStart

/-!
# What application processors get when they start

Both hand-outs follow the hand-out of slots under a lock (`Library.HandOutStep`), so that the
initial stacks and the TLS areas are different parts of their buffers, and there is one left for
every processor (`StackFollows`, `TlsFollows`). `working_processor_count` is the number of processors that
have added one (`Barrier`). `apStart_safe` is what follows for every run.
-/

namespace KoalemOS.Smp

open KoalemOS.Library

variable {count : UInt16} {width : Nat} {B : ApBuffers count width} {l : ApLoc} {x k : Nat} {t : Turn}

/-! ## The invariant -/

variable {P : Type} {s s' : ApStart P} {a a' : HandOut P} {p q : P}

/-- The initial stacks are handed out as slots are, from their publication on. -/
structure StackFollows (B : ApBuffers count width) (s : ApStart P) (a : HandOut P) : Prop where
  lock : s.apInitStackMutex = 0 ↔ a.lock = false
  at_turn : ∀ p, StackAt B (s.ap p) (s.rsp p) (a.turn p)
  ptr : s.apInitStackPtr = if s.bsp.stackPublished then B.stackBuf + 128 * a.next else 0
  waiting : s.bsp.stackPublished = false → ∀ p, (a.turn p).slot = none
  limit : s.bsp.limitSet = true → s.apInitStackLimit = B.stackBuf + 128 * count.toNat
  size : s.bsp.sizeSet = true → s.apInitStackSize = 128

/-- The TLS areas are. -/
structure TlsFollows (B : ApBuffers count width) (s : ApStart P) (a : HandOut P) : Prop where
  lock : s.apMut = a.lock
  used : s.apTlsUsed = a.next
  at_turn : ∀ p, TlsAt B (s.ap p) (s.ptr p) (a.turn p)
  tls : s.apTls = if s.bsp.tlsPublished then B.tlsBuf else 0
  waiting : s.bsp.tlsPublished = false → ∀ p, (s.ap p).pastTlsWait = false

/-- The processors that have incremented `working_processor_count`. -/
def ApStart.workingAps [Fintype P] (s : ApStart P) : Finset P := Finset.univ.filter fun p => (s.ap p).working

/-- `working_processor_count` counts them, as far as 16 bits go; nobody returns before all have
incremented it. -/
structure Barrier [Fintype P] (count : UInt16) (s : ApStart P) : Prop where
  apCount : s.bsp.counted = true → s.apCount = count
  working : s.workingProcessorCount.toNat = (s.workingAps.card + if s.bsp.working then 1 else 0) % 2 ^ 16
  returned : (s.bsp = .returned ∨ ∃ p, s.ap p = .returned) → s.bsp.working = true ∧ ∀ p, (s.ap p).working = true

/-- What holds in every state reached. -/
structure ApStartInv [Fintype P] (B : ApBuffers count width) (s : ApStart P) : Prop where
  stack : ∃ a, HandOutInv a ∧ StackFollows B s a
  tls : ∃ a, HandOutInv a ∧ TlsFollows B s a
  barrier : Barrier count s

theorem apStartInv_powerOn [Fintype P] : ApStartInv B (ApStart.powerOn P) where
  stack := ⟨HandOut.start P, handOutInv_start, iff_of_true rfl rfl, fun _ => rfl, rfl, fun _ _ => rfl, nofun, nofun⟩
  tls := ⟨HandOut.start P, handOutInv_start, rfl, rfl, fun _ => rfl, rfl, fun _ _ => rfl⟩
  barrier := by
    refine ⟨nofun, ?_, ?_⟩
    · simp [ApStart.powerOn, ApStart.workingAps, ApLoc.working, BspLoc.working]
    · rintro (h | ⟨p, h⟩) <;> simp [ApStart.powerOn] at h

/-! ## Steps that leave a part alone -/

/-- The hand-out of stacks when processor `p` moves, or the bootstrap processor does. -/
theorem StackFollows.keep (h : StackFollows B s a) (hlock : s'.apInitStackMutex = s.apInitStackMutex)
    (hptr : s'.apInitStackPtr = s.apInitStackPtr) (hlimit : s'.apInitStackLimit = s.apInitStackLimit)
    (hsize : s'.apInitStackSize = s.apInitStackSize) (hpub : s'.bsp.stackPublished = s.bsp.stackPublished)
    (hlim : s'.bsp.limitSet = s.bsp.limitSet) (hsiz : s'.bsp.sizeSet = s.bsp.sizeSet)
    (hat : ∀ p t, StackAt B (s.ap p) (s.rsp p) t → StackAt B (s'.ap p) (s'.rsp p) t) : StackFollows B s' a where
  lock := by rw [hlock]; exact h.lock
  at_turn p := hat p _ (h.at_turn p)
  ptr := by rw [hptr, hpub]; exact h.ptr
  waiting := by rw [hpub]; exact h.waiting
  limit := by rw [hlim, hlimit]; exact h.limit
  size := by rw [hsiz, hsize]; exact h.size

/-- The hand-out of TLS areas then. -/
theorem TlsFollows.keep (h : TlsFollows B s a) (hlock : s'.apMut = s.apMut) (hused : s'.apTlsUsed = s.apTlsUsed)
    (htls : s'.apTls = s.apTls) (hpub : s'.bsp.tlsPublished = s.bsp.tlsPublished)
    (hat : ∀ p t, TlsAt B (s.ap p) (s.ptr p) t → TlsAt B (s'.ap p) (s'.ptr p) t)
    (hpast : ∀ p, (s'.ap p).pastTlsWait = true → (s.ap p).pastTlsWait = true ∨ s.bsp.tlsPublished = true) :
    TlsFollows B s' a where
  lock := by rw [hlock]; exact h.lock
  used := by rw [hused]; exact h.used
  at_turn p := hat p _ (h.at_turn p)
  tls := by rw [htls, hpub]; exact h.tls
  waiting hb p := by
    rw [hpub] at hb
    by_contra hp
    rcases hpast p (eq_true_of_ne_false hp) with hp | hp
    · rw [h.waiting hb p] at hp
      cases hp
    · rw [hb] at hp
      cases hp

/-- What holds of one processor after its move and of the others as before holds of all. -/
theorem forall_update {D : P → Prop} (hp : D p) (hq : ∀ q, q ≠ p → D q) (q : P) : D q := by
  rcases eq_or_ne q p with rfl | hne
  · exact hp
  · exact hq q hne

/-- In the upper half of the address space the signed comparison is the unsigned one. -/
theorem signed_lt {x y : Nat} (hx : 2 ^ 63 ≤ x) (hxy : x < y) : signed x < signed y := by
  unfold signed
  rw [if_neg (by omega), if_neg (by omega)]
  omega

/-- A processor that has a slot has seen the publication. -/
theorem StackFollows.published (h : StackFollows B s a) (hk : (a.turn p).slot = some k) :
    s.bsp.stackPublished = true := by
  by_contra hno
  rw [h.waiting (eq_false_of_ne_true hno) p] at hk
  cases hk

/-- A processor moves, and the hand-out with it. -/
theorem StackFollows.advance (h : StackFollows B s a) (hpub : s.bsp.stackPublished = true)
    (hat : ∀ q, StackAt B (s'.ap q) (s'.rsp q) (a'.turn q)) (hlock : s'.apInitStackMutex = 0 ↔ a'.lock = false)
    (hptr : s'.apInitStackPtr = B.stackBuf + 128 * a'.next)
    (hrest : s'.apInitStackLimit = s.apInitStackLimit ∧ s'.apInitStackSize = s.apInitStackSize ∧ s'.bsp = s.bsp) :
    StackFollows B s' a' := by
  obtain ⟨hlimit, hsize, hbsp⟩ := hrest
  refine ⟨hlock, hat, ?_, fun hno => ?_, ?_, ?_⟩
  · rw [hbsp, hpub, hptr]
    rfl
  · rw [hbsp, hpub] at hno
    cases hno
  · rw [hbsp, hlimit]
    exact h.limit
  · rw [hbsp, hsize]
    exact h.size

section Steps

variable [DecidableEq P]

@[simp] theorem ApStart.goto_ap_self (s : ApStart P) (p : P) (l : ApLoc) : (s.goto p l).ap p = l :=
  Function.update_self ..

theorem ApStart.goto_ap_ne (s : ApStart P) {p q : P} (l : ApLoc) (h : q ≠ p) : (s.goto p l).ap q = s.ap q :=
  Function.update_of_ne h ..

/-- The stacks while processor `p` moves and has the turn it had. -/
theorem StackFollows.goto (h : StackFollows B s a) (hl : ∀ t, StackAt B (s.ap p) (s.rsp p) t → StackAt B l (s.rsp p) t)
    (hs : s'.ap = Function.update s.ap p l) (hrsp : s'.rsp = s.rsp)
    (hrest : s'.apInitStackMutex = s.apInitStackMutex ∧ s'.apInitStackPtr = s.apInitStackPtr ∧
      s'.apInitStackLimit = s.apInitStackLimit ∧ s'.apInitStackSize = s.apInitStackSize ∧ s'.bsp = s.bsp) :
    StackFollows B s' a := by
  obtain ⟨hlock, hptr, hlimit, hsize, hbsp⟩ := hrest
  refine h.keep hlock hptr hlimit hsize (by rw [hbsp]) (by rw [hbsp]) (by rw [hbsp]) ?_
  refine forall_update (p := p) (fun t ht => ?_) fun q hq t ht => ?_
  · rw [hs, hrsp, Function.update_self]
    exact hl t ht
  · rw [hs, hrsp, Function.update_of_ne hq]
    exact ht

/-- The TLS areas then. -/
theorem TlsFollows.goto (h : TlsFollows B s a) (hl : ∀ t, TlsAt B (s.ap p) (s.ptr p) t → TlsAt B l (s.ptr p) t)
    (hpast : l.pastTlsWait = true → (s.ap p).pastTlsWait = true ∨ s.bsp.tlsPublished = true)
    (hs : s'.ap = Function.update s.ap p l) (hptr : s'.ptr = s.ptr)
    (hrest : s'.apMut = s.apMut ∧ s'.apTlsUsed = s.apTlsUsed ∧ s'.apTls = s.apTls ∧ s'.bsp = s.bsp) :
    TlsFollows B s' a := by
  obtain ⟨hlock, hused, htls, hbsp⟩ := hrest
  refine h.keep hlock hused htls (by rw [hbsp]) ?_ ?_
  · refine forall_update (p := p) (fun t ht => ?_) fun q hq t ht => ?_
    · rw [hs, hptr, Function.update_self]
      exact hl t ht
    · rw [hs, hptr, Function.update_of_ne hq]
      exact ht
  · refine forall_update (p := p) (fun hp => ?_) fun q hq hp => ?_
    · rw [hs, Function.update_self] at hp
      exact hpast hp
    · rw [hs, Function.update_of_ne hq] at hp
      exact .inl hp

/-- A processor that has left the hand-out of stacks. -/
theorem StackFollows.late (h : StackFollows B s a) (hp : (s.ap p).pastStack = true) (hl : l.pastStack = true)
    (hs : s'.ap = Function.update s.ap p l) (hrsp : s'.rsp = s.rsp)
    (hrest : s'.apInitStackMutex = s.apInitStackMutex ∧ s'.apInitStackPtr = s.apInitStackPtr ∧
      s'.apInitStackLimit = s.apInitStackLimit ∧ s'.apInitStackSize = s.apInitStackSize ∧ s'.bsp = s.bsp) :
    StackFollows B s' a :=
  h.goto (fun _ ht => (stackAt_after hl).mpr ((stackAt_after hp).mp ht)) hs hrsp hrest

/-- A processor that is still to wait for its TLS area. -/
theorem TlsFollows.early (h : TlsFollows B s a) (hp : (s.ap p).pastTlsWait = false) (hl : l.pastTlsWait = false)
    (hs : s'.ap = Function.update s.ap p l) (hptr : s'.ptr = s.ptr)
    (hrest : s'.apMut = s.apMut ∧ s'.apTlsUsed = s.apTlsUsed ∧ s'.apTls = s.apTls ∧ s'.bsp = s.bsp) :
    TlsFollows B s' a :=
  h.goto (fun _ ht => (tlsAt_before hl).mpr ((tlsAt_before hp).mp ht)) (fun hpast => by rw [hl] at hpast; cases hpast)
    hs hptr hrest

/-! ## The hand-out of initial stacks -/

/-- Every processor is where its turn says after a step of a hand-out. -/
theorem turns_update {R : ApLoc → Nat → Turn → Prop} {x x' : P → Nat} (h : ∀ q, R (s.ap q) (x q) (a.turn q))
    (hs : s'.ap = Function.update s.ap p l) (ha : a'.turn = Function.update a.turn p t)
    (hx : ∀ q, q ≠ p → x' q = x q) (hp : R l (x' p) t) : ∀ q, R (s'.ap q) (x' q) (a'.turn q) := by
  refine forall_update (p := p) ?_ fun q hq => ?_
  · rw [hs, ha, Function.update_self, Function.update_self]
    exact hp
  · rw [hs, ha, Function.update_of_ne hq, Function.update_of_ne hq, hx q hq]
    exact h q

variable [Fintype P]

/-- `xchg`: whoever finds zero has the lock. -/
theorem StackFollows.stackExchange (h : StackFollows B s a) (ha : HandOutInv a) (hl : s.ap p = .stackExchange) :
    ∃ a', HandOutInv a' ∧ StackFollows B ({ s with apInitStackMutex := 1 }.goto p
      (if s.apInitStackMutex = 0 then .stackWait else .stackExchange)) a' := by
  have hturn : a.turn p = .before := by
    have := h.at_turn p
    rwa [hl] at this
  by_cases hfree : s.apInitStackMutex = 0
  · refine ⟨_, ha.step (.enter hturn (h.lock.mp hfree)), ?_⟩
    rw [if_pos hfree]
    refine ⟨iff_of_false Nat.one_ne_zero nofun, ?_, h.ptr, fun hno => ?_, h.limit, h.size⟩
    · exact turns_update h.at_turn rfl rfl (fun _ _ => rfl) rfl
    · refine forall_update (p := p) ?_ fun q hq => ?_
      · exact congrArg Turn.slot (goto_turn_self a p .entered)
      · exact (congrArg Turn.slot (goto_turn_ne a .entered hq)).trans (h.waiting hno q)
  · refine ⟨a, ha, ?_⟩
    rw [if_neg hfree]
    have hself : a.turn = Function.update a.turn p .before := by rw [← hturn, Function.update_eq_self]
    refine ⟨iff_of_false Nat.one_ne_zero fun hlock => hfree (h.lock.mpr hlock), ?_, h.ptr, h.waiting, h.limit, h.size⟩
    exact turns_update h.at_turn rfl hself (fun _ _ => rfl) rfl

/-- The pointer is read once it has been published. -/
theorem StackFollows.stackWait (h : StackFollows B s a) (ha : HandOutInv a) (hl : s.ap p = .stackWait) :
    ∃ a', HandOutInv a' ∧ StackFollows B
      (s.goto p (if s.apInitStackPtr = 0 then .stackWait else .stackCompare s.apInitStackPtr)) a' := by
  have hturn : a.turn p = .entered := by
    have := h.at_turn p
    rwa [hl] at this
  by_cases hzero : s.apInitStackPtr = 0
  · refine ⟨a, ha, ?_⟩
    rw [if_pos hzero]
    refine h.goto (fun t ht => ?_) rfl rfl ⟨rfl, rfl, rfl, rfl, rfl⟩
    rwa [hl] at ht
  · have hpub : s.bsp.stackPublished = true := by
      by_contra hno
      have hptr := h.ptr
      rw [if_neg hno] at hptr
      exact hzero hptr
    have hptr := h.ptr
    rw [if_pos hpub] at hptr
    refine ⟨_, ha.step (.read hturn), ?_⟩
    rw [if_neg hzero]
    refine h.advance hpub ?_ h.lock hptr ⟨rfl, rfl, rfl⟩
    exact turns_update h.at_turn rfl rfl (fun _ _ => rfl) ⟨a.next, rfl, hptr⟩

/-- There is a stack left. -/
theorem StackFollows.stackCompare (h : StackFollows B s a) (ha : HandOutInv a)
    (hcard : Fintype.card P = count.toNat) (hl : s.ap p = .stackCompare x) :
    StackFollows B (s.goto p (if signed x ≥ signed s.apInitStackLimit then .panicked else .stackAdd x)) a := by
  obtain ⟨k, hturn, hx⟩ : ∃ k, a.turn p = .read k ∧ x = B.stackBuf + 128 * k := by
    have := h.at_turn p
    rwa [hl] at this
  have hslot : (a.turn p).slot = some k := by rw [hturn]; rfl
  have hlt := ha.slot_lt_card hslot
  have hlimit := h.limit (BspLoc.stackPublished_sets (h.published hslot)).2.1
  have hbelow : signed x < signed s.apInitStackLimit := by
    have := B.stack_upper
    rw [hlimit]
    exact signed_lt (by omega) (by omega)
  rw [if_neg (not_le.mpr hbelow)]
  refine h.goto (fun t ht => ?_) rfl rfl ⟨rfl, rfl, rfl, rfl, rfl⟩
  rwa [hl] at ht

/-- The end of the stack. -/
theorem StackFollows.stackAdd (h : StackFollows B s a) (ha : HandOutInv a)
    (hcard : Fintype.card P = count.toNat) (hl : s.ap p = .stackAdd x) :
    StackFollows B ({ s with rsp := Function.update s.rsp p (wrap (x + s.apInitStackSize)) }.goto p
      (.stackStore (wrap (x + s.apInitStackSize)))) a := by
  obtain ⟨k, hturn, hx⟩ : ∃ k, a.turn p = .read k ∧ x = B.stackBuf + 128 * k := by
    have := h.at_turn p
    rwa [hl] at this
  have hslot : (a.turn p).slot = some k := by rw [hturn]; rfl
  have hlt := ha.slot_lt_card hslot
  have hpub := h.published hslot
  have hend := B.stack_end
  have htop : wrap (x + s.apInitStackSize) = B.stackTop k := by
    rw [h.size (BspLoc.stackPublished_sets hpub).2.2, hx, wrap_of_lt (by omega), ApBuffers.stackTop]
  have hself : a.turn = Function.update a.turn p (.read k) := by rw [← hturn, Function.update_eq_self]
  have hptr := h.ptr
  rw [if_pos hpub] at hptr
  refine h.advance hpub ?_ h.lock hptr ⟨rfl, rfl, rfl⟩
  refine turns_update (p := p) h.at_turn rfl hself (fun q hq => Function.update_of_ne hq _ _) ⟨k, rfl, htop, ?_⟩
  exact (Function.update_self ..).trans htop

/-- The next stack begins where this one ends. -/
theorem StackFollows.stackStore (h : StackFollows B s a) (ha : HandOutInv a) (hl : s.ap p = .stackStore x) :
    ∃ a', HandOutInv a' ∧ StackFollows B ({ s with apInitStackPtr := x }.goto p .stackUnlock) a' := by
  obtain ⟨k, hturn, hx, hrsp⟩ : ∃ k, a.turn p = .read k ∧ x = B.stackTop k ∧ s.rsp p = B.stackTop k := by
    have := h.at_turn p
    rwa [hl] at this
  have hpub := h.published (k := k) (p := p) (by rw [hturn]; rfl)
  refine ⟨_, ha.step (.store hturn), h.advance hpub ?_ h.lock ?_ ⟨rfl, rfl, rfl⟩⟩
  · exact turns_update h.at_turn rfl rfl (fun _ _ => rfl) ⟨k, rfl, hrsp⟩
  · show x = B.stackBuf + 128 * (k + 1)
    rw [hx, ApBuffers.stackTop, Nat.mul_succ, Nat.add_assoc]

/-- The lock is released. -/
theorem StackFollows.stackUnlock (h : StackFollows B s a) (ha : HandOutInv a) (hl : s.ap p = .stackUnlock) :
    ∃ a', HandOutInv a' ∧ StackFollows B ({ s with apInitStackMutex := 0 }.goto p .tlsWait) a' := by
  obtain ⟨k, hturn, hrsp⟩ : ∃ k, a.turn p = .stored k ∧ s.rsp p = B.stackTop k := by
    have := h.at_turn p
    rwa [hl] at this
  have hpub := h.published (k := k) (p := p) (by rw [hturn]; rfl)
  have hptr := h.ptr
  rw [if_pos hpub] at hptr
  refine ⟨_, ha.step (.leave hturn), h.advance hpub ?_ (iff_of_true rfl rfl) hptr ⟨rfl, rfl, rfl⟩⟩
  exact turns_update h.at_turn rfl rfl (fun _ _ => rfl) ⟨k, rfl, hrsp⟩

omit [DecidableEq P] [Fintype P] in
/-- The limit is stored. -/
theorem StackFollows.setLimit (h : StackFollows B s a) (hl : s.bsp = .setLimit) (hcount : s.apCount = count) :
    StackFollows B { s with
      apInitStackLimit := wrap (B.stackBuf + s.apCount.toNat * apInitStackSize), bsp := .setSize } a := by
  have hptr := h.ptr
  rw [hl] at hptr
  refine ⟨h.lock, h.at_turn, hptr, fun _ => h.waiting (by rw [hl]; rfl), fun _ => ?_, nofun⟩
  have := B.stack_end
  show wrap (B.stackBuf + s.apCount.toNat * apInitStackSize) = _
  rw [hcount, Nat.mul_comm, wrap_of_lt this]

omit [DecidableEq P] in
/-- The pointer is stored, and nobody has read it yet. -/
theorem StackFollows.setPtr (h : StackFollows B s a) (ha : HandOutInv a) (hl : s.bsp = .setPtr) :
    StackFollows B { s with apInitStackPtr := B.stackBuf, bsp := .booted } a := by
  have hnone := h.waiting (by rw [hl]; rfl)
  have hread : ∀ p k, a.turn p ≠ .read k := by
    intro p k hk
    have := hnone p
    rw [hk] at this
    cases this
  have hnext : a.next = 0 := by
    rw [ha.counted hread, Finset.card_eq_zero]
    unfold HandOut.served
    simp [hnone]
  refine ⟨h.lock, h.at_turn, ?_, nofun, fun _ => h.limit (by rw [hl]; rfl), fun _ => h.size (by rw [hl]; rfl)⟩
  rw [hnext]
  rfl

/-! ## The hand-out of TLS areas -/

omit [DecidableEq P] [Fintype P] in
/-- A processor that is past the wait has seen the publication. -/
theorem TlsFollows.published (h : TlsFollows B s a) (hp : (s.ap p).pastTlsWait = true) :
    s.bsp.tlsPublished = true := by
  by_contra hno
  rw [h.waiting (eq_false_of_ne_true hno) p] at hp
  cases hp

omit [DecidableEq P] [Fintype P] in
/-- A processor moves, and the hand-out with it. -/
theorem TlsFollows.advance (h : TlsFollows B s a) (hpub : s.bsp.tlsPublished = true)
    (hat : ∀ q, TlsAt B (s'.ap q) (s'.ptr q) (a'.turn q)) (hlock : s'.apMut = a'.lock) (hused : s'.apTlsUsed = a'.next)
    (htls : s'.apTls = s.apTls) (hbsp : s'.bsp = s.bsp) : TlsFollows B s' a' := by
  refine ⟨hlock, hused, hat, ?_, fun hno => ?_⟩
  · rw [htls, hbsp]
    exact h.tls
  · rw [hbsp, hpub] at hno
    cases hno

omit [Fintype P] in
/-- `ap_tls` is found published. -/
theorem TlsFollows.tlsWait (h : TlsFollows B s a) (hl : s.ap p = .tlsWait) :
    TlsFollows B (s.goto p (if s.apTls = 0 then .tlsWait else .tlsLoad)) a := by
  by_cases hzero : s.apTls = 0
  · rw [if_pos hzero]
    refine h.goto (fun t ht => ?_) (fun hp => by cases hp) rfl rfl ⟨rfl, rfl, rfl, rfl⟩
    rwa [hl] at ht
  · rw [if_neg hzero]
    refine h.goto (fun t ht => ?_) (fun _ => .inr ?_) rfl rfl ⟨rfl, rfl, rfl, rfl⟩
    · rwa [hl] at ht
    · by_contra hno
      have htls := h.tls
      rw [if_neg hno] at htls
      exact hzero htls

/-- The exchange of `mtx_lock`. -/
theorem TlsFollows.tlsExchange (h : TlsFollows B s a) (ha : HandOutInv a) (hl : s.ap p = .tlsExchange) :
    ∃ a', HandOutInv a' ∧
      TlsFollows B ({ s with apMut := true }.goto p (if !s.apMut then .tlsTake else .tlsLoad)) a' := by
  have hturn : a.turn p = .before := by
    have := h.at_turn p
    rwa [hl] at this
  have hpub := h.published (p := p) (by rw [hl]; rfl)
  by_cases hfree : s.apMut = false
  · refine ⟨_, ha.step (.enter hturn (h.lock.symm.trans hfree)), ?_⟩
    rw [hfree]
    refine h.advance hpub ?_ rfl h.used rfl rfl
    exact turns_update h.at_turn rfl rfl (fun _ _ => rfl) rfl
  · have htaken : s.apMut = true := eq_true_of_ne_false hfree
    have hself : a.turn = Function.update a.turn p .before := by rw [← hturn, Function.update_eq_self]
    refine ⟨a, ha, ?_⟩
    rw [htaken]
    refine h.advance hpub ?_ (htaken.symm.trans h.lock) h.used rfl rfl
    exact turns_update h.at_turn rfl hself (fun _ _ => rfl) rfl

/-- The area is behind those that have been handed out. -/
theorem TlsFollows.tlsTake (h : TlsFollows B s a) (ha : HandOutInv a) (hcard : Fintype.card P = count.toNat)
    (hl : s.ap p = .tlsTake) :
    ∃ a', HandOutInv a' ∧ TlsFollows B
      ({ s with ptr := Function.update s.ptr p (wrap (s.apTls + s.apTlsUsed * width)) }.goto p
        (.tlsCount s.apTlsUsed)) a' := by
  have hturn : a.turn p = .entered := by
    have := h.at_turn p
    rwa [hl] at this
  have hpub := h.published (p := p) (by rw [hl]; rfl)
  have hread := ha.step (.read hturn)
  have hlt : a.next < count.toNat := by
    rw [← hcard]
    exact hread.slot_lt_card (p := p) (by rw [goto_turn_self]; rfl)
  have htls := h.tls
  rw [if_pos hpub] at htls
  have harea : wrap (s.apTls + s.apTlsUsed * width) = B.tlsArea s.apTlsUsed := by
    have hinside : B.tlsBuf + width * a.next + width ≤ B.tlsBuf + width * count.toNat := (slot_inside hlt).2
    have := B.tls_end
    rw [htls, h.used, Nat.mul_comm, wrap_of_lt (by omega), ApBuffers.tlsArea]
  refine ⟨_, hread, h.advance hpub ?_ h.lock h.used rfl rfl⟩
  refine turns_update (p := p) h.at_turn rfl rfl (fun q hq => Function.update_of_ne hq _ _) ⟨?_, ?_⟩
  · rw [h.used]
  · exact (Function.update_self ..).trans harea

/-- The counter is incremented. -/
theorem TlsFollows.tlsCount (h : TlsFollows B s a) (ha : HandOutInv a) (hl : s.ap p = .tlsCount k) :
    ∃ a', HandOutInv a' ∧ TlsFollows B ({ s with apTlsUsed := k + 1 }.goto p .tlsUnlock) a' := by
  obtain ⟨hturn, hptr⟩ : a.turn p = .read k ∧ s.ptr p = B.tlsArea k := by
    have := h.at_turn p
    rwa [hl] at this
  have hpub := h.published (p := p) (by rw [hl]; rfl)
  refine ⟨_, ha.step (.store hturn), h.advance hpub ?_ h.lock rfl rfl rfl⟩
  exact turns_update h.at_turn rfl rfl (fun _ _ => rfl) ⟨k, rfl, hptr⟩

/-- The store of `mtx_unlock`. -/
theorem TlsFollows.tlsUnlock (h : TlsFollows B s a) (ha : HandOutInv a) (hl : s.ap p = .tlsUnlock) :
    ∃ a', HandOutInv a' ∧ TlsFollows B ({ s with apMut := false }.goto p .kernelInit) a' := by
  obtain ⟨k, hturn, hptr⟩ : ∃ k, a.turn p = .stored k ∧ s.ptr p = B.tlsArea k := by
    have := h.at_turn p
    rwa [hl] at this
  have hpub := h.published (p := p) (by rw [hl]; rfl)
  refine ⟨_, ha.step (.leave hturn), h.advance hpub ?_ rfl h.used rfl rfl⟩
  exact turns_update h.at_turn rfl rfl (fun _ _ => rfl) ⟨k, rfl, hptr⟩

omit [DecidableEq P] in
/-- `mtx_init` while nobody can have the mutex. -/
theorem TlsFollows.initMut (h : TlsFollows B s a) (ha : HandOutInv a) (hl : s.bsp = .initMut) :
    TlsFollows B { s with apMut := (Libc.mtxInit s.apMut Libc.mtxPlain).2, bsp := .publishTls } a := by
  have hout : ∀ p, (a.turn p).inside = false := by
    intro p
    rw [(tlsAt_before (h.waiting (by rw [hl]; rfl) p)).mp (h.at_turn p)]
    rfl
  have htls := h.tls
  rw [hl] at htls
  exact ⟨(ha.free.mpr hout).symm, h.used, h.at_turn, htls, fun _ => h.waiting (by rw [hl]; rfl)⟩

/-! ## The barrier -/

/-- A processor moves, and neither counts nor leaves the barrier. -/
theorem Barrier.goto (h : Barrier count s) (hs : s'.ap = Function.update s.ap p l)
    (hl : l.working = (s.ap p).working) (hne : l ≠ .returned)
    (hrest : s'.apCount = s.apCount ∧ s'.workingProcessorCount = s.workingProcessorCount ∧ s'.bsp = s.bsp) :
    Barrier count s' := by
  obtain ⟨hcount, hworking, hbsp⟩ := hrest
  have hsame : ∀ q, (s'.ap q).working = (s.ap q).working := by
    refine forall_update (p := p) ?_ fun q hq => ?_
    · rw [hs, Function.update_self, hl]
    · rw [hs, Function.update_of_ne hq]
  refine ⟨?_, ?_, fun hret => ?_⟩
  · rw [hbsp, hcount]
    exact h.apCount
  · have haps : s'.workingAps = s.workingAps := by
      unfold ApStart.workingAps
      simp only [hsame]
    rw [hworking, haps, hbsp]
    exact h.working
  · have hret' : s.bsp = .returned ∨ ∃ q, s.ap q = .returned := by
      rw [hbsp] at hret
      refine hret.imp_right ?_
      rintro ⟨q, hq⟩
      rcases eq_or_ne q p with rfl | hqp
      · rw [hs, Function.update_self] at hq
        exact absurd hq hne
      · rw [hs, Function.update_of_ne hqp] at hq
        exact ⟨q, hq⟩
    obtain ⟨hb, hall⟩ := h.returned hret'
    exact ⟨by rw [hbsp]; exact hb, fun q => (hsame q).trans (hall q)⟩

omit [DecidableEq P] in
/-- The bootstrap processor moves, and neither counts nor leaves the barrier. -/
theorem Barrier.bsp (h : Barrier count s) (hap : s'.ap = s.ap) (hcount : s'.bsp.counted = true → s'.apCount = count)
    (hworking : s'.workingProcessorCount = s.workingProcessorCount) (hb : s'.bsp.working = s.bsp.working)
    (hne : s'.bsp ≠ .returned) : Barrier count s' := by
  refine ⟨hcount, ?_, fun hret => ?_⟩
  · unfold ApStart.workingAps
    rw [hworking, hap, hb]
    exact h.working
  · rw [hap] at hret ⊢
    rw [hb]
    exact h.returned (.inr (hret.resolve_left hne))

/-- `atomic_fetch_add` of an application processor. -/
theorem Barrier.apAdd (h : Barrier count s) (hl : s.ap p = .kernelInit) :
    Barrier count ({ s with workingProcessorCount := s.workingProcessorCount + 1 }.goto p .barrier) := by
  have hmine : p ∉ s.workingAps := by
    intro hp
    have := (Finset.mem_filter.mp hp).2
    rw [hl] at this
    cases this
  have haps : ApStart.workingAps ({ s with workingProcessorCount := s.workingProcessorCount + 1 }.goto p .barrier) =
      insert p s.workingAps := by
    ext q
    simp only [ApStart.workingAps, Finset.mem_filter, Finset.mem_univ, true_and, Finset.mem_insert]
    rcases eq_or_ne q p with rfl | hq
    · simp [ApLoc.working]
    · rw [ApStart.goto_ap_ne _ _ hq]
      simp [hq]
  refine ⟨h.apCount, ?_, fun hret => ?_⟩
  · rw [haps, Finset.card_insert_of_notMem hmine]
    show (s.workingProcessorCount + 1).toNat = (s.workingAps.card + 1 + if s.bsp.working then 1 else 0) % 2 ^ 16
    have := h.working
    rw [UInt16.toNat_add, show (1 : UInt16).toNat = 1 from rfl]
    omega
  · -- nobody has returned, since this processor had not counted
    exfalso
    have hret' : s.bsp = .returned ∨ ∃ q, s.ap q = .returned := by
      refine hret.imp_right ?_
      rintro ⟨q, hq⟩
      rcases eq_or_ne q p with rfl | hqp
      · rw [ApStart.goto_ap_self] at hq
        cases hq
      · rw [ApStart.goto_ap_ne _ _ hqp] at hq
        exact ⟨q, hq⟩
    have := (h.returned hret').2 p
    rw [hl] at this
    cases this

omit [DecidableEq P] in
/-- `atomic_fetch_add` of the bootstrap processor. -/
theorem Barrier.bspAdd (h : Barrier count s) (hl : s.bsp = .booted) :
    Barrier count { s with workingProcessorCount := s.workingProcessorCount + 1, bsp := .barrier } := by
  refine ⟨fun _ => h.apCount (by rw [hl]; rfl), ?_, fun hret => ?_⟩
  · have hworking := h.working
    have hcard : ApStart.workingAps { s with
        workingProcessorCount := s.workingProcessorCount + 1, bsp := .barrier } = s.workingAps := rfl
    rw [hl] at hworking
    rw [hcard, UInt16.toNat_add, show (1 : UInt16).toNat = 1 from rfl, hworking]
    simp [BspLoc.working]
  · have := (h.returned (.inr (hret.resolve_left nofun))).1
    rw [hl] at this
    cases this

omit [DecidableEq P] in
/-- Who leaves the barrier has seen everyone counted: the counter holds less than 65536. -/
theorem Barrier.open_all (h : Barrier count s) (hcard : Fintype.card P = count.toNat) (hb : s.bsp.counted = true)
    (hopen : s.BarrierOpen) : s.bsp.working = true ∧ ∀ p, (s.ap p).working = true := by
  have hle : s.workingAps.card ≤ Fintype.card P := Finset.card_le_univ _
  have hworking := h.working
  unfold ApStart.BarrierOpen at hopen
  rw [h.apCount hb] at hopen
  have hmod := Nat.mod_le (s.workingAps.card + if s.bsp.working then 1 else 0) (2 ^ 16)
  have hbsp : s.bsp.working = true := by
    by_contra hno
    rw [if_neg hno] at hworking hmod
    omega
  rw [if_pos hbsp] at hworking hmod
  have hall : s.workingAps = Finset.univ := by
    rw [← Finset.card_eq_iff_eq_univ]
    omega
  refine ⟨hbsp, fun p => ?_⟩
  have hp : p ∈ s.workingAps := by
    rw [hall]
    exact Finset.mem_univ p
  exact (Finset.mem_filter.mp hp).2

/-- A processor leaves the barrier. -/
theorem Barrier.leave (h : Barrier count s) (hl : s.ap p = .barrier)
    (hall : s.bsp.working = true ∧ ∀ q, (s.ap q).working = true) : Barrier count (s.goto p .returned) := by
  have hsame : ∀ q, ((s.goto p .returned).ap q).working = (s.ap q).working := by
    refine forall_update (p := p) ?_ fun q hq => ?_
    · rw [ApStart.goto_ap_self, hl]
      rfl
    · rw [ApStart.goto_ap_ne _ _ hq]
  have haps : (s.goto p .returned).workingAps = s.workingAps := by
    unfold ApStart.workingAps
    simp only [hsame]
  refine ⟨h.apCount, ?_, fun _ => ⟨hall.1, fun q => (hsame q).trans (hall.2 q)⟩⟩
  rw [haps]
  exact h.working

/-! ## Every step -/

/-- A processor in the hand-out of stacks takes a step. -/
theorem ApStartInv.of_stack (h : ApStartInv B s) (hstack : ∃ a, HandOutInv a ∧ StackFollows B s' a)
    (hp : (s.ap p).pastTlsWait = false) (hl : l.pastTlsWait = false) (hs : s'.ap = Function.update s.ap p l)
    (htls : s'.ptr = s.ptr ∧ s'.apMut = s.apMut ∧ s'.apTlsUsed = s.apTlsUsed ∧ s'.apTls = s.apTls)
    (hrest : s'.apCount = s.apCount ∧ s'.workingProcessorCount = s.workingProcessorCount ∧ s'.bsp = s.bsp) :
    ApStartInv B s' := by
  obtain ⟨c, hc, hfollows⟩ := h.tls
  have hout : ∀ l : ApLoc, l.pastTlsWait = false → l.working = false ∧ l ≠ .returned := by
    intro l hl
    cases l <;> first | exact ⟨rfl, nofun⟩ | cases hl
  have hworking : l.working = (s.ap p).working := (hout l hl).1.trans (hout _ hp).1.symm
  exact ⟨hstack, ⟨c, hc, hfollows.early hp hl hs htls.1 ⟨htls.2.1, htls.2.2.1, htls.2.2.2, hrest.2.2⟩⟩,
    h.barrier.goto hs hworking (hout l hl).2 hrest⟩

/-- A processor in `tls_create` takes a step. -/
theorem ApStartInv.of_tls (h : ApStartInv B s) (htls : ∃ a, HandOutInv a ∧ TlsFollows B s' a)
    (hp : (s.ap p).pastStack = true) (hl : l.pastStack = true) (hpw : (s.ap p).working = false)
    (hlw : l.working = false) (hs : s'.ap = Function.update s.ap p l)
    (hstack : s'.rsp = s.rsp ∧ s'.apInitStackMutex = s.apInitStackMutex ∧ s'.apInitStackPtr = s.apInitStackPtr ∧
      s'.apInitStackLimit = s.apInitStackLimit ∧ s'.apInitStackSize = s.apInitStackSize)
    (hrest : s'.apCount = s.apCount ∧ s'.workingProcessorCount = s.workingProcessorCount ∧ s'.bsp = s.bsp) :
    ApStartInv B s' := by
  obtain ⟨c, hc, hfollows⟩ := h.stack
  obtain ⟨hrsp, hmutex, hptr, hlimit, hsize⟩ := hstack
  refine ⟨⟨c, hc, hfollows.late hp hl hs hrsp ⟨hmutex, hptr, hlimit, hsize, hrest.2.2⟩⟩, htls,
    h.barrier.goto hs (hlw.trans hpw.symm) (fun hret => ?_) hrest⟩
  rw [hret] at hlw
  cases hlw

omit [DecidableEq P] in
/-- The bootstrap processor takes a step. -/
theorem ApStartInv.of_bsp (h : ApStartInv B s)
    (hstack : ∀ a, HandOutInv a → StackFollows B s a → StackFollows B s' a)
    (htls : ∀ a, HandOutInv a → TlsFollows B s a → TlsFollows B s' a) (hbarrier : Barrier count s') :
    ApStartInv B s' := by
  obtain ⟨⟨a, ha, hfollows⟩, ⟨c, hc, hfollows'⟩, -⟩ := h
  exact ⟨⟨a, ha, hstack a ha hfollows⟩, ⟨c, hc, htls c hc hfollows'⟩, hbarrier⟩

/-- **Every step keeps the invariant.** -/
theorem ApStartInv.step (hcard : Fintype.card P = count.toNat) (h : ApStartInv B s) (hs : ApStartStep B s s') :
    ApStartInv B s' := by
  obtain ⟨a, ha, hstack⟩ := h.stack
  obtain ⟨c, hc, htls⟩ := h.tls
  have hbar := h.barrier
  cases hs with
  | bootAps hl =>
    refine h.of_bsp (fun a _ hf => hf.keep rfl rfl rfl rfl ?_ ?_ ?_ fun _ _ ht => ht)
      (fun a _ hf => hf.keep rfl rfl rfl ?_ (fun _ _ ht => ht) fun _ hp => .inl hp)
      (hbar.bsp rfl (fun _ => rfl) rfl ?_ nofun) <;> rw [hl] <;> rfl
  | initMut hl =>
    refine h.of_bsp (fun a _ hf => hf.keep rfl rfl rfl rfl ?_ ?_ ?_ fun _ _ ht => ht)
      (fun a ha hf => hf.initMut ha hl)
      (hbar.bsp rfl (fun _ => hbar.apCount ?_) rfl ?_ nofun) <;> rw [hl] <;> rfl
  | publishTls hl =>
    refine h.of_bsp (fun a _ hf => hf.keep rfl rfl rfl rfl ?_ ?_ ?_ fun _ _ ht => ht)
      (fun a _ hf => ⟨hf.lock, hf.used, hf.at_turn, rfl, nofun⟩)
      (hbar.bsp rfl (fun _ => hbar.apCount ?_) rfl ?_ nofun) <;> rw [hl] <;> rfl
  | setLimit hl =>
    refine h.of_bsp (fun a _ hf => hf.setLimit hl (hbar.apCount ?_))
      (fun a _ hf => hf.keep rfl rfl rfl ?_ (fun _ _ ht => ht) fun _ hp => .inl hp)
      (hbar.bsp rfl (fun _ => hbar.apCount ?_) rfl ?_ nofun) <;> rw [hl] <;> rfl
  | setSize hl =>
    refine h.of_bsp
      (fun a _ hf => ⟨hf.lock, hf.at_turn, ?_, fun _ => hf.waiting ?_, fun _ => hf.limit ?_, fun _ => rfl⟩)
      (fun a _ hf => hf.keep rfl rfl rfl ?_ (fun _ _ ht => ht) fun _ hp => .inl hp)
      (hbar.bsp rfl (fun _ => hbar.apCount ?_) rfl ?_ nofun)
    · have hptr := hf.ptr
      rwa [hl] at hptr
    all_goals rw [hl]; rfl
  | setPtr hl =>
    refine h.of_bsp (fun a ha hf => hf.setPtr ha hl)
      (fun a _ hf => hf.keep rfl rfl rfl ?_ (fun _ _ ht => ht) fun _ hp => .inl hp)
      (hbar.bsp rfl (fun _ => hbar.apCount ?_) rfl ?_ nofun) <;> rw [hl] <;> rfl
  | bspCount hl =>
    refine h.of_bsp (fun a _ hf => hf.keep rfl rfl rfl rfl ?_ ?_ ?_ fun _ _ ht => ht)
      (fun a _ hf => hf.keep rfl rfl rfl ?_ (fun _ _ ht => ht) fun _ hp => .inl hp) (hbar.bspAdd hl) <;> rw [hl] <;> rfl
  | bspPass hl hopen =>
    have hall := hbar.open_all hcard (by rw [hl]; rfl) hopen
    refine h.of_bsp (fun a _ hf => hf.keep rfl rfl rfl rfl ?_ ?_ ?_ fun _ _ ht => ht)
      (fun a _ hf => hf.keep rfl rfl rfl ?_ (fun _ _ ht => ht) fun _ hp => .inl hp)
      ⟨fun _ => hbar.apCount ?_, ?_, fun _ => ⟨rfl, hall.2⟩⟩
    case refine_6 =>
      have hworking := hbar.working
      rwa [hl] at hworking
    all_goals rw [hl]; rfl
  | @stackExchange p hl =>
    refine h.of_stack (hstack.stackExchange ha hl) (p := p) (by rw [hl]; rfl) ?_ rfl ⟨rfl, rfl, rfl, rfl⟩
      ⟨rfl, rfl, rfl⟩
    split <;> rfl
  | @stackWait p hl =>
    refine h.of_stack (hstack.stackWait ha hl) (p := p) (by rw [hl]; rfl) ?_ rfl ⟨rfl, rfl, rfl, rfl⟩ ⟨rfl, rfl, rfl⟩
    split <;> rfl
  | @stackCompare p x hl =>
    refine h.of_stack ⟨a, ha, hstack.stackCompare ha hcard hl⟩ (p := p) (by rw [hl]; rfl) ?_ rfl ⟨rfl, rfl, rfl, rfl⟩
      ⟨rfl, rfl, rfl⟩
    split <;> rfl
  | @stackAdd p x hl =>
    exact h.of_stack ⟨a, ha, hstack.stackAdd ha hcard hl⟩ (p := p) (by rw [hl]; rfl) rfl rfl ⟨rfl, rfl, rfl, rfl⟩
      ⟨rfl, rfl, rfl⟩
  | @stackStore p x hl =>
    exact h.of_stack (hstack.stackStore ha hl) (p := p) (by rw [hl]; rfl) rfl rfl ⟨rfl, rfl, rfl, rfl⟩ ⟨rfl, rfl, rfl⟩
  | @stackUnlock p hl =>
    exact h.of_stack (hstack.stackUnlock ha hl) (p := p) (by rw [hl]; rfl) rfl rfl ⟨rfl, rfl, rfl, rfl⟩ ⟨rfl, rfl, rfl⟩
  | @tlsWait p hl =>
    refine h.of_tls ⟨c, hc, htls.tlsWait hl⟩ (p := p) (by rw [hl]; rfl) ?_ (by rw [hl]; rfl) ?_ rfl
      ⟨rfl, rfl, rfl, rfl, rfl⟩ ⟨rfl, rfl, rfl⟩ <;> split <;> rfl
  | @tlsLoad p hl =>
    have hmove : TlsFollows B (s.goto p (if !s.apMut then .tlsExchange else .tlsLoad)) c := by
      refine htls.goto (fun t ht => ?_) (fun _ => .inl ?_) rfl rfl ⟨rfl, rfl, rfl, rfl⟩
      · rw [hl] at ht
        split <;> exact ht
      · rw [hl]
        rfl
    refine h.of_tls ⟨c, hc, hmove⟩ (p := p) (by rw [hl]; rfl) ?_ (by rw [hl]; rfl) ?_ rfl
      ⟨rfl, rfl, rfl, rfl, rfl⟩ ⟨rfl, rfl, rfl⟩ <;> split <;> rfl
  | @tlsExchange p hl =>
    refine h.of_tls (htls.tlsExchange hc hl) (p := p) (by rw [hl]; rfl) ?_ (by rw [hl]; rfl) ?_ rfl
      ⟨rfl, rfl, rfl, rfl, rfl⟩ ⟨rfl, rfl, rfl⟩ <;> split <;> rfl
  | @tlsTake p hl =>
    exact h.of_tls (htls.tlsTake hc hcard hl) (p := p) (by rw [hl]; rfl) rfl (by rw [hl]; rfl) rfl rfl
      ⟨rfl, rfl, rfl, rfl, rfl⟩ ⟨rfl, rfl, rfl⟩
  | @tlsCount p k hl =>
    exact h.of_tls (htls.tlsCount hc hl) (p := p) (by rw [hl]; rfl) rfl (by rw [hl]; rfl) rfl rfl
      ⟨rfl, rfl, rfl, rfl, rfl⟩ ⟨rfl, rfl, rfl⟩
  | @tlsUnlock p hl =>
    exact h.of_tls (htls.tlsUnlock hc hl) (p := p) (by rw [hl]; rfl) rfl (by rw [hl]; rfl) rfl rfl
      ⟨rfl, rfl, rfl, rfl, rfl⟩ ⟨rfl, rfl, rfl⟩
  | @apCount p hl =>
    refine ⟨⟨a, ha, hstack.late (p := p) (l := .barrier) ?_ rfl rfl rfl ⟨rfl, rfl, rfl, rfl, rfl⟩⟩,
      ⟨c, hc, htls.goto (p := p) (l := .barrier) (fun t ht => ?_) (fun _ => .inl ?_) rfl rfl ⟨rfl, rfl, rfl, rfl⟩⟩,
      hbar.apAdd hl⟩
    · rw [hl]
      rfl
    · rwa [hl] at ht
    · rw [hl]
      rfl
  | @apPass p hl hopen =>
    obtain ⟨k, hslot, -⟩ := stackAt_slot (hstack.at_turn p) (by rw [hl]; rfl)
    have hb := (BspLoc.stackPublished_sets (hstack.published hslot)).1
    have hall := hbar.open_all hcard hb hopen
    refine ⟨⟨a, ha, hstack.late (p := p) (l := .returned) ?_ rfl rfl rfl ⟨rfl, rfl, rfl, rfl, rfl⟩⟩,
      ⟨c, hc, htls.goto (p := p) (l := .returned) (fun t ht => ?_) (fun _ => .inl ?_) rfl rfl ⟨rfl, rfl, rfl, rfl⟩⟩,
      hbar.leave hl hall⟩
    · rw [hl]
      rfl
    · rwa [hl] at ht
    · rw [hl]
      rfl

theorem ApStartInv.steps (hcard : Fintype.card P = count.toNat) (h : ApStartInv B s) (hs : ApStartSteps B s s') :
    ApStartInv B s' := by
  induction hs with
  | refl => exact h
  | tail _ hstep ih => exact ih.step hcard hstep

end Steps

/-! ## What the processors rely on -/

/-- What holds whenever processors start: stacks and areas are published before they are used, lie
in their buffers and are apart; no processor hits the limit; and none returns from `__kernel_init`
before all have incremented `working_processor_count`. -/
structure ApStartSafe (B : ApBuffers count width) (s : ApStart P) : Prop where
  stack : ∀ p, (s.ap p).hasStack = true → s.bsp.stackPublished = true ∧ B.stackBuf + 128 ≤ s.rsp p ∧
    s.rsp p ≤ B.stackBuf + 128 * count.toNat
  tls : ∀ p, (s.ap p).hasTls = true → s.bsp.tlsPublished = true ∧ B.tlsBuf ≤ s.ptr p ∧
    s.ptr p + width ≤ B.tlsBuf + width * count.toNat
  stacks_apart : ∀ p q, p ≠ q → (s.ap p).hasStack = true → (s.ap q).hasStack = true →
    s.rsp p ≤ s.rsp q - 128 ∨ s.rsp q ≤ s.rsp p - 128
  areas_apart : ∀ p q, p ≠ q → (s.ap p).hasTls = true → (s.ap q).hasTls = true →
    s.ptr p + width ≤ s.ptr q ∨ s.ptr q + width ≤ s.ptr p
  kinds_apart : ∀ p q, (s.ap p).hasStack = true → (s.ap q).hasTls = true →
    s.ptr q + width ≤ s.rsp p - 128 ∨ s.rsp p ≤ s.ptr q
  no_panic : ∀ p, s.ap p ≠ .panicked
  barrier : (s.bsp = .returned ∨ ∃ p, s.ap p = .returned) → s.bsp.working = true ∧ ∀ p, (s.ap p).working = true

theorem ApLoc.hasTls_past (h : l.hasTls = true) : l.pastTlsWait = true := by
  cases l <;> first | rfl | cases h

theorem ApStartInv.safe [Fintype P] (hcard : Fintype.card P = count.toNat) (h : ApStartInv B s) :
    ApStartSafe B s := by
  obtain ⟨⟨a, ha, hstack⟩, ⟨c, hc, htls⟩, hbar⟩ := h
  have hslot : ∀ p, (s.ap p).hasStack = true → ∃ k, (a.turn p).slot = some k ∧ s.rsp p = B.stackTop k ∧
      B.stackBuf + 128 ≤ s.rsp p ∧ s.rsp p ≤ B.stackBuf + 128 * count.toNat := by
    intro p hp
    obtain ⟨k, hk, hx⟩ := stackAt_slot (hstack.at_turn p) hp
    have hlt := ha.slot_lt_card hk
    rw [hcard] at hlt
    refine ⟨k, hk, hx, ?_, ?_⟩ <;> rw [hx, ApBuffers.stackTop] <;> omega
  have harea : ∀ p, (s.ap p).hasTls = true → ∃ k, (c.turn p).slot = some k ∧ s.ptr p = B.tlsArea k ∧
      B.tlsBuf ≤ s.ptr p ∧ s.ptr p + width ≤ B.tlsBuf + width * count.toNat := by
    intro p hp
    obtain ⟨k, hk, hx⟩ := tlsAt_slot (htls.at_turn p) hp
    have hlt := hc.slot_lt_card hk
    rw [hcard] at hlt
    rw [hx]
    exact ⟨k, hk, rfl, slot_inside hlt⟩
  refine ⟨fun p hp => ?_, fun p hp => ?_, fun p q hne hp hq => ?_, fun p q hne hp hq => ?_, fun p q hp hq => ?_,
    fun p hp => ?_, hbar.returned⟩
  · obtain ⟨k, hk, -, hin⟩ := hslot p hp
    exact ⟨hstack.published hk, hin⟩
  · obtain ⟨k, -, -, hin⟩ := harea p hp
    exact ⟨htls.published (ApLoc.hasTls_past hp), hin⟩
  · obtain ⟨j, hj, hpx, -⟩ := hslot p hp
    obtain ⟨k, hk, hqx, -⟩ := hslot q hq
    have hjk : j ≠ k := fun heq => hne (ha.slot_inj p q k (heq ▸ hj) hk)
    simp only [ApBuffers.stackTop] at hpx hqx
    omega
  · obtain ⟨j, hj, hpx, -⟩ := harea p hp
    obtain ⟨k, hk, hqx, -⟩ := harea q hq
    have hjk : j ≠ k := fun heq => hne (hc.slot_inj p q k (heq ▸ hj) hk)
    rw [hpx, hqx]
    exact slot_apart hjk
  · obtain ⟨-, -, -, hlow, hhigh⟩ := hslot p hp
    obtain ⟨-, -, -, hlow', hhigh'⟩ := harea q hq
    have := B.apart
    omega
  · have := hstack.at_turn p
    rw [hp] at this
    exact this

/-- **Application processors start safely**, however `ap_count` of them interleave with each other and
with the bootstrap processor. -/
theorem apStart_safe [DecidableEq P] [Fintype P] (hcard : Fintype.card P = count.toNat)
    (hrun : ApStartSteps B (.powerOn P) s) : ApStartSafe B s :=
  (apStartInv_powerOn.steps hcard hrun).safe hcard

/-- Buffers for two application processors whose TLS image is empty. -/
def twoApBuffers : ApBuffers 2 sizeofTcb where
  tlsBuf := 0xFFFFFF1000200020
  stackBuf := 0xFFFFFF1000200060
  tls_ne := by decide
  stack_ne := by decide
  tls_end := by decide
  stack_end := by decide
  stack_upper := by decide
  apart := by decide

/-- While the first takes its stack the second finds the lock taken, and gets its TLS area before the first. -/
theorem apStart_safe_two : ∃ s : ApStart Bool, s.bsp = .barrier ∧ (∀ p, s.ap p = .kernelInit) ∧
    (s.rsp false = 0xFFFFFF10002000E0 ∧ s.rsp true = 0xFFFFFF1000200160) ∧
    (s.ptr true = 0xFFFFFF1000200020 ∧ s.ptr false = 0xFFFFFF1000200028) ∧ ApStartSafe twoApBuffers s := by
  have published : ApStartSteps twoApBuffers (.powerOn Bool) _ :=
    (((((Relation.ReflTransGen.refl.tail (.bootAps rfl)).tail (.initMut rfl)).tail (.publishTls rfl)).tail
      (.setLimit rfl)).tail (.setSize rfl)).tail (.setPtr rfl)
  have waiting := published.tail (.bspCount rfl)
  -- the first stack, while the other processor spins
  have locked := (waiting.tail (.stackExchange (p := false) rfl)).tail (.stackExchange (p := true) rfl)
  have read := (locked.tail (.stackWait (p := false) rfl)).tail (.stackCompare (p := false) rfl)
  have stored := (read.tail (.stackAdd (p := false) rfl)).tail (.stackStore (p := false) rfl)
  have first := stored.tail (.stackUnlock (p := false) rfl)
  -- the second
  have locked' := (first.tail (.stackExchange (p := true) rfl)).tail (.stackWait (p := true) rfl)
  have read' := (locked'.tail (.stackCompare (p := true) rfl)).tail (.stackAdd (p := true) rfl)
  have second := (read'.tail (.stackStore (p := true) rfl)).tail (.stackUnlock (p := true) rfl)
  -- the TLS areas
  have taken := ((second.tail (.tlsWait (p := true) rfl)).tail (.tlsLoad (p := true) rfl)).tail
    (.tlsExchange (p := true) rfl)
  have area := ((taken.tail (.tlsTake (p := true) rfl)).tail (.tlsCount (p := true) rfl)).tail (.tlsUnlock (p := true) rfl)
  have taken' := ((area.tail (.tlsWait (p := false) rfl)).tail (.tlsLoad (p := false) rfl)).tail
    (.tlsExchange (p := false) rfl)
  have area' := ((taken'.tail (.tlsTake (p := false) rfl)).tail (.tlsCount (p := false) rfl)).tail
    (.tlsUnlock (p := false) rfl)
  exact ⟨_, rfl, Bool.forall_bool.mpr ⟨rfl, rfl⟩, ⟨rfl, rfl⟩, ⟨rfl, rfl⟩, apStart_safe rfl area'⟩

end KoalemOS.Smp
