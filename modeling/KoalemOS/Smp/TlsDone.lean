import KoalemOS.Smp.ApStart
import Mathlib.Data.Fintype.EquivFin

/-!
# Giving TLS areas back (`src/kernel/tls.c`)

All TLS areas are parts of one block of the heap. A processor remembers in `fsbase` where its
area ends, and this is what `tls_done` gives to `kfree`: no pointer that `kmalloc` has returned,
unless the image is empty and the area is the first one (`tlsDone_safe_iff`).
-/

namespace KoalemOS.Smp

open KoalemOS.Library KoalemOS.Paging KoalemOS.Heap

/-! ## The code -/

/-- What `tls_reserve_ap_space` asks `kmalloc` for. -/
def tlsReserveSize (apCount imageSize : Nat) : Nat := wrap (apCount * wrap (imageSize + sizeofTcb))

/-- A store of bytes one behind the other. -/
def storeBytes : Nat → List UInt8 → KernelM Unit
  | _, [] => pure ()
  | v, x :: xs => do
    writeByte v x
    storeBytes (wrap (v + 1)) xs

/-- The bytes of `tcb->thread_ptr`. -/
def tcbBytes (tcb : Nat) : List UInt8 := (List.range sizeofTcb).map fun i => UInt8.ofNat (tcb / 256 ^ i)

/-- What `tls_create` stores in the area at `ptr`. -/
def tlsCreateStores (image : List UInt8) (ptr : Nat) : KernelM Unit := do
  let tcb := wrap (ptr + image.length)
  storeBytes tcb (tcbBytes tcb)
  storeBytes ptr image

/-- How far a processor is: it has nothing, it has taken its part of the block, it has its TLS
area, or it has given it back. -/
inductive TlsPhase where
  | start
  | taken
  | created
  | done
  deriving DecidableEq

/-- The machine with its heap, the variables of `tls.c`, and the processors; `lives` are the
blocks that `kmalloc` has returned and that have not been given back. -/
structure TlsState (P : Type) where
  kernel : Kernel
  lives : List LiveBlock
  apTls : Nat
  apTlsUsed : Nat
  phase : P → TlsPhase
  ptr : P → Nat
  fsbase : P → Nat

section System

variable {P : Type} [DecidableEq P]

/-- `tls_create`, up to `mtx_unlock`: `ap_tls_used++`. -/
def TlsState.take (s : TlsState P) (image : List UInt8) (p : P) : TlsState P :=
  { s with
    apTlsUsed := s.apTlsUsed + 1
    phase := Function.update s.phase p .taken
    ptr := Function.update s.ptr p (wrap (s.apTls + s.apTlsUsed * wrap (image.length + sizeofTcb))) }

/-- The rest of `tls_create`, with the machine as it is after the stores: `set_fsbase(tcb)`. -/
def TlsState.create (s : TlsState P) (image : List UInt8) (p : P) (k : Kernel) : TlsState P :=
  { s with
    kernel := k
    phase := Function.update s.phase p .created
    fsbase := Function.update s.fsbase p (wrap (s.ptr p + image.length)) }

/-- `tls_done`, with the machine as it is after `kfree`: `set_fsbase(0)`. -/
def TlsState.finish (s : TlsState P) (p : P) (k : Kernel) : TlsState P :=
  { s with
    kernel := k
    lives := s.lives.filter fun l => l.ptr ≠ s.fsbase p
    phase := Function.update s.phase p .done
    fsbase := Function.update s.fsbase p 0 }

/-- Each processor calls `tls_create`, and later `tls_done`. -/
inductive TlsStep (L : Layout) (image : List UInt8) : TlsState P → TlsState P → Prop where
  | take {s : TlsState P} {p : P} : s.phase p = .start → TlsStep L image s (s.take image p)
  | create {s : TlsState P} {p : P} {k : Kernel} : s.phase p = .taken →
      (tlsCreateStores image (s.ptr p)).Returns s.kernel () k → TlsStep L image s (s.create image p k)
  | finish {s : TlsState P} {p : P} {k : Kernel} : s.phase p = .created →
      (kfree L (s.fsbase p)).Returns s.kernel () k → TlsStep L image s (s.finish p k)

/-- States after any number of steps, in any order. -/
def TlsSteps (L : Layout) (image : List UInt8) : TlsState P → TlsState P → Prop :=
  Relation.ReflTransGen (TlsStep L image)

/-- `tls_reserve_ap_space` has succeeded for as many processors as there are: `kmalloc` has
returned the newest live block, in a run of the heap in which every call is clean. The image is
a part of the kernel, which lies in the last TiB of the address space. -/
structure TlsReserved [Fintype P] (L : Layout) (image : List UInt8) (s : TlsState P) : Prop where
  run : ∃ ops rest, LiveRun L CallsCleanly ops s.lives s.kernel ∧
    s.lives = .fresh s.apTls (tlsReserveSize (Fintype.card P) image.length) :: rest
  count : Fintype.card P < 2 ^ 16
  image_size : image.length < 2 ^ 40
  unused : s.apTlsUsed = 0
  start : ∀ p, s.phase p = .start

/-- Processor `p` has a TLS area. -/
def TlsState.HasArea (s : TlsState P) (p : P) : Prop := s.phase p = .taken ∨ s.phase p = .created

omit [DecidableEq P] in
/-- The area of `q` is neither freed nor changed from `s` to `s'`. -/
structure AreaKept (image : List UInt8) (q : P) (s s' : TlsState P) : Prop where
  live : ∃ l ∈ s'.lives, l.ptr ≤ s.ptr q ∧ s.ptr q + (image.length + sizeofTcb) ≤ l.ptr + l.size
  bytes : ∀ v, s.ptr q ≤ v → v < s.ptr q + (image.length + sizeofTcb) → byteAt s'.kernel v = byteAt s.kernel v

/-- What `tls_done` is to do in a state: it gives `kfree` a pointer that `kmalloc` has returned and
that is live, and keeps the areas of the other processors. -/
def DoneSafely (L : Layout) (image : List UInt8) (s : TlsState P) : Prop :=
  ∀ p, s.phase p = .created → (∃ l ∈ s.lives, l.ptr = s.fsbase p) ∧
    ∀ k, (kfree L (s.fsbase p)).Returns s.kernel () k → ∀ q, q ≠ p → s.HasArea q →
      AreaKept image q s (s.finish p k)

end System

/-! ## Stores to a block -/

/-- Bytes of a block can be stored. -/
theorem storeBytes_returns {L : Layout} {F : Nat → Nat} {V : Mem} {bs : List Block} {b : Block} {k : Kernel}
    (h : HeapState L F V bs k) (hb : b ∈ bs) {v : Nat} {xs : List UInt8} (howns : ∀ i < xs.length, b.Owns (v + i)) :
    ∃ k' V', (storeBytes v xs).Returns k () k' ∧ HeapState L F V' bs k' := by
  induction xs generalizing v V k with
  | nil => exact ⟨k, V, Outcome.returns_pure () k, h⟩
  | cons x xs ih =>
    obtain ⟨k₁, hret, hstate, -⟩ := h.store hb (howns 0 (Nat.succ_pos _)) x
    have hrest : ∀ i < xs.length, b.Owns (wrap (v + 1) + i) := by
      intro i hi
      have hnext := howns (i + 1) (Nat.succ_lt_succ hi)
      have hlt := h.stop_lt hb
      have hbelow : v + (i + 1) < b.stop := hnext.2
      rw [wrap_of_lt (by omega)]
      rwa [show v + 1 + i = v + (i + 1) by omega]
    obtain ⟨k', V', hret', hstate'⟩ := ih hstate hrest
    exact ⟨k', V', hret.bind hret', hstate'⟩

theorem tcbBytes_length (tcb : Nat) : (tcbBytes tcb).length = sizeofTcb := by
  rw [tcbBytes, List.length_map, List.length_range]

/-! ## The block of the areas -/

section Reserved

variable {P : Type} [Fintype P] {L : Layout} {image : List UInt8} {s₀ s s' : TlsState P} {p : P}

/-- The size of an area does not wrap around. -/
theorem TlsReserved.width (h : TlsReserved L image s₀) :
    wrap (image.length + sizeofTcb) = image.length + sizeofTcb := by
  have himage := h.image_size
  have htcb : sizeofTcb = 8 := rfl
  exact wrap_of_lt (by omega)

/-- There is a part for every processor. -/
theorem TlsReserved.size (h : TlsReserved L image s₀) :
    tlsReserveSize (Fintype.card P) image.length = Fintype.card P * (image.length + sizeofTcb) := by
  have hcount := h.count
  have himage := h.image_size
  have htcb : sizeofTcb = 8 := rfl
  have hmul : Fintype.card P * (image.length + sizeofTcb) ≤ 2 ^ 16 * 2 ^ 41 := Nat.mul_le_mul (by omega) (by omega)
  rw [tlsReserveSize, h.width, wrap_of_lt (by omega)]

/-- The part that begins at slot `j`, and what lies in it. -/
theorem TlsReserved.part (h : TlsReserved L image s₀) {j : Nat} (hj : j < Fintype.card P) :
    j * (image.length + sizeofTcb) + (image.length + sizeofTcb) ≤ tlsReserveSize (Fintype.card P) image.length := by
  rw [h.size, ← Nat.succ_mul]
  exact Nat.mul_le_mul_right _ hj

/-- The block can be written to. -/
theorem TlsReserved.block (h : TlsReserved L image s₀) : ∃ F V bs b, HeapState L F V bs s₀.kernel ∧ b ∈ bs ∧
    ∀ i < tlsReserveSize (Fintype.card P) image.length, b.Owns (s₀.apTls + i) := by
  obtain ⟨ops, rest, hrun, hlives⟩ := h.run
  obtain ⟨bs, hserves⟩ := hrun.servesAll
  obtain ⟨F, V, hstate⟩ := hserves.heap
  obtain ⟨b, hb, hblock⟩ := hserves.served _ (by rw [hlives]; exact List.mem_cons_self)
  exact ⟨F, V, bs, b, hstate, hb, fun i hi => hblock.owns hi⟩

/-- It ends within 64 bits. -/
theorem TlsReserved.upper (h : TlsReserved L image s₀) :
    s₀.apTls + tlsReserveSize (Fintype.card P) image.length < 2 ^ 64 := by
  obtain ⟨ops, rest, hrun, hlives⟩ := h.run
  exact (liveBlock_upper hrun (by rw [hlives]; exact List.mem_cons_self)).2

/-- No pointer inside the block is one that `kmalloc` has returned. -/
theorem TlsReserved.not_live (h : TlsReserved L image s₀) {d : Nat} (hpos : 0 < d)
    (hd : d < tlsReserveSize (Fintype.card P) image.length) : ∀ l ∈ s₀.lives, l.ptr ≠ s₀.apTls + d := by
  obtain ⟨ops, rest, hrun, hlives⟩ := h.run
  obtain ⟨bs, hserves⟩ := hrun.servesAll
  have hpair := hserves.sound.apart
  rw [hlives] at hpair ⊢
  intro l hl heq
  rcases List.mem_cons.mp hl with rfl | hl
  · simp only [LiveBlock.fresh] at heq
    omega
  · have hapart := List.rel_of_pairwise_cons hpair hl
    simp only [LiveBlock.fresh] at hapart
    omega

variable [DecidableEq P]

/-- `tls_create` goes on from slot `j`, and `tls_done` would give back a pointer inside the block. -/
theorem TlsReserved.misfree (h : TlsReserved L image s₀) (hkernel : s.kernel = s₀.kernel) (hlives : s.lives = s₀.lives)
    (hp : s.phase p = .taken) {j : Nat} (hj : j < Fintype.card P)
    (hptr : s.ptr p = s₀.apTls + j * (image.length + sizeofTcb))
    (hinside : 0 < j * (image.length + sizeofTcb) + image.length) :
    ∃ k, TlsStep L image s (s.create image p k) ∧ ¬DoneSafely L image (s.create image p k) := by
  obtain ⟨F, V, bs, b, hstate, hb, howns⟩ := h.block
  have hpart := h.part hj
  have hupper := h.upper
  have hsize : sizeofTcb = 8 := rfl
  have htcb : wrap (s.ptr p + image.length) = s₀.apTls + (j * (image.length + sizeofTcb) + image.length) := by
    rw [hptr, wrap_of_lt (by omega), Nat.add_assoc]
  have hthread : ∀ i < (tcbBytes (wrap (s.ptr p + image.length))).length,
      b.Owns (wrap (s.ptr p + image.length) + i) := by
    intro i hi
    rw [tcbBytes_length] at hi
    rw [htcb, Nat.add_assoc]
    exact howns _ (by omega)
  have himage : ∀ i < image.length, b.Owns (s.ptr p + i) := by
    intro i hi
    rw [hptr, Nat.add_assoc]
    exact howns _ (by omega)
  obtain ⟨k₁, V₁, hret₁, hstate₁⟩ := storeBytes_returns hstate hb hthread
  obtain ⟨k₂, V₂, hret₂, -⟩ := storeBytes_returns hstate₁ hb himage
  refine ⟨k₂, .create hp ?_, fun hsafe => ?_⟩
  · rw [hkernel]
    exact hret₁.bind hret₂
  · obtain ⟨⟨l, hl, hlive⟩, -⟩ := hsafe p (Function.update_self ..)
    have hfs : (s.create image p k₂).fsbase p = wrap (s.ptr p + image.length) := Function.update_self ..
    rw [hfs, htcb] at hlive
    refine h.not_live hinside (by omega) l ?_ hlive
    rw [← hlives]
    exact hl

/-- Two processors, or an image that is not empty: some order goes wrong. -/
theorem TlsReserved.unsafe_run (h : TlsReserved L image s₀) (hpos : 0 < Fintype.card P)
    (hbad : ¬(image = [] ∧ Fintype.card P = 1)) : ∃ s, TlsSteps L image s₀ s ∧ ¬DoneSafely L image s := by
  have hupper := h.upper
  have hsize : sizeofTcb = 8 := rfl
  obtain ⟨p⟩ := Fintype.card_pos_iff.mp hpos
  by_cases himage : image = []
  · -- the second processor's area begins behind the first
    have hone : 1 < Fintype.card P := by
      have hne : Fintype.card P ≠ 1 := fun hone => hbad ⟨himage, hone⟩
      omega
    obtain ⟨q, hq⟩ := Fintype.exists_ne_of_one_lt_card hone p
    have hsecond := h.part hone
    have hqstart : (s₀.take image p).phase q = .start := (Function.update_of_ne hq _ _).trans (h.start q)
    have htaken : TlsSteps L image s₀ ((s₀.take image p).take image q) :=
      (Relation.ReflTransGen.single (.take (h.start p))).tail (.take hqstart)
    have hptr : ((s₀.take image p).take image q).ptr q = s₀.apTls + 1 * (image.length + sizeofTcb) := by
      refine (Function.update_self ..).trans ?_
      show wrap (s₀.apTls + (s₀.apTlsUsed + 1) * wrap (image.length + sizeofTcb)) = _
      rw [h.unused, h.width, wrap_of_lt (by omega)]
    obtain ⟨k, hstep, hunsafe⟩ := h.misfree (s := (s₀.take image p).take image q) rfl rfl (Function.update_self ..) hone
      hptr (by omega)
    exact ⟨_, htaken.tail hstep, hunsafe⟩
  · have hptr : (s₀.take image p).ptr p = s₀.apTls + 0 * (image.length + sizeofTcb) := by
      refine (Function.update_self ..).trans ?_
      rw [h.unused, Nat.zero_mul, Nat.zero_mul, wrap_of_lt (by omega)]
    have hlength := List.length_pos_iff.mpr himage
    obtain ⟨k, hstep, hunsafe⟩ :=
      h.misfree (s := s₀.take image p) rfl rfl (Function.update_self ..) hpos hptr (by omega)
    exact ⟨_, (Relation.ReflTransGen.single (.take (h.start p))).tail hstep, hunsafe⟩

/-! ## One processor and an empty image -/

/-- What holds until the only processor gives its area, the whole block, back. -/
structure SoleInv (s₀ s : TlsState P) : Prop where
  tls : s.apTls = s₀.apTls
  start : ∀ p, s.phase p = .start → s.apTlsUsed = 0
  taken : ∀ p, s.phase p = .taken → s.ptr p = s₀.apTls
  created : ∀ p, s.phase p = .created → s.fsbase p = s₀.apTls
  live : ∀ p, s.phase p ≠ .done → ∃ l ∈ s.lives, l.ptr = s₀.apTls

omit [DecidableEq P] in
theorem TlsReserved.soleInv (h : TlsReserved L image s₀) : SoleInv s₀ s₀ where
  tls := rfl
  start _ _ := h.unused
  taken p hp := by rw [h.start p] at hp; cases hp
  created p hp := by rw [h.start p] at hp; cases hp
  live _ _ := by
    obtain ⟨ops, rest, -, hlives⟩ := h.run
    exact ⟨_, by rw [hlives]; exact List.mem_cons_self, rfl⟩

omit [Fintype P] in
theorem SoleInv.step (hsole : ∀ p q : P, p = q) (hlt : s₀.apTls < 2 ^ 64) (h : SoleInv s₀ s)
    (hs : TlsStep L [] s s') : SoleInv s₀ s' := by
  -- after the step every processor is the one that took it
  cases hs with
  | @take p hp =>
    have hphase : ∀ q, (s.take [] p).phase q = .taken := fun q => by
      rw [hsole q p]
      exact Function.update_self ..
    refine ⟨h.tls, fun q hq => ?_, fun q _ => ?_, fun q hq => ?_, fun q _ => h.live p (by rw [hp]; nofun)⟩
    · rw [hphase q] at hq
      cases hq
    · rw [hsole q p]
      refine (Function.update_self ..).trans ?_
      rw [h.start p hp, h.tls, Nat.zero_mul, Nat.add_zero, wrap_of_lt hlt]
    · rw [hphase q] at hq
      cases hq
  | @create p k hp _ =>
    have hphase : ∀ q, (s.create [] p k).phase q = .created := fun q => by
      rw [hsole q p]
      exact Function.update_self ..
    refine ⟨h.tls, fun q hq => ?_, fun q hq => ?_, fun q _ => ?_, fun q _ => h.live p (by rw [hp]; nofun)⟩
    · rw [hphase q] at hq
      cases hq
    · rw [hphase q] at hq
      cases hq
    · rw [hsole q p]
      refine (Function.update_self ..).trans ?_
      rw [h.taken p hp, List.length_nil, Nat.add_zero, wrap_of_lt hlt]
  | @finish p k hp _ =>
    have hphase : ∀ q, (s.finish p k).phase q = .done := fun q => by
      rw [hsole q p]
      exact Function.update_self ..
    refine ⟨h.tls, fun q hq => ?_, fun q hq => ?_, fun q hq => ?_, fun q hq => absurd (hphase q) hq⟩ <;>
      rw [hphase q] at hq <;> cases hq

/-- **`tls_done`.** However the processors interleave, each gives `kfree` a live pointer that `kmalloc`
has returned, and leaves the areas of the others alone, exactly when the TLS image is empty and
there is one application processor. -/
theorem tlsDone_safe_iff (hpos : 1 ≤ Fintype.card P) (h : TlsReserved L image s₀) :
    (∀ s, TlsSteps L image s₀ s → DoneSafely L image s) ↔ image = [] ∧ Fintype.card P = 1 := by
  constructor
  · intro hall
    by_contra hbad
    obtain ⟨s, hrun, hunsafe⟩ := h.unsafe_run hpos hbad
    exact hunsafe (hall s hrun)
  · rintro ⟨rfl, hone⟩ s hrun
    have hsole : ∀ p q : P, p = q := Fintype.card_le_one_iff.mp hone.le
    have hlt : s₀.apTls < 2 ^ 64 := by
      have := h.upper
      omega
    have hinv : SoleInv s₀ s := by
      induction hrun with
      | refl => exact h.soleInv
      | tail _ hstep ih => exact ih.step hsole hlt hstep
    intro p hp
    refine ⟨?_, fun k _ q hq => absurd (hsole q p) hq⟩
    rw [hinv.created p hp]
    exact hinv.live p (by rw [hp]; nofun)

end Reserved

/-! ### The first heap -/

/-- One application processor, for which the first page of the heap has room. -/
theorem firstHeap_reserved (image : List UInt8) (hsize : unitUp (tlsReserveSize 1 image.length) ≤ 4064)
    (himage : image.length < 2 ^ 40) : ∃ s : TlsState Unit, TlsReserved exampleLayout image s := by
  obtain ⟨k, hrun, -⟩ := firstHeap_kmalloc CallsCleanly (tlsReserveSize 1 image.length) hsize trivial
  exact ⟨⟨k, _, 0xFFFFFF0001001020, 0, fun _ => .start, fun _ => 0, fun _ => 0⟩, ⟨_, [], hrun, rfl⟩,
    by decide, himage, rfl, fun _ => rfl⟩

/-- With an empty image its area is the whole block. -/
theorem tlsDone_safe_iff_sole : ∃ s₀ : TlsState Unit, ∀ s, TlsSteps exampleLayout [] s₀ s →
    DoneSafely exampleLayout [] s := by
  obtain ⟨s₀, h⟩ := firstHeap_reserved [] (by decide) (by decide)
  exact ⟨s₀, (tlsDone_safe_iff (by decide) h).mpr ⟨rfl, by decide⟩⟩

/-- With an image of one byte it gives back the pointer behind this byte. -/
theorem tlsDone_misfrees : ∃ s₀ : TlsState Unit, TlsReserved exampleLayout [42] s₀ ∧
    ¬∀ s, TlsSteps exampleLayout [42] s₀ s → DoneSafely exampleLayout [42] s := by
  obtain ⟨s₀, h⟩ := firstHeap_reserved [42] (by decide) (by decide)
  obtain ⟨s, hrun, hunsafe⟩ := h.unsafe_run (by decide) (by simp)
  exact ⟨s₀, h, fun hall => hunsafe (hall s hrun)⟩

end KoalemOS.Smp
