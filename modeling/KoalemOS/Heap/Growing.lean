import KoalemOS.Heap.Shrinking

/-!
# `krealloc` to a larger size

A block that is made larger takes over the free entries behind it, or is copied to another one
and freed. The entries that are taken over count only with the size of the last of them, so the
blocks fill the heap again only in special cases (`krealloc_grows_iff`).
-/

namespace KoalemOS.Heap

open KoalemOS.Library KoalemOS.Library.LinkedList KoalemOS.Mmap KoalemOS.Paging

variable {L : Layout} {e e' lo : Nat} {F F' : Nat → Nat} {V V' : Mem} {s s' : Kernel} {b c d : Block}
  {bs bs' bs₁ xs xs' ys ys' : List Block} {size : Nat} {E : Stop → Prop}

/-! ## The copy -/

theorem unitUp_of_mod (h : size % 16 = 0) : unitUp size = size := by
  unfold unitUp
  omega

theorem Supply.step (h : Supply size F bs s F' bs₁ s') {t : Kernel} (hstep : DataStep s' t) :
    Supply size F bs s F' bs₁ t := by
  cases h with
  | reuse hfit hs => exact .reuse hfit (hs.trans hstep)
  | extend hext hs => exact .extend hext (hs.trans hstep)

theorem Supply.of_fits (h : Supply size F bs s F' bs₁ s') (hfit : ∃ b ∈ bs, b.Fits size) :
    bs₁ = bs ∧ s'.kernelHeapEnd = s.kernelHeapEnd := by
  cases h with
  | reuse _ hstep => exact ⟨rfl, by rw [hstep.same]⟩
  | extend hext _ =>
    obtain ⟨b, hb, hfits⟩ := hfit
    exact absurd hfits (hext.noRoom b hb)

/-- The block that is taken was in no use. -/
theorem Supply.fresh (h : Supply size F bs s F' bs₁ s') (hstate : HeapState L F V bs s)
    (htaken : Taken size bs₁ d bs') {x : Block} (hx : x ∈ bs) (hused : x.used = true) : x.addr ≠ d.addr := by
  intro heq
  obtain ⟨hd, hfree, -⟩ := htaken.mem
  rcases h.mem.2 d hd with hd | ⟨hend, -⟩
  · rw [hstate.arena.eq_of_addr hx hd heq, hfree] at hused
    cases hused
  · have hbound := (hstate.arena.bounds hx).2
    simp only [Block.stop] at hbound
    omega

/-- Where a request that does not fit would put the end of the heap. -/
def EndWithin (L : Layout) (size : Nat) (bs : List Block) (s : Kernel) : Prop :=
  (∀ b ∈ bs, ¬b.Fits size) → (mmapGetPages s.physMmap (pageCount size)).1 ≠ 0 →
    s.kernelHeapEnd + 4096 * pageCount size ≤ L.kernelHeapStart + kernelHeapMaxSize

/-- A used block of the heap has been copied to a new one of `size` bytes, at `p`. -/
structure CopiedTo (L : Layout) (size : Nat) (F : Nat → Nat) (V : Mem) (bs : List Block) (b : Block) (s : Kernel)
    (p : Nat) (F' : Nat → Nat) (V' : Mem) (bs₁ : List Block) (d : Block) (bs' : List Block) (s' : Kernel) : Prop where
  supply : Supply size F bs s F' bs₁ s'
  taken : Taken size bs₁ d bs'
  pointer : p = d.memory
  state : HeapState L F' V' bs' s'
  kept : ∀ v, InUse bs v → V' v = V v
  copied : ∀ i < b.size, V' (d.memory + i) = V (b.memory + i)

/-- `kreallocCopy` -/
theorem HeapState.kreallocCopy (h : HeapState L F V bs s) (hb : b ∈ bs) (hused : b.used = true)
    (hunit : size % 16 = 0) (hlt : b.size < size) (hsize : size + 48 ≤ 2 ^ 64) (hlimit : EndWithin L size bs s)
    (hE : (∃ d ∈ bs, d.Fits size) ∨ ∀ e, IsPanic e → E e) :
    Outcome.wp E (kreallocCopy b.memory b.addr size) (fun p s' =>
      (p = 0 ∧ s' = s ∧ ∀ d ∈ bs, ¬d.Fits size) ∨
      p ≠ 0 ∧ ∃ F' V' bs₁ d bs', CopiedTo L size F V bs b s p F' V' bs₁ d bs' s') s := by
  have hup := unitUp_of_mod hunit
  have hwp := h.kmalloc (E := E) hsize (by rwa [hup]) (by rw [hup]; exact hE.imp_right fun hE _ _ => .inl hE)
  rw [hup] at hwp
  refine Outcome.wp_bind (Outcome.wp_mono hwp fun p s₁ hs => ?_)
  rcases hs with ⟨rfl, rfl, hnone, -⟩ | ⟨F₁, V₁, bs₁, d, bs', hsupply, htaken, rfl, hstate₁, hkept⟩
  · rw [if_pos rfl]
    exact Outcome.wp_of_returns (Outcome.returns_pure _ _) (.inl ⟨rfl, rfl, hnone⟩)
  have hne : d.memory ≠ 0 := by simp only [Block.memory]; omega
  rw [if_neg hne]
  obtain ⟨⟨c, hc, hcaddr, -, hcfits, -⟩, hold, -⟩ := htaken.used
  have hcmem : c.memory = d.memory := by simp only [Block.memory, hcaddr]
  have hb₁ : b ∈ bs' := hold b (hsupply.mem.1 b hb) hused
  have hbc : b ≠ c := by
    rintro rfl
    exact hsupply.fresh h htaken hb hused hcaddr
  -- the size of the block is still in its header
  have hlisted : Listed L s₁.kernelHeapEnd F₁ (fun _ => False) V₁ s₁ bs' s₁ := hstate₁.listed fun v hv => hv.elim
  obtain ⟨ps, qs, rfl⟩ := List.append_of_mem hb₁
  refine Outcome.wp_bind_returns hlisted.entrySize ?_
  have hcbound := hstate₁.arena.bounds hc
  have hbbound := hstate₁.arena.bounds hb₁
  have hcalign := hstate₁.aligned c hc
  have hbalign := hstate₁.aligned b hb₁
  have hapart := hstate₁.arena.apart hb₁ hc hbc
  rw [← hcmem]
  simp only [Block.stop] at hcbound hbbound hapart
  have hdest : L.RangeIn s₁.kernelHeapEnd c.memory b.size := by
    refine ⟨?_, ?_, ?_⟩ <;> simp only [Block.memory] <;> omega
  have hsrc : L.RangeIn s₁.kernelHeapEnd b.memory b.size := by
    refine ⟨?_, ?_, ?_⟩ <;> simp only [Block.memory] <;> omega
  refine Outcome.wp_bind (Outcome.wp_mono (hstate₁.pages.memcpy hdest hsrc ?_) fun _ s₂ hs => ?_)
  · simp only [Block.memory]
    omega
  obtain ⟨⟨V₂, hpages₂, hmoved⟩, hstep₂, hlast₂⟩ := hs
  have hother : ∀ v, ¬c.Owns v → V₂ v = V₁ v := by
    intro v hv
    refine hmoved.other v ?_
    simp only [Block.Owns, Block.stop, Block.memory] at hv ⊢
    omega
  refine Outcome.wp_of_returns (Outcome.returns_pure _ s₂) (.inr ⟨?_, F₁, V₂, bs₁, d, _, hsupply.step hstep₂,
    htaken, hcmem, hstate₁.write hc hpages₂ hstep₂ hlast₂ hother, fun v hv => ?_, fun i hi => ?_⟩)
  · rwa [hcmem]
  · rw [hother v, hkept v hv]
    obtain ⟨x, hx, hxused, howns⟩ := hv
    intro hcowns
    have hx₁ := hold x (hsupply.mem.1 x hx) hxused
    have hxc : x ≠ c := by
      rintro rfl
      exact hsupply.fresh h htaken hx hxused hcaddr
    have hapart := hstate₁.arena.apart hx₁ hc hxc
    simp only [Block.Owns, Block.stop, Block.memory] at howns hcowns hapart
    omega
  · rw [← hcmem, hmoved.copied i (Nat.zero_le i) hi]
    refine hkept _ ⟨b, hb, hused, ?_⟩
    simp only [Block.Owns, Block.stop, Block.memory]
    omega

/-- `krealloc` where the block can not stay: nothing has changed, or it is copied, and freed then. -/
theorem HeapState.krealloc_rule {Q : Nat → Kernel → Prop} (h : HeapState L F V (xs ++ b :: ys) s)
    (hused : b.used = true) (hlt : b.size < unitUp size) (hsize : size + 48 ≤ 2 ^ 64)
    (hnone : ∀ ns c zs, ¬Absorbs (unitUp size) ys ns c zs)
    (hlimit : EndWithin L (unitUp size) (xs ++ b :: ys) s)
    (hE : (∃ d ∈ xs ++ b :: ys, d.Fits (unitUp size)) ∨ ∀ e, IsPanic e → E e)
    (hfull : (∀ d ∈ xs ++ b :: ys, ¬d.Fits (unitUp size)) → Q 0 s)
    (hcopied : ∀ p F' V' bs₁ d bs' t, p ≠ 0 →
      CopiedTo L (unitUp size) F V (xs ++ b :: ys) b s p F' V' bs₁ d bs' t → b ∈ bs' →
      Outcome.wp E (Heap.kfree L b.memory) (fun _ s' => Q p s') t) :
    Outcome.wp E (Heap.krealloc L b.memory size) Q s := by
  have hup : unitUp size + 48 ≤ 2 ^ 64 := by
    unfold unitUp
    omega
  unfold Heap.krealloc
  rw [alignUp_unit (by omega), h.entry_eq (b := b) (by simp)]
  refine Outcome.wp_bind (Outcome.wp_mono (h.kreallocInPlace (unitUp_mod size)) fun done s₁ hs => ?_)
  rcases hs with ⟨-, out, hresized, -⟩ | ⟨rfl, rfl, -⟩
  · -- the block can not stay
    cases hresized with
    | same heq => omega
    | moveDown hgt _ => omega
    | split hgt _ _ => omega
    | absorb _ habs _ => exact absurd habs (hnone _ _ _)
  rw [if_neg (by decide)]
  refine Outcome.wp_bind (Outcome.wp_mono (h.kreallocCopy (b := b) (by simp) hused (unitUp_mod size) hlt hup hlimit hE)
    fun p t hs => ?_)
  rcases hs with ⟨rfl, rfl, hno⟩ | ⟨hp, F', V', bs₁, d, bs', hc⟩
  · rw [if_pos rfl]
    exact Outcome.wp_of_returns (Outcome.returns_pure _ _) (hfull hno)
  · rw [if_neg hp]
    have hb : b ∈ bs' := hc.taken.used.2.1 b (hc.supply.mem.1 b (by simp)) hused
    exact Outcome.wp_bind (Outcome.wp_mono (hcopied p F' V' bs₁ d bs' t hp hc hb) fun _ s' hs =>
      Outcome.wp_of_returns (Outcome.returns_pure _ s') hs)

theorem HeapState.krealloc_moves (h : HeapState L F V (xs ++ b :: ys) s) (hused : b.used = true)
    (hlt : b.size < unitUp size) (hsize : size + 48 ≤ 2 ^ 64)
    (hnone : ∀ ns c zs, ¬Absorbs (unitUp size) ys ns c zs)
    (hlimit : EndWithin L (unitUp size) (xs ++ b :: ys) s) (hE : ∀ e, IsPanic e → E e) :
    Outcome.wp E (krealloc L b.memory size) (fun p s' =>
      (p = 0 ∧ s' = s ∧ ∀ d ∈ xs ++ b :: ys, ¬d.Fits (unitUp size)) ∨
      p ≠ 0 ∧ ∃ F' V' bs₁ d bs' t, CopiedTo L (unitUp size) F V (xs ++ b :: ys) b s p F' V' bs₁ d bs' t ∧
        ∃ xs' c ys' bs'', Joined bs' b xs' c ys' ∧ Trimmed t.kernelHeapEnd xs' c ys' bs'' s'.kernelHeapEnd ∧
          Remains L t.kernelHeapEnd F' (OthersUse bs' b) V' bs'' s') s := by
  refine h.krealloc_rule hused hlt hsize hnone hlimit (.inr hE) (fun hno => .inl ⟨rfl, rfl, hno⟩) ?_
  intro p F' V' bs₁ d bs' t hp hc hb
  obtain ⟨ps, qs, rfl⟩ := List.append_of_mem hb
  refine Outcome.wp_mono (hc.state.kfree (.inl hE)) fun _ s' hs => .inr ⟨hp, F', V', bs₁, d, _, t, hc, ?_⟩
  obtain ⟨xs', b₁, c, ys', bs'', hlast, hnext, htrimmed, hremains, -⟩ := hs
  exact ⟨xs', c, ys', bs'', .mk hlast hnext, htrimmed, hremains⟩

/-! ## What is asked of it -/

/-- From `s` to `s'` the block `b` of `bs` has been made larger and is at `p` now, or `p` is 0 and
the block is what it was. The blocks fill the heap, and the other used ones are what they were. -/
def Grows (L : Layout) (size : Nat) (bs : List Block) (b : Block) (s : Kernel) (p : Nat) (s' : Kernel) : Prop :=
  ∃ bs', Filled L bs' s' ∧ (∀ d ∈ bs, d ≠ b → d.used = true → d ∈ bs' ∧ SameBytes d s s') ∧
    (p = 0 ∧ b ∈ bs' ∧ SameBytes b s s' ∨
      ∃ c ∈ bs', c.memory = p ∧ c.used = true ∧ size ≤ c.size ∧
        ∀ i < b.size, byteAt s' (p + i) = byteAt s (b.memory + i))

/-- The blocks fill the heap again, unless the last header crosses the end of a page. -/
theorem Trimmed.tiles_iff (h : Trimmed e xs c ys bs' e') (ht : Tiles lo (xs ++ c :: ys) e) (ha : c.addr % 16 = 0)
    (hlt : c.addr + 4096 < 2 ^ 64) : Tiles lo bs' e' ↔ (Trims e xs c ys → c.addr % 4096 ≠ 4080) := by
  constructor
  · intro ht' htrims hcross
    obtain ⟨hended, rfl⟩ := h.ended htrims
    have hup : pageUp c.addr = c.addr + 16 := by
      unfold pageUp
      omega
    cases hended with
    | drop heq => omega
    | resize _ =>
      have hfills := (Placed.append_cons_iff.mp ht').2
      simp only [Placed.nil_iff, Block.stop] at hfills
      omega
  · exact h.tiles ht ha hlt

/-- One block is taken. -/
theorem Taken.unique (h : Taken size bs b bs') {bs'' : List Block} (h' : Taken size bs c bs'') :
    b = c ∧ bs' = bs'' := by
  generalize hbs : bs = bs₀ at h'
  cases h with
  | @mk xs ys b hfits hfirst =>
    cases h' with
    | @mk xs' ys' c hfits' hfirst' =>
      have hinj : ∀ {us ws : List Block}, (∀ x ∈ us, ¬x.Fits size) → (∀ x ∈ ws, ¬x.Fits size) →
          us ++ b :: ys = ws ++ c :: ys' → us = ws ∧ b = c ∧ ys = ys' := by
        intro us
        induction us with
        | nil =>
          intro ws _ hws heq
          cases ws with
          | nil => exact ⟨rfl, (List.cons.inj heq).1, (List.cons.inj heq).2⟩
          | cons w ws => exact absurd ((List.cons.inj heq).1 ▸ hfits) (hws w List.mem_cons_self)
        | cons u us ih =>
          intro ws hus hws heq
          cases ws with
          | nil => exact absurd ((List.cons.inj heq).1 ▸ hfits') (hus u List.mem_cons_self)
          | cons w ws =>
            obtain ⟨rfl, htail⟩ := List.cons.inj heq
            obtain ⟨rfl, hrest⟩ := ih (fun x hx => hus x (List.mem_cons_of_mem _ hx))
              (fun x hx => hws x (List.mem_cons_of_mem _ hx)) htail
            exact ⟨rfl, hrest⟩
      obtain ⟨rfl, rfl, rfl⟩ := hinj hfirst hfirst' hbs
      exact ⟨rfl, rfl⟩

/-! ## In its place, and to another one -/

/-- What `krealloc` guarantees when it returns `p` in `s'`. -/
inductive KreallocPost (L : Layout) (size : Nat) (bs : List Block) (b : Block) (s : Kernel) (p : Nat) (s' : Kernel) :
    Prop where
  | none : p = 0 → s' = s → KreallocPost L size bs b s p s'
  | some (bs' : List Block) (c : Block) : LaidOut L bs' s' → c ∈ bs' → c.memory = p → c.used = true → size ≤ c.size →
      (∀ d ∈ bs, d ≠ b → d.used = true → d ∈ bs' ∧ SameBytes d s s') →
      (∀ d ∈ bs', d.used = true → d = c ∨ d ∈ bs ∧ d ≠ b) →
      (∀ i < min b.size (unitUp size), byteAt s' (p + i) = byteAt s (b.memory + i)) → KreallocPost L size bs b s p s'

/-- From `s` to `s'` the used block `c` has taken the place of `b`, with what `b` held, and the
other used blocks are what they were. -/
structure Replaced (size : Nat) (bs : List Block) (b : Block) (s : Kernel) (bs' : List Block) (c : Block)
    (s' : Kernel) : Prop where
  mem : c ∈ bs'
  used : c.used = true
  fits : unitUp size ≤ c.size
  old : ∀ d ∈ bs, d ≠ b → d.used = true → d ∈ bs' ∧ SameBytes d s s' ∧ d.addr ≠ c.addr
  new : ∀ d ∈ bs', d.used = true → d = c ∨ d ∈ bs ∧ d ≠ b
  bytes : ∀ i < min b.size (unitUp size), byteAt s' (c.memory + i) = byteAt s (b.memory + i)

/-- A block that is resized in its place. -/
theorem HeapState.resized_replaced {out : List Block} (h : HeapState L F V (xs ++ b :: ys) s) (hused : b.used = true)
    (hr : Resized (unitUp size) b ys out)
    (hlisted : Listed L s.kernelHeapEnd F (Kept (unitUp size) (xs ++ b :: ys) b) V s (xs ++ out) s')
    (harena : Arena L.kernelHeapStart (xs ++ out) s.kernelHeapEnd) :
    ∃ V' c, HeapState L F V' (xs ++ out) s' ∧ c.memory = b.memory ∧
      Replaced size (xs ++ b :: ys) b s (xs ++ out) c s' := by
  obtain ⟨-, -, hheap⟩ := h.resized hr hlisted
  obtain ⟨V', hstate', hkept⟩ := hheap harena
  obtain ⟨c, rest, rfl, haddr, hcused, hcsize, -, hold, hnew⟩ := hr.cases
  have hmem : c.memory = b.memory := by simp only [Block.memory, haddr]
  obtain ⟨hbefore, hbehind⟩ := h.arena.spaced.ne_around
  have hne : ∀ x ∈ xs ++ ys, x.addr ≠ b.addr := fun x hx =>
    (List.mem_append.mp hx).elim (hbefore x) (hbehind x)
  refine ⟨V', c, hstate', hmem, by simp, hcused.trans hused, hcsize, fun d hd hdb hdused => ?_,
    fun d hd hdused => ?_, fun i hi => ?_⟩
  · have hd₁ : d ∈ xs ++ ys := by
      simp only [List.mem_append, List.mem_cons] at hd ⊢
      tauto
    have hd' : d ∈ xs ++ c :: rest := by
      rcases List.mem_append.mp hd₁ with hd₁ | hd₁
      · exact List.mem_append_left _ hd₁
      · exact List.mem_append_right _ (List.mem_cons_of_mem _ (hold d hd₁ hdused))
    refine ⟨hd', h.sameBytes hstate' hd hd' fun v hv => hkept v (.inl ⟨d, hd, hdb, hdused, hv⟩), ?_⟩
    rw [haddr]
    exact hne d hd₁
  · have hback : ∀ x ∈ xs ++ ys, x = c ∨ x ∈ xs ++ b :: ys ∧ x ≠ b := fun x hx => by
      refine .inr ⟨?_, fun heq => hne x hx (by rw [heq])⟩
      simp only [List.mem_append, List.mem_cons] at hx ⊢
      tauto
    simp only [List.mem_append, List.mem_cons] at hd
    rcases hd with hd | hd | hd
    · exact hback d (List.mem_append_left _ hd)
    · exact .inl hd
    · exact hback d (List.mem_append_right _ (hnew d hd hdused))
  · have howns : b.Owns (b.memory + i) := by
      simp only [Block.Owns, Block.stop, Block.memory]
      omega
    have hcowns : c.Owns (b.memory + i) := by
      simp only [Block.Owns, Block.stop, Block.memory, haddr]
      omega
    rw [hmem, hstate'.pages.byteAt (hstate'.within (b := c) (by simp) hcowns),
      h.pages.byteAt (h.within (b := b) (by simp) howns), hkept]
    exact .inr ⟨by omega, by omega⟩

/-- A block that stays in its place. -/
theorem HeapState.kreallocPost_inPlace {out : List Block} (h : HeapState L F V (xs ++ b :: ys) s) (hused : b.used = true)
    (hle : size ≤ unitUp size) (hr : Resized (unitUp size) b ys out)
    (hlisted : Listed L s.kernelHeapEnd F (Kept (unitUp size) (xs ++ b :: ys) b) V s (xs ++ out) s')
    (htiles : Tiles L.kernelHeapStart (xs ++ out) s'.kernelHeapEnd) :
    KreallocPost L size (xs ++ b :: ys) b s b.memory s' := by
  obtain ⟨hend, -, -⟩ := h.resized hr hlisted
  have harena := htiles.arena
  rw [hend] at harena
  obtain ⟨V', c, hstate', hmem, hrep⟩ := h.resized_replaced hused hr hlisted harena
  rw [← hmem]
  exact .some _ c ⟨htiles, F, V', hstate'⟩ hrep.mem rfl hrep.used (hle.trans hrep.fits)
    (fun d hd hne hdused => ⟨(hrep.old d hd hne hdused).1, (hrep.old d hd hne hdused).2.1⟩) hrep.new hrep.bytes

theorem KreallocPost.grows {p : Nat} (h : KreallocPost L size bs b s p s') (hfilled : Filled L bs s) (hb : b ∈ bs)
    (hlt : b.size < unitUp size) : Grows L size bs b s p s' := by
  cases h with
  | none hp hs =>
    subst hs
    exact ⟨bs, hfilled, fun d hd _ _ => ⟨hd, fun _ _ => rfl⟩, .inl ⟨hp, hb, fun _ _ => rfl⟩⟩
  | some bs' c hlaid hc hmem hcused hsize hold _ hbytes =>
    exact ⟨bs', hlaid.filled, hold, .inr ⟨c, hc, hmem, hcused, hsize, fun i hi => hbytes i (by omega)⟩⟩

/-- A block that is copied and freed. -/
theorem CopiedTo.grows {p : Nat} {t : Kernel} {bs'' : List Block} (h : CopiedTo L (unitUp size) F V bs b s p F' V' bs₁ d bs' t)
    (hstate : HeapState L F V bs s) (hb : b ∈ bs) (hused : b.used = true) (hlt : b.size < unitUp size)
    (hle : size ≤ unitUp size) (hjoined : Joined bs' b xs c ys)
    (htrimmed : Trimmed t.kernelHeapEnd xs c ys bs'' s'.kernelHeapEnd)
    (hremains : Remains L t.kernelHeapEnd F' (OthersUse bs' b) V' bs'' s')
    (htiles : Tiles L.kernelHeapStart bs'' s'.kernelHeapEnd) : Grows L size bs b s p s' := by
  obtain ⟨hsupply, htaken, rfl, hstate₁, hkept, hcopied⟩ := h
  obtain ⟨⟨a, ha, haaddr, haused, hafits, -⟩, hold, -⟩ := htaken.used
  have hamem : a.memory = d.memory := by simp only [Block.memory, haaddr]
  have hne : a ≠ b := by
    rintro rfl
    exact hsupply.fresh hstate htaken hb hused haaddr
  obtain ⟨W, hpages, -, hrest⟩ := hremains.listed.bytes
  -- the bytes of the used blocks other than the one that is freed
  have hbyte : ∀ x ∈ bs', x ≠ b → x.used = true → ∀ v, x.Owns v → byteAt s' v = some (V' v) := by
    intro x hx hxb hxused v hv
    rw [hpages.byteAt (hstate₁.within hx hv), hrest v ⟨x, hx, hxb, hxused, hv⟩]
  have hstays : ∀ x ∈ bs', x ≠ b → x.used = true → x ∈ bs'' := fun x hx hxb hxused =>
    (htrimmed.used hjoined.free hxused).mpr (hjoined.used hx hxb hxused)
  refine ⟨bs'', ⟨hremains.listed.entries hremains.first, htiles⟩, fun x hx hxb hxused => ?_,
    .inr ⟨a, hstays a ha hne haused, hamem, haused, hle.trans hafits, fun i hi => ?_⟩⟩
  · have hx' := hold x (hsupply.mem.1 x hx) hxused
    refine ⟨hstays x hx' hxb hxused, fun v hv => ?_⟩
    rw [hbyte x hx' hxb hxused v hv, hstate.pages.byteAt (hstate.within hx hv), hkept v ⟨x, hx, hxused, hv⟩]
  · have howns : a.Owns (d.memory + i) := by
      simp only [Block.Owns, Block.stop, Block.memory, haaddr]
      omega
    have hbowns : b.Owns (b.memory + i) := by
      simp only [Block.Owns, Block.stop, Block.memory]
      omega
    rw [hbyte a ha hne haused _ howns, hcopied i hi, hstate.pages.byteAt (hstate.within hb hbowns)]

/-! ## When the blocks fill the heap -/

/-- The free blocks a larger block takes over are one, behind a block of no bytes. And when there are
none and it is copied to a block among the others, the last header does not come to cross the
end of a page. -/
structure GrowsTiled (size e : Nat) (xs : List Block) (b : Block) (ys : List Block) : Prop where
  takenOver : ∀ ns c zs, Absorbs size ys ns c zs → ns = [] ∧ b.size = 0
  moved : (∀ ns c zs, ¬Absorbs size ys ns c zs) → ∀ d bs' xs' c ys', Taken size (xs ++ b :: ys) d bs' →
    Joined bs' b xs' c ys' → Trims e xs' c ys' → c.addr % 4096 ≠ 4080

/-- Without room behind the block `krealloc` keeps everything in its place, and may ask for more. -/
theorem HeapState.krealloc_asks (h : HeapState L F V (xs ++ b :: ys) s) (hlt : b.size < unitUp size)
    (hnone : ∀ ns c zs, ¬Absorbs (unitUp size) ys ns c zs) (hw : KreallocWithin L s b.memory size) :
    WithinLimit L s size := by
  have hwp := h.kreallocInPlace (E := fun _ => False) (unitUp_mod size)
  obtain ⟨done, s', hret, hpost⟩ := Outcome.returns_of_wp hwp fun _ _ _ hf => hf
  rcases hpost with ⟨-, out, hresized, -⟩ | ⟨rfl, rfl, -⟩
  · cases hresized with
    | same heq => omega
    | moveDown hgt _ => omega
    | split hgt _ _ => omega
    | absorb _ habs _ => exact absurd habs (hnone _ _ _)
  · refine hw s' ?_
    rwa [h.entry_eq (b := b) (by simp)]

theorem HeapState.endWithin (h : HeapState L F V bs s) (hw : WithinLimit L s size) :
    EndWithin L (unitUp size) bs s := fun hnone => hw.2 (h.findFree_none hnone)

/-- The heap is trimmed only when the block was copied to one before it. -/
theorem CopiedTo.reused {p : Nat} {t : Kernel} (h : CopiedTo L size F V bs b s p F' V' bs₁ d bs' t)
    (hb : b ∈ bs) (hstate : HeapState L F V bs s) (hused : b.used = true) (hjoined : Joined bs' b xs c ys)
    (htrims : Trims t.kernelHeapEnd xs c ys) : bs₁ = bs ∧ t.kernelHeapEnd = s.kernelHeapEnd := by
  obtain ⟨hsupply, htaken, -, hstate₁, -⟩ := h
  obtain ⟨⟨a, ha, haaddr, haused, -⟩, -⟩ := htaken.used
  have hne : a ≠ b := by
    rintro rfl
    exact hsupply.fresh hstate htaken hb hused haaddr
  cases hsupply with
  | reuse _ hstep => exact ⟨rfl, by rw [hstep.same]⟩
  | extend hext hstep =>
    exfalso
    -- the new block is behind the one that is freed
    obtain ⟨hd, hfits⟩ := htaken.mem
    rw [hext.blocks] at hd
    have hdaddr : d.addr = s.kernelHeapEnd := by
      rcases List.mem_append.mp hd with hd | hd
      · exact absurd hfits (hext.noRoom d hd)
      · rw [List.mem_singleton.mp hd]
    have hbound := (hstate.arena.bounds hb).2
    simp only [Block.stop] at hbound
    exact hjoined.not_trims hstate₁.arena ha haused (by omega) htrims

/-- A size that the blocks behind have room for. -/
theorem HeapState.size_absorbs {ns zs : List Block} (h : HeapState L F V (xs ++ b :: ys) s)
    (habs : Absorbs (unitUp size) ys ns c zs) : size + 48 ≤ 2 ^ 64 := by
  have hc : c ∈ xs ++ b :: ys := by
    rw [habs.split]
    simp
  have hbound := h.arena.bounds hc
  have hend := h.pages.end_le
  have hfits := habs.fits
  simp only [Block.stop] at hbound
  unfold unitUp at hfits
  omega

/-- A size for which the block stays in its place. -/
theorem HeapState.size_stays (h : HeapState L F V (xs ++ b :: ys) s)
    (hstays : b.size < unitUp size → ∃ ns c zs, Absorbs (unitUp size) ys ns c zs) : size + 16 ≤ 2 ^ 64 := by
  by_cases hle : unitUp size ≤ b.size
  · exact (h.size_lt (b := b) (by simp) hle).1
  · obtain ⟨ns, c, zs, habs⟩ := hstays (by omega)
    have hsize := h.size_absorbs habs
    omega

/-- When the blocks fill the heap after a block has taken over others, it was one behind no bytes. -/
theorem krealloc_takesOver {ns zs : List Block} (h : LaidOut L (xs ++ b :: ys) s) (hlt : b.size < unitUp size)
    (habs : Absorbs (unitUp size) ys ns c zs) {p : Nat} (hret : (krealloc L b.memory size).Returns s p s')
    (hfilled : Filled L bs' s') : ns = [] ∧ b.size = 0 := by
  obtain ⟨htiles, F, V, hstate⟩ := h
  have hsize := hstate.size_absorbs habs
  obtain ⟨t, out, hret', hresized, hlisted⟩ := hstate.krealloc_stays size (by omega) fun _ => ⟨ns, c, zs, habs⟩
  obtain ⟨-, rfl⟩ := hret'.det hret
  obtain ⟨hend, hfirst, -⟩ := hstate.resized hresized hlisted
  obtain rfl := (hlisted.entries hfirst).unique hfilled.1
  have htiles' := hfilled.2
  rw [hend] at htiles'
  exact ((hresized.tiles_iff htiles).mp htiles').2 hlt ns c zs habs

/-- **`krealloc` to a larger size.** It returns a larger block with the contents of the old one, or 0
with everything where it was, and the blocks fill the heap, exactly when they come to do so. -/
theorem krealloc_grows_iff (h : LaidOut L (xs ++ b :: ys) s) (hused : b.used = true) (hlt : b.size < unitUp size)
    (hw : KreallocWithin L s b.memory size) (hpanic : ∀ e t, (krealloc L b.memory size).Stops s e t → ¬IsPanic e) :
    (∃ p s', (krealloc L b.memory size).Returns s p s' ∧ Grows L size (xs ++ b :: ys) b s p s') ↔
      GrowsTiled (unitUp size) s.kernelHeapEnd xs b ys := by
  have hfilled := h.filled
  obtain ⟨htiles, F, V, hstate⟩ := h
  have hbmem : b ∈ xs ++ b :: ys := by simp
  have hpos : ∀ x : Block, x.memory ≠ 0 := fun x => by
    simp only [Block.memory]
    omega
  have hle : size ≤ unitUp size := by
    unfold unitUp
    omega
  by_cases hroom : ∃ ns c zs, Absorbs (unitUp size) ys ns c zs
  · -- the block takes over free entries
    obtain ⟨ns, c, zs, habs⟩ := hroom
    constructor
    · rintro ⟨p, s', hret, bs', hfilled', -⟩
      refine ⟨fun ns' c' zs' habs' => ?_, fun hnone => absurd habs (hnone _ _ _)⟩
      exact krealloc_takesOver ⟨htiles, F, V, hstate⟩ hlt habs' hret hfilled'
    · intro hcond
      have hsize := hstate.size_absorbs habs
      obtain ⟨t, out, hret, hresized, hlisted⟩ := hstate.krealloc_stays size (by omega)
        fun _ => ⟨ns, c, zs, habs⟩
      obtain ⟨hend, -⟩ := hstate.resized hresized hlisted
      have htiles' := (hresized.tiles_iff htiles).mpr ⟨fun hgt => by omega, fun _ => hcond.takenOver⟩
      rw [← hend] at htiles'
      have hpost := hstate.kreallocPost_inPlace hused hle hresized hlisted htiles'
      exact ⟨_, t, hret, hpost.grows hfilled hbmem hlt⟩
  · -- it is copied
    have hnone : ∀ ns c zs, ¬Absorbs (unitUp size) ys ns c zs := fun ns c zs habs => hroom ⟨ns, c, zs, habs⟩
    have hwithin := hstate.krealloc_asks hlt hnone hw
    have hsize := hwithin.1
    have hwp := hstate.krealloc_moves (E := IsPanic) hused hlt (by omega) hnone (hstate.endWithin hwithin)
      fun _ he => he
    obtain ⟨p, s', hret, hpost⟩ := Outcome.returns_of_wp hwp hpanic
    rcases hpost with ⟨rfl, rfl, hfull⟩ | ⟨hp, F', V', bs₁, d, bs', t, hcopied, xs', c, ys', bs'', hjoined, htrimmed,
      hremains⟩
    · -- nothing has changed
      have hpost : KreallocPost L size (xs ++ b :: ys) b s' 0 s' := .none rfl rfl
      refine iff_of_true ⟨0, s', hret, hpost.grows hfilled hbmem hlt⟩ ⟨fun ns c zs habs => absurd habs (hnone _ _ _), ?_⟩
      intro _ d bs' xs' c ys' htaken _ _
      exact absurd htaken.mem.2 (hfull d htaken.mem.1)
    · have htiles₁ := hjoined.placed (hcopied.taken.tiles (hcopied.supply.tiles htiles))
      have halign := hjoined.aligned hcopied.state.aligned c (by simp)
      have hbound := (Tiles.arena htiles₁).bounds (b := c) (by simp)
      have hend := hcopied.state.pages.end_le
      simp only [Block.stop] at hbound
      have hiff := htrimmed.tiles_iff htiles₁ halign (by omega)
      constructor
      · rintro ⟨p', s'', hret', bs₂, ⟨hentries, htiles'⟩, -⟩
        obtain ⟨rfl, rfl⟩ := hret.det hret'
        obtain rfl := (hremains.listed.entries hremains.first).unique hentries
        refine ⟨fun ns c zs habs => absurd habs (hnone _ _ _), fun _ d' bs₂ xs₂ c₂ ys₂ htaken hjoined₂ htrims => ?_⟩
        obtain ⟨rfl, hsame⟩ := hcopied.supply.of_fits ⟨d', htaken.mem⟩
        obtain ⟨rfl, rfl⟩ := hcopied.taken.unique htaken
        obtain ⟨rfl, rfl, rfl⟩ := hjoined.unique hjoined₂ hcopied.state.arena.spaced.nodup.of_map
        rw [← hsame] at htrims
        exact hiff.mp htiles' htrims
      · intro hcond
        refine ⟨p, s', hret, hcopied.grows hstate hbmem hused hlt hle hjoined htrimmed hremains (hiff.mpr fun htrims => ?_)⟩
        obtain ⟨rfl, hsame⟩ := hcopied.reused hbmem hstate hused hjoined htrims
        rw [hsame] at htrims
        exact hcond.moved hnone d bs' xs' c ys' hcopied.taken hjoined htrims

/-- Where a free block has room and `phys_mmap` a free slot, a block that is moved is copied and freed. -/
theorem HeapState.krealloc_runs (h : HeapState L F V (xs ++ b :: ys) s) (hused : b.used = true)
    (hlt : b.size < unitUp size) (hsize : size + 48 ≤ 2 ^ 64) (hnone : ∀ ns c zs, ¬Absorbs (unitUp size) ys ns c zs)
    (hfit : ∃ d ∈ xs ++ b :: ys, d.Fits (unitUp size)) (hroom : RoomAtEnd (xs ++ b :: ys))
    (hspare : s.physMmap.rangeCount < s.physMmap.maxRangeCount) :
    Outcome.wp (fun _ => False) (krealloc L b.memory size) (fun _ _ => True) s := by
  have hlimit : EndWithin L (unitUp size) (xs ++ b :: ys) s := by
    intro hno
    obtain ⟨d, hd, hfits⟩ := hfit
    exact absurd hfits (hno d hd)
  refine h.krealloc_rule hused hlt hsize hnone hlimit (.inl hfit) (fun _ => trivial) ?_
  rintro p F' V' bs₁ d bs' t - ⟨hsupply, htaken, -, hstate, -⟩ hb
  cases hsupply with
  | reuse _ hstep =>
    have hroom' := htaken.roomAtEnd hroom
    obtain ⟨ps, qs, rfl⟩ := List.append_of_mem hb
    refine Outcome.wp_mono (hstate.kfree (.inr ⟨hroom', ?_⟩)) fun _ _ _ => trivial
    rwa [hstep.physMmap]
  | extend hext _ =>
    obtain ⟨x, hx, hfits⟩ := hfit
    exact absurd hfits (hext.noRoom x hx)

/-- The first of two blocks of 64 bytes is to have 128: it is copied behind the second, and freed. -/
theorem krealloc_grows_iff_firstHeap : ∃ s p s', (krealloc exampleLayout 0xFFFFFF0001001020 128).Returns s p s' ∧
    Grows exampleLayout 128 ([] ++ ⟨0xFFFFFF0001001000, 64, true⟩ ::
      [⟨0xFFFFFF0001001060, 64, true⟩, ⟨0xFFFFFF00010010C0, 3872, false⟩]) ⟨0xFFFFFF0001001000, 64, true⟩ s p s' := by
  obtain ⟨s, hphys, hlaid⟩ := firstHeap_takenTwice
  obtain ⟨-, -, -, hend⟩ := hlaid.1
  replace hend : 0xFFFFFF0001002000 = s.kernelHeapEnd := hend
  have hheap := hlaid.2
  obtain ⟨F, V, hstate⟩ := hheap
  have hlt : 64 < unitUp 128 := by decide
  have hnone : ∀ ns c zs, ¬Absorbs (unitUp 128) [⟨0xFFFFFF0001001060, 64, true⟩, ⟨0xFFFFFF00010010C0, 3872, false⟩]
      ns c zs := by
    intro ns c zs habs
    rcases absorbs_cons_iff.mp habs with ⟨-, -, -, hfree, -⟩ | ⟨ns', -, hfree, -⟩
    · cases hfree
    · cases hfree
  have hbehind : ∀ x ∈ [⟨0xFFFFFF0001001000, 64, true⟩, (⟨0xFFFFFF0001001060, 64, true⟩ : Block)],
      ¬x.Fits (unitUp 128) := by simp [Block.Fits]
  have hfits : (⟨0xFFFFFF00010010C0, 3872, false⟩ : Block).Fits (unitUp 128) := ⟨rfl, by decide⟩
  have htaken := @Taken.mk (unitUp 128) _ [] _ hfits hbehind
  have hw : KreallocWithin exampleLayout s (Block.memory ⟨0xFFFFFF0001001000, 64, true⟩) 128 := by
    intro u hfalse
    rw [hstate.entry_eq (b := ⟨0xFFFFFF0001001000, 64, true⟩) (by simp)] at hfalse
    rcases hfalse.of_wp (hstate.kreallocInPlace (E := fun _ => False) (unitUp_mod 128)) with ⟨hdone, -⟩ | ⟨-, rfl, -⟩
    · cases hdone
    · refine ⟨by decide, fun _ _ => ?_⟩
      rw [← hend]
      decide
  have hruns := hstate.krealloc_runs rfl hlt (by decide) hnone ⟨⟨0xFFFFFF00010010C0, 3872, false⟩, by simp, rfl, by decide⟩
    (by simp [RoomAtEnd]) (by rw [hphys, firstHeap_laidOut.2.2.1]; decide)
  obtain ⟨p, t, hret, -⟩ := Outcome.returns_of_wp hruns fun _ _ _ hf => hf
  have htiled : GrowsTiled (unitUp 128) s.kernelHeapEnd [] ⟨0xFFFFFF0001001000, 64, true⟩
      [⟨0xFFFFFF0001001060, 64, true⟩, ⟨0xFFFFFF00010010C0, 3872, false⟩] := by
    refine ⟨fun ns c zs habs => absurd habs (hnone ns c zs), fun _ d bs' xs' c ys' ht hjoined htrims => ?_⟩
    obtain ⟨rfl, rfl⟩ := ht.unique htaken
    exact absurd htrims (hjoined.not_trims (ht.arena hstate.arena) (d := ⟨0xFFFFFF0001001060, 64, true⟩) (by simp) rfl
      (by decide))
  exact ⟨s, (krealloc_grows_iff hlaid rfl hlt hw fun e u hstops => absurd hstops (hret.not_stops ·)).mpr htiled⟩

/-- The free rest of the first page has room for 128 bytes. -/
theorem firstHeap_absorbs : Absorbs (unitUp 128) [⟨0xFFFFFF0001001060, 3968, false⟩] []
    ⟨0xFFFFFF0001001060, 3968, false⟩ [] := by
  refine ⟨rfl, by simp, rfl, ?_⟩
  decide

/-- 64 bytes are to become 128: the block takes over the 3968 bytes behind it, and counts only these. -/
theorem krealloc_grows_gap : ∃ s, LaidOut exampleLayout ([] ++ ⟨0xFFFFFF0001001000, 64, true⟩ ::
      [⟨0xFFFFFF0001001060, 3968, false⟩]) s ∧
    ¬∃ p s', (krealloc exampleLayout 0xFFFFFF0001001020 128).Returns s p s' ∧
      Grows exampleLayout 128 ([] ++ ⟨0xFFFFFF0001001000, 64, true⟩ :: [⟨0xFFFFFF0001001060, 3968, false⟩])
        ⟨0xFFFFFF0001001000, 64, true⟩ s p s' := by
  obtain ⟨s, hlaid⟩ := firstHeap_taken
  refine ⟨s, hlaid, ?_⟩
  rintro ⟨p, s', hret, bs', hfilled, -⟩
  have hlt : 64 < unitUp 128 := by decide
  have hzero := (krealloc_takesOver hlaid hlt firstHeap_absorbs hret hfilled).2
  cases hzero

end KoalemOS.Heap
