import KoalemOS.Heap.Growing

/-!
# What the clients of the heap see

A run of the allocator together with its live blocks: the pointers that were returned and not
given back, the sizes last asked for, and what has been stored. `heapRun_sound` says that the
live blocks are apart from each other and from the headers, lie in the heap and hold what was
stored in them, as long as no header is moved into a block and what is trimmed is trimmed
cleanly.
-/

namespace KoalemOS.Heap

open KoalemOS.Library KoalemOS.Library.LinkedList KoalemOS.Mmap KoalemOS.Paging

variable {L : Layout} {F F' : Nat → Nat} {V V' : Mem} {s s' t : Kernel} {b c d : Block}
  {bs bs' bs₁ xs ys : List Block} {size : Nat}

/-! ## Live blocks -/

/-- What a client has of the heap: a pointer, the size it last asked for, and the bytes it has
stored since. -/
structure LiveBlock where
  ptr : Nat
  size : Nat
  stored : Nat → Option UInt8

namespace LiveBlock

/-- A block nothing has been stored in. -/
def fresh (ptr size : Nat) : LiveBlock := ⟨ptr, size, fun _ => none⟩

/-- The block after `krealloc`: what was stored counts up to the smaller of the two sizes. -/
def resized (l : LiveBlock) (ptr size : Nat) : LiveBlock :=
  ⟨ptr, size, fun i => if i < min l.size size then l.stored i else none⟩

/-- The block after a store. -/
def put (l : LiveBlock) (i : Nat) (x : UInt8) : LiveBlock := { l with stored := Function.update l.stored i (some x) }

end LiveBlock

/-- A call for a live block, with a size below the limit, that returns. -/
inductive LiveCall (L : Layout) (s : Kernel) : List LiveBlock → HeapOp → List LiveBlock → Kernel → Prop where
  | kmalloc {lives : List LiveBlock} {size p : Nat} {s' : Kernel} : size < kernelHeapMaxSize → WithinLimit L s size →
      (kmalloc size).Returns s p s' →
      LiveCall L s lives (.kmalloc size) (if p = 0 then lives else .fresh p size :: lives) s'
  | krealloc {before behind : List LiveBlock} {l : LiveBlock} {size p : Nat} {s' : Kernel} : size < kernelHeapMaxSize →
      KreallocWithin L s l.ptr size → (krealloc L l.ptr size).Returns s p s' →
      LiveCall L s (before ++ l :: behind) (.krealloc l.ptr size)
        (before ++ (if p = 0 then l else l.resized p size) :: behind) s'
  | kfree {before behind : List LiveBlock} {l : LiveBlock} {s' : Kernel} : (kfree L l.ptr).Returns s () s' →
      LiveCall L s (before ++ l :: behind) (.kfree l.ptr) (before ++ behind) s'
  | store {before behind : List LiveBlock} {l : LiveBlock} {i : Nat} {x : UInt8} {s' : Kernel} : i < l.size →
      (writeByte (l.ptr + i) x).Returns s () s' →
      LiveCall L s (before ++ l :: behind) (.store (l.ptr + i) x) (before ++ l.put i x :: behind) s'

/-- The runs from a heap that `init_heap` makes of its first page, with calls that are `ok`. -/
inductive LiveRun (L : Layout) (ok : Kernel → HeapOp → Prop) : List HeapOp → List LiveBlock → Kernel → Prop where
  | init {s₀ s : Kernel} : FirstPage L s₀ → (initHeap L).Returns s₀ () s → LiveRun L ok [] [] s
  | call {ops : List HeapOp} {lives lives' : List LiveBlock} {s s' : Kernel} : LiveRun L ok ops lives s →
      (op : HeapOp) → ok s op → LiveCall L s lives op lives' s' → LiveRun L ok (ops ++ [op]) lives' s'

/-- The live blocks are apart from each other and from the headers of the entries, lie in the heap,
and hold what was stored in them. -/
structure Sound (L : Layout) (lives : List LiveBlock) (s : Kernel) : Prop where
  apart : lives.Pairwise fun l m => l.ptr + l.size ≤ m.ptr ∨ m.ptr + m.size ≤ l.ptr
  offHeaders : ∃ bs, Entries s bs ∧ ∀ b ∈ bs, ∀ l ∈ lives, l.ptr + l.size ≤ b.addr ∨ b.memory ≤ l.ptr
  inside : ∀ l ∈ lives, L.kernelHeapStart ≤ l.ptr ∧ l.ptr + l.size ≤ s.kernelHeapEnd
  kept : ∀ l ∈ lives, ∀ i < l.size, ∀ x, l.stored i = some x → byteAt s (l.ptr + i) = some x

/-! ## The calls -/

/-- The block that is resized stays off the headers: none is moved into it, and when it has been
copied to another one, freeing it trims the heap cleanly. -/
structure ResizesCleanly (s : Kernel) (size : Nat) (xs : List Block) (b : Block) (ys : List Block) : Prop where
  shrinks : size < b.size → ∀ c ∈ ys.head?, c.used = true
  moves : b.size < size → (∀ ns c zs, ¬Absorbs size ys ns c zs) → ∀ d bs', Taken size (xs ++ b :: ys) d bs' →
    TrimsCleanly s bs' b

/-- What the entries of the heap are before a call decides whether it is clean. -/
def CallsCleanly (s : Kernel) : HeapOp → Prop
  | .krealloc ptr size => ∀ xs b ys, Entries s (xs ++ b :: ys) → b.memory = ptr →
      ResizesCleanly s (unitUp size) xs b ys
  | .kfree ptr => ∀ bs b, Entries s bs → b ∈ bs → b.memory = ptr → TrimsCleanly s bs b
  | _ => True

/-- `kmalloc` has found no room, or a block that was in no use. -/
theorem HeapState.kmalloc_fresh (h : HeapState L F V bs s) (hw : WithinLimit L s size) :
    Outcome.wp IsPanic (Heap.kmalloc size) (fun p s' => (p = 0 ∧ s' = s) ∨
      p ≠ 0 ∧ ∃ F' V' bs' c, HeapState L F' V' bs' s' ∧ c ∈ bs' ∧ c.memory = p ∧ c.used = true ∧ size ≤ c.size ∧
        ∀ d ∈ bs, d.used = true → d ∈ bs' ∧ SameBytes d s s' ∧ d.addr ≠ c.addr) s := by
  have hsize := hw.1
  refine Outcome.wp_mono (h.kmalloc (by omega) (h.endWithin hw) (.inr fun _ _ => .inl fun _ he => he)) fun p s' hs => ?_
  rcases hs with ⟨hp, hs, -⟩ | ⟨F', V', bs₁, d, bs', hsupply, htaken, rfl, hstate', hkept⟩
  · exact .inl ⟨hp, hs⟩
  obtain ⟨⟨c, hc, haddr, hused, hfits, -⟩, hold, -⟩ := htaken.used
  have hle : size ≤ unitUp size := by
    unfold unitUp
    omega
  refine .inr ⟨by simp only [Block.memory]; omega, F', V', bs', c, hstate', hc, ?_, hused, hle.trans hfits,
    fun x hx hxused => ?_⟩
  · simp only [Block.memory, haddr]
  · have hx' := hold x (hsupply.mem.1 x hx) hxused
    refine ⟨hx', h.sameBytes hstate' hx hx' fun v hv => hkept v ⟨x, hx, hxused, hv⟩, ?_⟩
    rw [haddr]
    exact hsupply.fresh h htaken hx hxused

/-- The pages of a heap are where they were when only its bytes have changed. -/
theorem HeapState.translate_eq (h : HeapState L F V bs s) (h' : HeapState L F V' bs' t)
    (hend : t.kernelHeapEnd = s.kernelHeapEnd) {v : Nat} (hv : L.Within s.kernelHeapEnd v) :
    translate t.mem t.cr3 v = translate s.mem s.cr3 v := by
  rw [h.pages.translate hv, h'.pages.translate (by rwa [hend])]

/-- The block that has been copied is freed as it would have been before. -/
theorem CopiedTo.trimsCleanly {p : Nat} (h : CopiedTo L size F V bs b s p F' V' bs₁ d bs' t) (hb : b ∈ bs)
    (hstate : HeapState L F V bs s) (hused : b.used = true) (hclean : bs₁ = bs → TrimsCleanly s bs' b) :
    TrimsCleanly t bs' b := by
  intro xs c ys hjoined htrims
  obtain ⟨hblocks, hend⟩ := h.reused hb hstate hused hjoined htrims
  have hframes : F' = F := by
    cases h.supply with
    | reuse _ _ => rfl
    | extend hext _ =>
      rw [hext.blocks] at hblocks
      simp at hblocks
  have hstate' := h.state
  rw [hframes] at hstate'
  rw [hend] at htrims ⊢
  obtain ⟨hcross, horder⟩ := hclean hblocks xs c ys hjoined htrims
  have hbound := Arena.bounds (hjoined.placed hstate'.arena) (b := c) (by simp)
  rw [hend] at hbound
  simp only [Block.stop] at hbound
  obtain ⟨hge, hle⟩ := pageUp_bounds hstate.pages.endAligned (a := c.addr) (by omega)
  have hsame : ∀ i < (s.kernelHeapEnd - pageUp c.addr) / 4096, translate t.mem t.cr3 (pageUp c.addr + 4096 * i) =
      translate s.mem s.cr3 (pageUp c.addr + 4096 * i) := fun i hi =>
    hstate.translate_eq hstate' hend ⟨by omega, by omega⟩
  refine ⟨hcross, fun i hi => ?_⟩
  have hfirst := hsame 0 (by omega)
  rw [Nat.mul_zero, Nat.add_zero] at hfirst
  rw [hsame i hi, hfirst]
  exact horder i hi

/-- A block that has been copied and freed has been replaced. -/
theorem CopiedTo.replaced {p : Nat} (h : CopiedTo L (unitUp size) F V bs b s p F' V' bs₁ d bs₂ t) (hb : b ∈ bs)
    (hstate : HeapState L F V bs s) (hused : b.used = true)
    (hold : ∀ x ∈ bs₂, x ≠ b → x.used = true → x ∈ bs' ∧ SameBytes x t s')
    (hnew : ∀ x ∈ bs', x.used = true → x ∈ bs₂ ∧ x ≠ b) : ∃ c, c.memory = p ∧ Replaced size bs b s bs' c s' := by
  obtain ⟨hsupply, htaken, rfl, hstate₁, hkept, hbytes⟩ := h
  obtain ⟨⟨c, hc, haddr, hcused, hfits, -⟩, hstays, hfrom⟩ := htaken.used
  have hmem : c.memory = d.memory := by simp only [Block.memory, haddr]
  have hapart : ∀ x ∈ bs, x.used = true → x.addr ≠ c.addr := fun x hx hxused => by
    rw [haddr]
    exact hsupply.fresh hstate htaken hx hxused
  have hne : c ≠ b := fun heq => hapart b hb hused (by rw [heq])
  obtain ⟨hc', hcsame⟩ := hold c hc hne hcused
  refine ⟨c, hmem, hc', hcused, hfits, fun x hx hxb hxused => ?_, fun x hx hxused => ?_, fun i hi => ?_⟩
  · have hx₁ := hstays x (hsupply.mem.1 x hx) hxused
    obtain ⟨hx', hsame⟩ := hold x hx₁ hxb hxused
    refine ⟨hx', fun v hv => (hsame v hv).trans ?_, hapart x hx hxused⟩
    rw [hstate₁.pages.byteAt (hstate₁.within hx₁ hv), hstate.pages.byteAt (hstate.within hx hv),
      hkept v ⟨x, hx, hxused, hv⟩]
  · obtain ⟨hx₁, hxb⟩ := hnew x hx hxused
    rcases hfrom x hx₁ hxused with heq | hx₀
    · exact .inl (hstate₁.arena.eq_of_addr hx₁ hc (heq.trans haddr.symm))
    · rcases hsupply.mem.2 x hx₀ with hx₀ | ⟨-, hfree⟩
      · exact .inr ⟨hx₀, hxb⟩
      · rw [hfree] at hxused
        cases hxused
  · have howns : c.Owns (d.memory + i) := by
      simp only [Block.Owns, Block.stop, Block.memory, haddr]
      omega
    have hbowns : b.Owns (b.memory + i) := by
      simp only [Block.Owns, Block.stop, Block.memory]
      omega
    rw [hmem, hcsame _ howns, hstate₁.pages.byteAt (hstate₁.within hc howns), hbytes i (by omega),
      hstate.pages.byteAt (hstate.within hb hbowns)]

/-- **`krealloc`** that resizes cleanly. -/
theorem HeapState.krealloc_cleanly (h : HeapState L F V (xs ++ b :: ys) s) (hused : b.used = true)
    (hclean : ResizesCleanly s (unitUp size) xs b ys) (hw : KreallocWithin L s b.memory size) :
    Outcome.wp IsPanic (Heap.krealloc L b.memory size) (fun p s' => (p = 0 ∧ s' = s) ∨
      p ≠ 0 ∧ ∃ F' V' bs' c, HeapState L F' V' bs' s' ∧ c.memory = p ∧
        Replaced size (xs ++ b :: ys) b s bs' c s') s := by
  have hbmem : b ∈ xs ++ b :: ys := by simp
  by_cases hstays : b.size < unitUp size → ∃ ns c zs, Absorbs (unitUp size) ys ns c zs
  · -- the block stays in its place
    obtain ⟨t, out, hret, hresized, hlisted⟩ := h.krealloc_stays size (h.size_stays hstays) hstays
    obtain ⟨V', c, hstate', hmem, hrep⟩ := h.resized_replaced hused hresized hlisted
      (hresized.arena h.arena hclean.shrinks)
    refine Outcome.wp_of_returns hret (.inr ⟨?_, F, V', _, c, hstate', hmem, hrep⟩)
    simp only [Block.memory]
    omega
  · rw [Classical.not_imp] at hstays
    obtain ⟨hlt, hno⟩ := hstays
    have hnone : ∀ ns c zs, ¬Absorbs (unitUp size) ys ns c zs := fun ns c zs habs => hno ⟨ns, c, zs, habs⟩
    have hwithin := h.krealloc_asks hlt hnone hw
    have hsize := hwithin.1
    refine h.krealloc_rule hused hlt (by omega) hnone (h.endWithin hwithin) (.inr fun _ he => he)
      (fun _ => .inl ⟨rfl, rfl⟩) ?_
    intro p F' V' bs₁ d bs' t hp hcopied hb
    have htrims : TrimsCleanly t bs' b := hcopied.trimsCleanly hbmem h hused fun hsame => by
      have htaken := hcopied.taken
      rw [hsame] at htaken
      exact hclean.moves hlt hnone d bs' htaken
    refine Outcome.wp_mono (hcopied.state.kfree_cleanly hb htrims (.inl fun _ he => he)) fun _ s' hs => .inr ⟨hp, ?_⟩
    obtain ⟨V'', xs', c, ys', bs'', -, -, hstate'', hold, hnew⟩ := hs
    obtain ⟨a, hmem, hrep⟩ := hcopied.replaced hbmem h hused hold hnew
    exact ⟨F', V'', bs'', a, hstate'', hmem, hrep⟩

/-! ## The invariant -/

/-- A live block lies in a used block of the heap, and holds what was stored in it. -/
structure Serves (s : Kernel) (b : Block) (l : LiveBlock) : Prop where
  used : b.used = true
  pointer : b.memory = l.ptr
  fits : l.size ≤ b.size
  kept : ∀ i < l.size, ∀ x, l.stored i = some x → byteAt s (l.ptr + i) = some x

/-- Each live block lies in a block of its own. -/
structure ServesAll (L : Layout) (bs : List Block) (lives : List LiveBlock) (s : Kernel) : Prop where
  heap : ∃ F V, HeapState L F V bs s
  served : ∀ l ∈ lives, ∃ b ∈ bs, Serves s b l
  distinct : lives.Pairwise fun l m => l.ptr ≠ m.ptr

variable {lives lives' before behind : List LiveBlock} {l m : LiveBlock}

/-- The bytes of a live block belong to its block. -/
theorem Serves.owns (h : Serves s b l) {i : Nat} (hi : i < l.size) : b.Owns (l.ptr + i) := by
  have hfits := h.fits
  rw [← h.pointer]
  simp only [Block.Owns, Block.memory, Block.stop]
  omega

/-- A block that has kept its bytes serves as before. -/
theorem Serves.keep (h : Serves s b l) (hsame : SameBytes b s s') : Serves s' b l := by
  refine ⟨h.used, h.pointer, h.fits, fun i hi x hx => ?_⟩
  rw [hsame _ (h.owns hi)]
  exact h.kept i hi x hx

/-- What serves its clients is sound. -/
theorem ServesAll.sound (h : ServesAll L bs lives s) : Sound L lives s := by
  obtain ⟨⟨F, V, hstate⟩, hserved, hdistinct⟩ := h
  have hplace : ∀ l ∈ lives, ∃ b ∈ bs, b.memory = l.ptr ∧ l.ptr + l.size ≤ b.stop := by
    intro l hl
    obtain ⟨b, hb, hserves⟩ := hserved l hl
    have hfits := hserves.fits
    refine ⟨b, hb, hserves.pointer, ?_⟩
    rw [← hserves.pointer]
    simp only [Block.memory, Block.stop]
    omega
  refine ⟨?_, ⟨bs, hstate.entries, fun b hb l hl => ?_⟩, fun l hl => ?_, fun l hl => ?_⟩
  · refine hdistinct.imp_of_mem fun {l m} hl hm hne => ?_
    obtain ⟨b, hb, hptr, hstop⟩ := hplace l hl
    obtain ⟨c, hc, hptr', hstop'⟩ := hplace m hm
    have hbc : b ≠ c := by
      rintro rfl
      exact hne (hptr.symm.trans hptr')
    have hapart := hstate.arena.apart hb hc hbc
    have hle := b.addr_le_memory
    have hle' := c.addr_le_memory
    omega
  · obtain ⟨c, hc, hptr, hstop⟩ := hplace l hl
    by_cases hbc : b = c
    · subst hbc
      exact .inr hptr.le
    · have hapart := hstate.arena.apart hb hc hbc
      have hle := c.addr_le_memory
      have hle' := b.memory_le_stop
      omega
  · obtain ⟨c, hc, hptr, hstop⟩ := hplace l hl
    have hbound := hstate.arena.bounds hc
    have hle := c.addr_le_memory
    omega
  · obtain ⟨b, -, hserves⟩ := hserved l hl
    exact hserves.kept

/-- A new block next to those that are what they were. -/
theorem ServesAll.kmalloc (h : ServesAll L bs lives s) {p : Nat} (hstate' : HeapState L F' V' bs' s') (hc : c ∈ bs')
    (hmem : c.memory = p) (hused : c.used = true) (hfits : size ≤ c.size)
    (hold : ∀ d ∈ bs, d.used = true → d ∈ bs' ∧ SameBytes d s s' ∧ d.addr ≠ c.addr) :
    ServesAll L bs' (.fresh p size :: lives) s' := by
  refine ⟨⟨F', V', hstate'⟩, fun l hl => ?_, List.pairwise_cons.mpr ⟨fun l hl => ?_, h.distinct⟩⟩
  · rcases List.mem_cons.mp hl with rfl | hl
    · exact ⟨c, hc, hused, hmem, hfits, fun i _ x hx => by cases hx⟩
    · obtain ⟨b, hb, hserves⟩ := h.served l hl
      obtain ⟨hb', hsame, -⟩ := hold b hb hserves.used
      exact ⟨b, hb', hserves.keep hsame⟩
  · obtain ⟨b, hb, hserves⟩ := h.served l hl
    obtain ⟨-, -, hne⟩ := hold b hb hserves.used
    rw [← hserves.pointer, ← hmem]
    simp only [LiveBlock.fresh, Block.memory]
    omega

/-- The blocks of the other live blocks. -/
theorem ServesAll.others (h : ServesAll L bs (before ++ l :: behind) s) (hl : Serves s b l) :
    ∀ m ∈ before ++ behind, l.ptr ≠ m.ptr ∧ ∃ d ∈ bs, d ≠ b ∧ Serves s d m := by
  intro m hm
  have hne := (List.pairwise_cons.mp ((List.pairwise_middle fun h => h.symm).mp h.distinct)).1 m hm
  obtain ⟨d, hd, hserves⟩ := h.served m (by simp only [List.mem_append, List.mem_cons] at hm ⊢; tauto)
  refine ⟨hne, d, hd, ?_, hserves⟩
  rintro rfl
  exact hne (hl.pointer.symm.trans hserves.pointer)

/-- One live block is another one now, and the others are what they were. -/
theorem ServesAll.replace (h : ServesAll L bs (before ++ l :: behind) s) (hl : Serves s b l) (hc : c ∈ bs')
    (hm : Serves s' c m) (hstate' : HeapState L F' V' bs' s')
    (hold : ∀ d ∈ bs, d ≠ b → d.used = true → d ∈ bs' ∧ SameBytes d s s' ∧ d.addr ≠ c.addr) :
    ServesAll L bs' (before ++ m :: behind) s' := by
  have hothers : ∀ k ∈ before ++ behind, m.ptr ≠ k.ptr ∧ ∃ d ∈ bs', Serves s' d k := by
    intro k hk
    obtain ⟨-, d, hd, hne, hserves⟩ := h.others hl k hk
    obtain ⟨hd', hsame, haddr⟩ := hold d hd hne hserves.used
    refine ⟨fun heq => haddr ?_, d, hd', hserves.keep hsame⟩
    rw [← hserves.pointer, ← hm.pointer] at heq
    simp only [Block.memory] at heq
    omega
  refine ⟨⟨F', V', hstate'⟩, fun k hk => ?_, ?_⟩
  · simp only [List.mem_append, List.mem_cons] at hk
    rcases hk with hk | rfl | hk
    · exact (hothers k (List.mem_append_left _ hk)).2
    · exact ⟨c, hc, hm⟩
    · exact (hothers k (List.mem_append_right _ hk)).2
  · have hpair := (List.pairwise_cons.mp ((List.pairwise_middle fun h => h.symm).mp h.distinct)).2
    exact (List.pairwise_middle fun h => h.symm).mpr (List.pairwise_cons.mpr ⟨fun k hk => (hothers k hk).1, hpair⟩)

theorem ServesAll.krealloc (h : ServesAll L bs (before ++ l :: behind) s) (hl : Serves s b l) {p : Nat}
    (hstate' : HeapState L F' V' bs' s') (hmem : c.memory = p) (hrep : Replaced size bs b s bs' c s') :
    ServesAll L bs' (before ++ l.resized p size :: behind) s' := by
  have hle : size ≤ unitUp size := by
    unfold unitUp
    omega
  refine h.replace hl hrep.mem ⟨hrep.used, hmem, hle.trans hrep.fits, fun i hi x hx => ?_⟩ hstate' hrep.old
  have hlt : i < min l.size size := by
    by_contra hge
    simp only [LiveBlock.resized, if_neg hge] at hx
    cases hx
  simp only [LiveBlock.resized, if_pos hlt] at hx ⊢
  have hfits := hl.fits
  have hbyte := hl.kept i (by omega) x hx
  rw [← hl.pointer] at hbyte
  rw [← hmem, hrep.bytes i (by omega), hbyte]

theorem ServesAll.kfree (h : ServesAll L bs (before ++ l :: behind) s) (hl : Serves s b l)
    (hstate' : HeapState L F' V' bs' s') (hold : ∀ d ∈ bs, d ≠ b → d.used = true → d ∈ bs' ∧ SameBytes d s s') :
    ServesAll L bs' (before ++ behind) s' := by
  refine ⟨⟨F', V', hstate'⟩, fun k hk => ?_,
    (List.pairwise_cons.mp ((List.pairwise_middle fun h => h.symm).mp h.distinct)).2⟩
  obtain ⟨-, d, hd, hne, hserves⟩ := h.others hl k hk
  obtain ⟨hd', hsame⟩ := hold d hd hne hserves.used
  exact ⟨d, hd', hserves.keep hsame⟩

/-- A store changes the byte it is to. -/
theorem ServesAll.store (h : ServesAll L bs (before ++ l :: behind) s) (hb : b ∈ bs) (hl : Serves s b l) {i : Nat}
    (hi : i < l.size) {x : UInt8} (hret : (writeByte (l.ptr + i) x).Returns s () s') :
    ServesAll L bs (before ++ l.put i x :: behind) s' := by
  obtain ⟨F, V, hstate⟩ := h.heap
  have howns := hl.owns hi
  obtain ⟨t, hret', hstate', -⟩ := hstate.store hb howns x
  obtain ⟨-, rfl⟩ := hret.det hret'
  have hbyte : ∀ d ∈ bs, ∀ v, d.Owns v → v ≠ l.ptr + i → byteAt s' v = byteAt s v := by
    intro d hd v hv hne
    rw [hstate'.pages.byteAt (hstate'.within hd hv), hstate.pages.byteAt (hstate.within hd hv),
      Mem.storeByte_other _ hne]
  refine h.replace hl hb ⟨hl.used, hl.pointer, hl.fits, fun j hj y hy => ?_⟩ hstate' fun d hd hne _ =>
    ⟨hd, fun v hv => hbyte d hd v hv ?_, fun heq => hne (hstate.arena.eq_of_addr hd hb heq)⟩
  · simp only [LiveBlock.put] at hj hy ⊢
    by_cases hji : j = i
    · subst hji
      rw [Function.update_self] at hy
      rw [hstate'.pages.byteAt (hstate'.within hb howns), Mem.storeByte_same, hy]
    · rw [Function.update_of_ne hji] at hy
      rw [hbyte b hb _ (hl.owns hj) (by omega)]
      exact hl.kept j hj y hy
  · rintro rfl
    have hapart := hstate.arena.apart hd hb hne
    simp only [Block.Owns, Block.memory, Block.stop] at hv howns hapart
    omega

/-- A call that is clean. -/
theorem ServesAll.call (h : ServesAll L bs lives s) {op : HeapOp} (hok : CallsCleanly s op)
    (hcall : LiveCall L s lives op lives' s') : ∃ bs', ServesAll L bs' lives' s' := by
  obtain ⟨F, V, hstate⟩ := h.heap
  cases hcall with
  | kmalloc _ hw hret =>
    rcases hret.of_wp (hstate.kmalloc_fresh hw) with ⟨rfl, rfl⟩ | ⟨hp, F', V', bs', c, hstate', hc, hmem, hused, hfits,
      hold⟩
    · rw [if_pos rfl]
      exact ⟨bs, h⟩
    · rw [if_neg hp]
      exact ⟨bs', h.kmalloc hstate' hc hmem hused hfits hold⟩
  | @krealloc _ _ l size p _ _ hw hret =>
    obtain ⟨b, hb, hl⟩ := h.served l (by simp)
    obtain ⟨xs, ys, rfl⟩ := List.append_of_mem hb
    have hclean := hok xs b ys hstate.entries hl.pointer
    rw [← hl.pointer] at hw hret
    rcases hret.of_wp (hstate.krealloc_cleanly hl.used hclean hw) with ⟨rfl, rfl⟩ | ⟨hp, F', V', bs', c, hstate', hmem,
      hrep⟩
    · rw [if_pos rfl]
      exact ⟨_, h⟩
    · rw [if_neg hp]
      exact ⟨bs', h.krealloc hl hstate' hmem hrep⟩
  | @kfree _ _ l _ hret =>
    obtain ⟨b, hb, hl⟩ := h.served l (by simp)
    have hclean := hok bs b hstate.entries hb hl.pointer
    rw [← hl.pointer] at hret
    obtain ⟨V', xs, c, ys, bs', -, -, hstate', hold, -⟩ :=
      hret.of_wp (hstate.kfree_cleanly (E := IsPanic) hb hclean (.inl fun _ he => he))
    exact ⟨bs', h.kfree hl hstate' hold⟩
  | @store _ _ l i x _ hi hret =>
    obtain ⟨b, hb, hl⟩ := h.served l (by simp)
    exact ⟨bs, h.store hb hl hi hret⟩

theorem LiveRun.servesAll {ops : List HeapOp} (h : LiveRun L CallsCleanly ops lives s) :
    ∃ bs, ServesAll L bs lives s := by
  induction h with
  | init hpage hret =>
    obtain ⟨t, hret', ⟨-, hheap⟩, -⟩ := initHeap_returns hpage
    obtain ⟨-, rfl⟩ := hret.det hret'
    exact ⟨_, hheap, by simp, List.Pairwise.nil⟩
  | call _ op hok hcall ih =>
    obtain ⟨bs, hserves⟩ := ih
    exact hserves.call hok hcall

/-! ## Live blocks and live pointers -/

/-- The blocks have the live pointers, with their sizes. -/
def Agrees (lives : List LiveBlock) (live : Live) : Prop := ∀ p n, live p = some n ↔ ∃ l ∈ lives, l.ptr = p ∧ l.size = n

theorem Agrees.unique {live live' : Live} (h : Agrees lives live) (h' : Agrees lives live') : live = live' := by
  funext p
  exact Option.ext fun n => (h p n).trans (h' p n).symm

theorem Agrees.perm {live : Live} (h : Agrees lives live) (hperm : lives.Perm lives') : Agrees lives' live := by
  intro p n
  rw [h p n]
  simp only [hperm.mem_iff]

theorem Agrees.cons {live : Live} (h : Agrees lives live) (hne : ∀ m ∈ lives, l.ptr ≠ m.ptr) :
    Agrees (l :: lives) (Function.update live l.ptr (some l.size)) := by
  intro p n
  by_cases hp : p = l.ptr
  · subst hp
    rw [Function.update_self, Option.some.injEq]
    constructor
    · intro hn
      exact ⟨l, List.mem_cons_self, rfl, hn⟩
    · rintro ⟨m, hm, hptr, hn⟩
      rcases List.mem_cons.mp hm with rfl | hm
      · exact hn
      · exact absurd hptr.symm (hne m hm)
  · rw [Function.update_of_ne hp, h p n]
    constructor
    · rintro ⟨m, hm, hmn⟩
      exact ⟨m, List.mem_cons_of_mem _ hm, hmn⟩
    · rintro ⟨m, hm, hptr, hn⟩
      rcases List.mem_cons.mp hm with rfl | hm
      · exact absurd hptr.symm hp
      · exact ⟨m, hm, hptr, hn⟩

theorem Agrees.tail {live : Live} (h : Agrees (l :: lives) live) (hne : ∀ m ∈ lives, l.ptr ≠ m.ptr) :
    Agrees lives (Function.update live l.ptr none) := by
  intro p n
  by_cases hp : p = l.ptr
  · subst hp
    rw [Function.update_self]
    refine iff_of_false (by simp) ?_
    rintro ⟨m, hm, hptr, -⟩
    exact hne m hm hptr.symm
  · rw [Function.update_of_ne hp, h p n]
    constructor
    · rintro ⟨m, hm, hptr, hn⟩
      rcases List.mem_cons.mp hm with rfl | hm
      · exact absurd hptr.symm hp
      · exact ⟨m, hm, hptr, hn⟩
    · rintro ⟨m, hm, hmn⟩
      exact ⟨m, List.mem_cons_of_mem _ hm, hmn⟩

/-- No two of the blocks have one pointer. -/
def Distinct (lives : List LiveBlock) : Prop := lives.Pairwise fun l m => l.ptr ≠ m.ptr

theorem Distinct.middle (h : Distinct (before ++ l :: behind)) :
    (∀ m ∈ before ++ behind, l.ptr ≠ m.ptr) ∧ Distinct (before ++ behind) :=
  List.pairwise_cons.mp ((List.pairwise_middle fun h => h.symm).mp h)

/-- The block among the others is given back. -/
theorem Agrees.freed {live : Live} (h : Agrees (before ++ l :: behind) live) (hd : Distinct (before ++ l :: behind)) :
    Agrees (before ++ behind) (Function.update live l.ptr none) :=
  (h.perm List.perm_middle).tail hd.middle.1

/-- The block among the others becomes another one. -/
theorem Agrees.replaced {live : Live} (h : Agrees (before ++ l :: behind) live) (hd : Distinct (before ++ l :: behind))
    (hd' : Distinct (before ++ m :: behind)) :
    Agrees (before ++ m :: behind) (Function.update (Function.update live l.ptr none) m.ptr (some m.size)) :=
  ((h.freed hd).cons hd'.middle.1).perm List.perm_middle.symm

/-- A store leaves the pointer and the size. -/
theorem Agrees.stored {live : Live} (h : Agrees (before ++ l :: behind) live) (hptr : m.ptr = l.ptr)
    (hsize : m.size = l.size) : Agrees (before ++ m :: behind) live := by
  intro p n
  rw [h p n]
  simp only [List.mem_append, List.mem_cons, or_and_right, exists_or, exists_eq_left, hptr, hsize]

/-- A call for a live block is one for its pointer. -/
theorem LiveCall.call {live : Live} {op : HeapOp} (h : LiveCall L s lives op lives' s') (ha : Agrees lives live)
    (hd : Distinct lives) (hd' : Distinct lives') : ∃ live', Call L live s op live' s' ∧ Agrees lives' live' := by
  cases h with
  | @kmalloc _ size p _ hsize hw hret =>
    refine ⟨_, .kmalloc hsize hw hret, ?_⟩
    by_cases hp : p = 0
    · rwa [if_pos hp, if_pos hp]
    · rw [if_neg hp] at hd' ⊢
      rw [if_neg hp]
      exact ha.cons (List.pairwise_cons.mp hd').1
  | @krealloc before behind l size p _ hsize hw hret =>
    have hlive := (ha l.ptr l.size).mpr ⟨l, by simp, rfl, rfl⟩
    refine ⟨_, .krealloc hlive hsize hw hret, ?_⟩
    by_cases hp : p = 0
    · rwa [if_pos hp, if_pos hp]
    · rw [if_neg hp] at hd' ⊢
      rw [if_neg hp]
      exact ha.replaced hd hd'
  | @kfree before behind l _ hret =>
    have hlive := (ha l.ptr l.size).mpr ⟨l, by simp, rfl, rfl⟩
    exact ⟨_, .kfree hlive hret, ha.freed hd⟩
  | @store before behind l i x _ hi hret =>
    have hlive := (ha l.ptr l.size).mpr ⟨l, by simp, rfl, rfl⟩
    exact ⟨_, .store hlive (Nat.le_add_right _ _) (by omega) hret, ha.stored rfl rfl⟩

/-- A call for a live pointer is one for its block. -/
theorem Call.liveCall {live live' : Live} {op : HeapOp} (h : Call L live s op live' s') (ha : Agrees lives live)
    (hd : Distinct lives) : ∃ lives', LiveCall L s lives op lives' s' ∧ (Distinct lives' → Agrees lives' live') := by
  have hblock : ∀ {p n}, live p = some n → ∃ before l behind, lives = before ++ l :: behind ∧ l.ptr = p ∧ l.size = n := by
    intro p n hp
    obtain ⟨l, hl, hptr, hn⟩ := (ha p n).mp hp
    obtain ⟨before, behind, rfl⟩ := List.append_of_mem hl
    exact ⟨before, l, behind, rfl, hptr, hn⟩
  cases h with
  | @kmalloc size p _ hsize hw hret =>
    refine ⟨_, .kmalloc hsize hw hret, fun hd' => ?_⟩
    by_cases hp : p = 0
    · rwa [if_pos hp, if_pos hp]
    · rw [if_neg hp] at hd' ⊢
      rw [if_neg hp]
      exact ha.cons (List.pairwise_cons.mp hd').1
  | @krealloc ptr n size p _ hptr hsize hw hret =>
    obtain ⟨before, l, behind, rfl, rfl, rfl⟩ := hblock hptr
    refine ⟨_, .krealloc hsize hw hret, fun hd' => ?_⟩
    by_cases hp : p = 0
    · rwa [if_pos hp, if_pos hp]
    · rw [if_neg hp] at hd' ⊢
      rw [if_neg hp]
      exact ha.replaced hd hd'
  | kfree hptr hret =>
    obtain ⟨before, l, behind, rfl, rfl, rfl⟩ := hblock hptr
    exact ⟨_, .kfree hret, fun _ => ha.freed hd⟩
  | @store ptr n v x _ hptr h₁ h₂ hret =>
    obtain ⟨before, l, behind, rfl, rfl, rfl⟩ := hblock hptr
    obtain ⟨i, rfl⟩ := Nat.exists_eq_add_of_le h₁
    exact ⟨_, .store (by omega) hret, fun _ => ha.stored rfl rfl⟩

theorem LiveRun.heapRun {ops : List HeapOp} (h : LiveRun L CallsCleanly ops lives s) :
    ∃ live, HeapRun L CallsCleanly ops live s ∧ Agrees lives live := by
  induction h with
  | init hpage hret => exact ⟨_, .init hpage hret, by simp [Agrees]⟩
  | call hrun op hok hcall ih =>
    obtain ⟨live, hrun', ha⟩ := ih
    obtain ⟨bs, hserves⟩ := hrun.servesAll
    obtain ⟨bs', hserves'⟩ := hserves.call hok hcall
    obtain ⟨live', hcall', ha'⟩ := hcall.call ha hserves.distinct hserves'.distinct
    exact ⟨live', hrun'.call op hok hcall', ha'⟩

/-- The runs with live blocks are those with live pointers. -/
theorem heapRun_iff_liveRun {ops : List HeapOp} {live : Live} : HeapRun L CallsCleanly ops live s ↔
    ∃ lives, LiveRun L CallsCleanly ops lives s ∧ Agrees lives live := by
  constructor
  · intro h
    induction h with
    | init hpage hret => exact ⟨[], .init hpage hret, by simp [Agrees]⟩
    | call _ op hok hcall ih =>
      obtain ⟨lives, hrun, ha⟩ := ih
      obtain ⟨bs, hserves⟩ := hrun.servesAll
      obtain ⟨lives', hcall', ha'⟩ := hcall.liveCall ha hserves.distinct
      obtain ⟨bs', hserves'⟩ := hserves.call hok hcall'
      exact ⟨lives', hrun.call op hok hcall', ha' hserves'.distinct⟩
  · rintro ⟨lives, h, ha⟩
    obtain ⟨live', hrun, ha'⟩ := h.heapRun
    rwa [ha.unique ha']

/-! ## The main result -/

/-- **The live blocks.** In a run in which every call is clean they are apart from each other and from
the headers, lie in the heap, and hold what was stored in them. -/
theorem heapRun_sound {ops : List HeapOp} (h : LiveRun L CallsCleanly ops lives s) : Sound L lives s := by
  obtain ⟨bs, hserves⟩ := h.servesAll
  exact hserves.sound

/-! ### Runs on the first heap -/

/-- A request that a free block has room for. -/
theorem LiveRun.kmalloc_first {ok : Kernel → HeapOp → Prop} {ops : List HeapOp} (h : LiveRun L ok ops lives s)
    (hstate : HeapState L F V (xs ++ b :: ys) s) (size : Nat) (hok : ok s (.kmalloc size))
    (hsize : size < kernelHeapMaxSize) (hfits : b.Fits (unitUp size)) (hfirst : ∀ x ∈ xs, ¬x.Fits (unitUp size)) :
    ∃ s' V', LiveRun L ok (ops ++ [.kmalloc size]) (.fresh b.memory size :: lives) s' ∧
      HeapState L F V' (xs ++ (Block.cut ⟨b.addr, b.size, true⟩ (unitUp size) ++ ys)) s' ∧ DataStep s s' := by
  have hlt : size < 2 ^ 63 := hsize.trans (by decide)
  have hwp := hstate.kmalloc_first (E := fun _ => False) size (by omega) hfits hfirst
  obtain ⟨p, s', hret, rfl, V', hstate', hstep, -⟩ := Outcome.returns_of_wp hwp fun _ _ _ hf => hf
  have hcall := h.call (.kmalloc size) hok (.kmalloc hsize (hstate.withinLimit hlt hfits hfirst) hret)
  rw [if_neg (by simp only [Block.memory]; omega)] at hcall
  exact ⟨s', V', hcall, hstate', hstep⟩

/-- A request that the first page has room for. -/
theorem firstHeap_kmalloc (ok : Kernel → HeapOp → Prop) (size : Nat) (hsize : unitUp size ≤ 4064)
    (hok : ok firstHeap (.kmalloc size)) :
    ∃ s, LiveRun exampleLayout ok [.kmalloc size] [.fresh 0xFFFFFF0001001020 size] s ∧
      ∃ F V, HeapState exampleLayout F V ([] ++ (Block.cut ⟨0xFFFFFF0001001000, 4064, true⟩ (unitUp size) ++ [])) s := by
  obtain ⟨hret, ⟨htiles, F, V, hstate⟩, -⟩ := firstHeap_laidOut
  have hle : size ≤ 4064 := by
    unfold unitUp at hsize
    omega
  have hinit : LiveRun exampleLayout ok [] [] firstHeap := .init bootHeap_firstPage.1 hret
  replace hstate : HeapState exampleLayout F V ([] ++ firstBlock exampleLayout :: []) firstHeap := hstate
  obtain ⟨s, V', hrun, hstate', -⟩ := hinit.kmalloc_first hstate size hok (hle.trans_lt (by decide)) ⟨rfl, hsize⟩ (by simp)
  exact ⟨s, hrun, F, V', hstate'⟩

/-- With a used block behind it, a block is freed cleanly. -/
theorem HeapState.callsCleanly_kfree (h : HeapState L F V bs s) (hb : b ∈ bs) (hd : d ∈ bs) (hused : d.used = true)
    (hlt : b.addr < d.addr) : CallsCleanly s (.kfree b.memory) := by
  intro bs₁ b₁ hentries hb₁ hmem xs c ys hjoined htrims
  obtain ⟨rfl, rfl⟩ := h.same_block hb hentries hb₁ hmem
  exact absurd htrims (hjoined.not_trims h.arena hd hused hlt)

/-- The first block is freed in front of a used one. -/
theorem HeapState.kfree_first {a : Block} (h : HeapState L F V ([] ++ a :: b :: ys) s) (hused : b.used = true)
    (hlt : a.addr < b.addr) (hroom : RoomAtEnd ([] ++ a :: b :: ys))
    (hspare : s.physMmap.rangeCount < s.physMmap.maxRangeCount) :
    CallsCleanly s (.kfree a.memory) ∧ ∃ s' V', (Heap.kfree L a.memory).Returns s () s' ∧
      HeapState L F V' ([] ++ ⟨a.addr, a.size, false⟩ :: b :: ys) s' := by
  have hclean := h.callsCleanly_kfree (b := a) (d := b) (by simp) (by simp) hused hlt
  have hwp := h.kfree_cleanly (E := fun _ => False) (b := a) (by simp) (hclean _ _ h.entries (by simp) rfl)
    (.inr ⟨hroom, hspare⟩)
  obtain ⟨_, s', hret, V', xs', c, ys', bs', hjoined, htrimmed, hstate', -⟩ :=
    Outcome.returns_of_wp hwp fun _ _ _ hf => hf
  -- nothing is merged with it, and the end of the heap stays
  have hkeep : Joined ([] ++ a :: b :: ys) a [] ⟨a.addr, a.size, false⟩ (b :: ys) :=
    .mk (.keep (by simp)) (.keep fun d ds hds hfree => by
      obtain ⟨rfl, -⟩ := List.cons.inj hds
      rw [hused] at hfree
      cases hfree)
  have hno := hjoined.not_trims (e := s.kernelHeapEnd) h.arena (d := b) (by simp) hused hlt
  obtain ⟨rfl, -⟩ := htrimmed.eq_keep hno
  obtain ⟨rfl, rfl, rfl⟩ := hjoined.unique hkeep h.arena.spaced.nodup.of_map
  exact ⟨hclean, s', V', hret, hstate'⟩

/-- With room behind it, a block is made larger cleanly. -/
theorem HeapState.callsCleanly_absorbs {ns zs : List Block} (h : HeapState L F V (xs ++ b :: ys) s)
    (hlt : b.size < unitUp size) (habs : Absorbs (unitUp size) ys ns c zs) :
    CallsCleanly s (.krealloc b.memory size) := by
  intro xs₁ b₁ ys₁ hentries hmem
  obtain ⟨heq, rfl⟩ := h.same_block (b := b) (by simp) hentries (by simp) hmem
  have hnodup : (xs ++ b₁ :: ys).Nodup := h.arena.spaced.nodup.of_map
  have honce := (List.nodup_cons.mp (List.nodup_middle.mp hnodup)).1
  obtain ⟨-, -, rfl⟩ := (List.append_cons_inj_of_notMem (fun hmem => honce (List.mem_append_left _ hmem))
    fun hmem => honce (List.mem_append_right _ hmem)).mp heq.symm
  exact ⟨fun hgt => absurd hlt (by omega), fun _ hno => absurd habs (hno _ _ _)⟩

theorem HeapState.kreallocWithin_absorbs {ns zs : List Block} (h : HeapState L F V (xs ++ b :: ys) s)
    (habs : Absorbs (unitUp size) ys ns c zs) : KreallocWithin L s b.memory size := by
  intro t hfalse
  rw [h.entry_eq (b := b) (by simp)] at hfalse
  rcases hfalse.of_wp (h.kreallocInPlace (E := fun _ => False) (unitUp_mod size)) with ⟨hdone, -⟩ | ⟨-, -, -, hnone⟩
  · cases hdone
  · exact absurd habs (hnone _ _ _)

/-- A block that has been stored in, after it has been made larger. -/
def keptBlock : LiveBlock := ((LiveBlock.fresh 0xFFFFFF0001001080 64).put 3 7).resized 0xFFFFFF0001001080 128

/-- The first of two blocks is freed, and the second is made larger and keeps what was stored in it. -/
theorem heapRun_sound_firstHeap : ∃ s, LiveRun exampleLayout CallsCleanly [.kmalloc 64, .kmalloc 64,
      .kfree 0xFFFFFF0001001020, .store 0xFFFFFF0001001083 7, .krealloc 0xFFFFFF0001001080 128] [keptBlock] s ∧
    Sound exampleLayout [keptBlock] s := by
  obtain ⟨hret, ⟨htiles, F, V, hstate⟩, hphys, -⟩ := firstHeap_laidOut
  have h₀ : LiveRun exampleLayout CallsCleanly [] [] firstHeap := .init bootHeap_firstPage.1 hret
  replace hstate : HeapState exampleLayout F V ([] ++ firstBlock exampleLayout :: []) firstHeap := hstate
  -- two blocks
  obtain ⟨s₁, V₁, h₁, hstate₁, hstep₁⟩ := h₀.kmalloc_first hstate 64 trivial (by decide) ⟨rfl, by decide⟩ (by simp)
  replace hstate₁ : HeapState exampleLayout F V₁ ([⟨0xFFFFFF0001001000, 64, true⟩] ++
      ⟨0xFFFFFF0001001060, 3968, false⟩ :: []) s₁ := hstate₁
  obtain ⟨s₂, V₂, h₂, hstate₂, hstep₂⟩ := h₁.kmalloc_first hstate₁ 64 trivial (by decide) ⟨rfl, by decide⟩
    (by simp [Block.Fits])
  generalize ha : (⟨0xFFFFFF0001001000, 64, true⟩ : Block) = a at hstate₂
  generalize hb : (⟨0xFFFFFF0001001060, 64, true⟩ : Block) = b
  have hmem : a.memory = 0xFFFFFF0001001020 ∧ b.memory = 0xFFFFFF0001001080 := by
    rw [← ha, ← hb]
    exact ⟨rfl, rfl⟩
  replace hstate₂ : HeapState exampleLayout F V₂ ([] ++ a :: b :: [⟨0xFFFFFF00010010C0, 3872, false⟩]) s₂ := by
    rw [← hb]
    exact hstate₂
  -- the first is freed
  have hroom : RoomAtEnd ([] ++ a :: b :: [⟨0xFFFFFF00010010C0, 3872, false⟩]) := by simp [RoomAtEnd]
  have hspare : s₂.physMmap.rangeCount < s₂.physMmap.maxRangeCount := by
    rw [hstep₂.physMmap, hstep₁.physMmap, hphys]
    decide
  have hbused : b.used = true := by rw [← hb]
  have hlt : a.addr < b.addr := by
    rw [← ha, ← hb]
    decide
  obtain ⟨hclean, s₃, V₃, hret₃, hstate₃⟩ := hstate₂.kfree_first hbused hlt hroom hspare
  have hcall₃ : LiveCall exampleLayout s₂ ([.fresh 0xFFFFFF0001001080 64] ++ .fresh a.memory 64 :: [])
      (.kfree a.memory) [.fresh 0xFFFFFF0001001080 64] s₃ := .kfree hret₃
  rw [hmem.1] at hcall₃ hclean
  have h₃ := h₂.call _ hclean hcall₃
  -- a store in the second
  have howns : b.Owns 0xFFFFFF0001001083 := by
    rw [← hb]
    exact ⟨by decide, by decide⟩
  obtain ⟨s₄, hret₄, hstate₄, -⟩ := hstate₃.store (b := b) (by simp) howns 7
  have hcall₄ : LiveCall exampleLayout s₃ ([] ++ .fresh 0xFFFFFF0001001080 64 :: []) (.store 0xFFFFFF0001001083 7)
      [(LiveBlock.fresh 0xFFFFFF0001001080 64).put 3 7] s₄ := .store (i := 3) (by decide) hret₄
  have h₄ := h₃.call (.store 0xFFFFFF0001001083 7) trivial hcall₄
  -- it takes over the free rest behind it
  replace hstate₄ : HeapState exampleLayout F _ ([⟨a.addr, a.size, false⟩] ++ b ::
      [⟨0xFFFFFF00010010C0, 3872, false⟩]) s₄ := hstate₄
  have habs : Absorbs (unitUp 128) [⟨0xFFFFFF00010010C0, 3872, false⟩] [] ⟨0xFFFFFF00010010C0, 3872, false⟩ [] :=
    ⟨rfl, by simp, rfl, by decide⟩
  have hgrows : b.size < unitUp 128 := by
    rw [← hb]
    decide
  obtain ⟨s₅, out, hret₅, -⟩ := hstate₄.krealloc_stays 128 (by decide) fun _ => ⟨_, _, _, habs⟩
  have hw := hstate₄.kreallocWithin_absorbs habs
  have hclean₅ := hstate₄.callsCleanly_absorbs hgrows habs
  rw [hmem.2] at hret₅ hw hclean₅
  have hcall₅ : LiveCall exampleLayout s₄ ([] ++ (LiveBlock.fresh 0xFFFFFF0001001080 64).put 3 7 :: [])
      (.krealloc 0xFFFFFF0001001080 128) _ s₅ := .krealloc (by decide) hw hret₅
  rw [if_neg (by decide)] at hcall₅
  have h₅ := h₄.call _ hclean₅ hcall₅
  exact ⟨s₅, h₅, heapRun_sound h₅⟩

/-- `krealloc` with the size that is recorded. -/
theorem Listed.krealloc_same {e : Nat} {K : Nat → Prop} {V₀ : Mem} {s₀ : Kernel}
    (h : Listed L e F K V₀ s₀ (xs ++ b :: ys) s) (hsize : unitUp size = b.size) (hlt : size + 16 ≤ 2 ^ 64) :
    KreallocWithin L s b.memory size ∧ (Heap.krealloc L b.memory size).Returns s b.memory s := by
  have haddr := h.addr_lt (b := b) (by simp)
  have hentry : sub64 b.memory sizeofHeapEntry = b.addr := by
    simp only [Block.memory, sizeofHeapEntry]
    rw [sub64_of_le (by omega) (by omega)]
    omega
  have hstays : (Heap.kreallocInPlace b.addr b.size).Returns s true s := by
    refine h.entrySize.bind ?_
    rw [if_neg (Nat.lt_irrefl _), if_pos rfl]
    exact Outcome.returns_pure true s
  constructor
  · intro t hfalse
    rw [hentry, hsize] at hfalse
    cases (hstays.det hfalse).1
  · unfold Heap.krealloc
    rw [alignUp_unit hlt, hentry, hsize]
    exact hstays.bind (Outcome.returns_pure _ s)

/-- Of 64 bytes 16 are kept, and then they are to be 64 again: the header that was moved into the
block is still there. -/
theorem heapRun_overlaps : ∃ lives s, LiveRun exampleLayout (fun _ _ => True)
      [.kmalloc 64, .krealloc 0xFFFFFF0001001020 16, .krealloc 0xFFFFFF0001001020 64] lives s ∧
    ¬Sound exampleLayout lives s := by
  obtain ⟨s₁, hrun₁, F, V, hstate⟩ := firstHeap_kmalloc (fun _ _ => True) 64 (by decide) trivial
  generalize hb : (⟨0xFFFFFF0001001000, 64, true⟩ : Block) = b
  have hmem : b.memory = 0xFFFFFF0001001020 := by rw [← hb]; rfl
  have hsize : b.size = 64 := by rw [← hb]
  replace hstate : HeapState exampleLayout F V ([] ++ b :: [⟨0xFFFFFF0001001060, 3968, false⟩]) s₁ := by
    rw [← hb]
    exact hstate
  -- the block is made smaller
  obtain ⟨s₂, out, hret₂, hresized, hlisted⟩ := hstate.krealloc_stays 16 (by decide) fun hlt => by
    rw [hsize] at hlt
    exact absurd hlt (by decide)
  have hw₂ : KreallocWithin exampleLayout s₁ b.memory 16 := by
    intro t hfalse
    rw [hstate.entry_eq (b := b) (by simp)] at hfalse
    rcases hfalse.of_wp (hstate.kreallocInPlace (E := fun _ => False) (unitUp_mod 16)) with ⟨hdone, -⟩ | ⟨-, -, hlt, -⟩
    · cases hdone
    · rw [hsize] at hlt
      exact absurd hlt (by decide)
  have hfirst := (hstate.resized hresized hlisted).2.1
  have hmoved : ∃ d : Block, d.addr = b.memory + 16 ∧ out = b :: [d] := by
    cases hresized with
    | same heq =>
      rw [hsize] at heq
      exact absurd heq (by decide)
    | moveDown _ _ => exact ⟨_, rfl, rfl⟩
    | split _ hhead _ => cases hhead _ rfl
    | absorb hgt _ _ =>
      rw [hsize] at hgt
      exact absurd hgt (by decide)
  obtain ⟨d, hd, rfl⟩ := hmoved
  -- and larger again
  have hsame : unitUp 64 = b.size := by
    rw [hsize]
    decide
  obtain ⟨hw₃, hret₃⟩ := hlisted.krealloc_same hsame (by decide)
  rw [hmem] at hret₂ hret₃ hw₂ hw₃
  have hcall₂ : LiveCall exampleLayout s₁ ([] ++ .fresh 0xFFFFFF0001001020 64 :: [])
      (.krealloc 0xFFFFFF0001001020 16) _ s₂ := .krealloc (by decide) hw₂ hret₂
  rw [if_neg (by decide)] at hcall₂
  have hcall₃ : LiveCall exampleLayout s₂
      ([] ++ (LiveBlock.fresh 0xFFFFFF0001001020 64).resized 0xFFFFFF0001001020 16 :: [])
      (.krealloc 0xFFFFFF0001001020 64) _ s₂ := .krealloc (by decide) hw₃ hret₃
  rw [if_neg (by decide)] at hcall₃
  refine ⟨_, s₂, (hrun₁.call _ trivial hcall₂).call _ trivial hcall₃, fun hsound => ?_⟩
  obtain ⟨bs, hentries, hoff⟩ := hsound.offHeaders
  obtain rfl := (hlisted.entries hfirst).unique hentries
  have hapart := hoff d (by simp) (((LiveBlock.fresh 0xFFFFFF0001001020 64).resized 0xFFFFFF0001001020 16).resized
    0xFFFFFF0001001020 64) (by simp)
  simp only [LiveBlock.resized, Block.memory, hd] at hapart hmem
  omega

end KoalemOS.Heap
