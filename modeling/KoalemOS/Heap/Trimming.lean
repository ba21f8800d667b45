import KoalemOS.Heap.Runs

/-!
# Runs of `kmalloc` and `kfree`

`kfree_run_keeps` says that the blocks fill the heap after every `kfree` of a run that trims
cleanly; `kfree_run_crosses` is a run in which the header of the last block ends up across
the end of the heap.
-/

namespace KoalemOS.Heap

open KoalemOS.Library KoalemOS.Library.LinkedList KoalemOS.Mmap KoalemOS.Paging

variable {L : Layout} {F : Nat → Nat} {V : Mem} {s s' : Kernel} {b c : Block}
  {bs bs' xs ys : List Block} {size : Nat} {E : Stop → Prop}

/-- A call other than `krealloc`. -/
def NoKrealloc : HeapOp → Prop
  | .krealloc _ _ => False
  | _ => True

/-- The call is none of `krealloc`, and a block it frees trims the heap cleanly. -/
def FreesCleanly (L : Layout) (s : Kernel) : HeapOp → Prop
  | .krealloc _ _ => False
  | .kfree ptr => ∀ bs b, LaidOut L bs s → b ∈ bs → b.memory = ptr → TrimsCleanly s bs b
  | _ => True

/-- From `s` to `s'` the blocks fill the heap again, and the live blocks other than that of
`ptr` have kept their addresses, sizes and contents. -/
def KfreeKeeps (L : Layout) (live : Live) (ptr : Nat) (s s' : Kernel) : Prop :=
  ∃ bs bs', WellFormed L live bs s ∧ LaidOut L bs' s' ∧ ∀ q n, live q = some n → q ≠ ptr →
    ∃ b, b ∈ bs ∧ b ∈ bs' ∧ b.used = true ∧ b.memory = q ∧ n ≤ b.size ∧ SameBytes b s s'

/-- A `kfree` that trims cleanly. -/
theorem WellFormed.kfree_step {live : Live} {ptr n : Nat} (h : WellFormed L live bs s)
    (hptr : live ptr = some n) (hok : FreesCleanly L s (.kfree ptr)) (hret : (Heap.kfree L ptr).Returns s () s') :
    KfreeKeeps L live ptr s s' ∧ ∃ bs', WellFormed L (Function.update live ptr none) bs' s' := by
  obtain ⟨b, hb, hused, rfl, -⟩ := h.ofLive ptr n hptr
  have hwp := kfree_wp (E := IsPanic) h.laidOut hb (hok bs b h.laidOut hb rfl) (.inl fun _ he => he)
  obtain ⟨xs, c, ys, bs', hjoined, htrimmed, hlaid, hold, hnew⟩ := hret.of_wp hwp
  refine ⟨⟨bs, bs', h, hlaid, fun q m hq hne => ?_⟩, bs', h.kfree hb hlaid hold hnew⟩
  obtain ⟨d, hd, hdused, rfl, hm⟩ := h.ofLive q m hq
  have hdb : d ≠ b := by
    rintro rfl
    exact hne rfl
  obtain ⟨hd', hsame⟩ := hold d hd hdb hdused
  exact ⟨d, hd, hd', hdused, rfl, hm, hsame⟩

/-- The blocks fill the heap in every state of such a run. -/
theorem HeapRun.wellFormed {ops : List HeapOp} {live : Live} (h : HeapRun L (FreesCleanly L) ops live s) :
    ∃ bs, WellFormed L live bs s := by
  induction h with
  | init hpage hret => exact ⟨_, initHeap_wellFormed hpage hret⟩
  | call hrun op hok hcall ih =>
    obtain ⟨bs, hwf⟩ := ih
    cases hcall with
    | kmalloc _ hw hret =>
      have hwp := kmalloc_wp (E := IsPanic) hwf.laidOut hw (.inr fun _ _ => .inl fun _ he => he)
      exact hwf.kmalloc (hret.of_wp hwp)
    | krealloc _ _ _ _ => exact hok.elim
    | kfree hptr hret => exact (hwf.kfree_step hptr hok hret).2
    | store hptr h₁ h₂ hret => exact ⟨bs, hwf.store hptr ⟨h₁, h₂⟩ hret⟩

/-- Memory holds one list of entries, and one of them is before a pointer. -/
theorem HeapState.same_block {b₁ : Block} (h : HeapState L F V bs s) (hb : b ∈ bs) (hentries : Entries s bs')
    (hb₁ : b₁ ∈ bs') (hmem : b₁.memory = b.memory) : bs' = bs ∧ b₁ = b := by
  obtain rfl := h.entries.unique hentries
  refine ⟨rfl, h.arena.eq_of_addr hb₁ hb ?_⟩
  simp only [Block.memory] at hmem
  omega

/-- With a used block behind it, a block is freed cleanly. -/
theorem HeapState.freesCleanly {d : Block} (h : HeapState L F V bs s) (hb : b ∈ bs) (hd : d ∈ bs)
    (hused : d.used = true) (hlt : b.addr < d.addr) : FreesCleanly L s (.kfree b.memory) := by
  intro bs₁ b₁ hlaid hb₁ hmem xs c ys hjoined htrims
  obtain ⟨rfl, rfl⟩ := h.same_block hb hlaid.filled.1 hb₁ hmem
  exact absurd htrims (hjoined.not_trims h.arena hd hused hlt)

/-- Where a free block has room, the heap is not extended. -/
theorem HeapState.withinLimit (h : HeapState L F V (xs ++ b :: ys) s) (hsize : size < 2 ^ 63)
    (hfits : b.Fits (unitUp size)) (hfirst : ∀ x ∈ xs, ¬x.Fits (unitUp size)) : WithinLimit L s size := by
  refine ⟨hsize, fun hnone _ => ?_⟩
  have hlisted : Listed L s.kernelHeapEnd F (InUse (xs ++ b :: ys)) V s ([] ++ (xs ++ b :: ys)) s :=
    h.listed fun v hv => inUse_owned hv
  obtain ⟨hne, hfind⟩ := hlisted.findFree_first h.length_lt hfits hfirst
  rw [← h.first] at hfind
  exact absurd (hfind.det hnone).1 hne

/-! ## Runs on the example heap -/

/-- A run on the example heap, in which the entries have become `bs`. -/
structure Tracked (ok : Kernel → HeapOp → Prop) (ops : List HeapOp) (live : Live) (F : Nat → Nat) (bs : List Block)
    (e : Nat) (s : Kernel) : Prop where
  run : HeapRun exampleLayout ok ops live s
  state : ∃ V, HeapState exampleLayout F V bs s
  heapEnd : s.kernelHeapEnd = e
  spare : s.physMmap.rangeCount < s.physMmap.maxRangeCount

variable {ok : Kernel → HeapOp → Prop} {ops : List HeapOp} {live : Live} {e : Nat}

theorem firstHeap_tracked (ok : Kernel → HeapOp → Prop) :
    ∃ F, Tracked ok [] (fun _ => none) F [firstBlock exampleLayout] 0xFFFFFF0001002000 firstHeap := by
  obtain ⟨hret, ⟨htiles, F, V, hstate⟩, hmap, -⟩ := firstHeap_laidOut
  refine ⟨F, .init bootHeap_firstPage.1 hret, ⟨V, hstate⟩, htiles.2.symm, ?_⟩
  rw [hmap]
  decide

theorem Tracked.laidOut (h : Tracked ok ops live F bs e s) (htiles : Tiles 0xFFFFFF0001001000 bs e) :
    LaidOut exampleLayout bs s := by
  obtain ⟨-, ⟨V, hstate⟩, rfl, -⟩ := h
  exact ⟨htiles, F, V, hstate⟩

/-- A request that a free block has room for. -/
theorem Tracked.first (h : Tracked ok ops live F (xs ++ b :: ys) e s) (size : Nat) (hok : ok s (.kmalloc size))
    (hsize : size < kernelHeapMaxSize) (hfits : b.Fits (unitUp size))
    (hfirst : ∀ x ∈ xs, ¬x.Fits (unitUp size)) :
    ∃ s', Tracked ok (ops ++ [.kmalloc size]) (Function.update live b.memory (some size)) F
      (xs ++ (Block.cut ⟨b.addr, b.size, true⟩ (unitUp size) ++ ys)) e s' ∧ s'.physMmap = s.physMmap := by
  obtain ⟨hrun, ⟨V, hstate⟩, hend, hspare⟩ := h
  have hlt : size < 2 ^ 63 := hsize.trans (by decide)
  have hwp := hstate.kmalloc_first (E := fun _ => False) size (by omega) hfits hfirst
  obtain ⟨p, s', hret, rfl, V', hstate', hstep, -⟩ := Outcome.returns_of_wp hwp fun _ _ _ hf => hf
  have hw := hstate.withinLimit hlt hfits hfirst
  have hcall := hrun.call (.kmalloc size) hok (.kmalloc hsize hw hret)
  rw [if_neg (by simp only [Block.memory]; omega)] at hcall
  refine ⟨s', ⟨hcall, ⟨V', hstate'⟩, ?_, ?_⟩, hstep.physMmap⟩
  · rw [hstep.same]
    exact hend
  · rwa [hstep.physMmap]

/-- One page table maps the first 2 MiB behind the start of the example heap. -/
theorem ptAt_exampleHeap {m : Mem} {cr3 v : Nat} (h₁ : 0xFFFFFF0001001000 ≤ v) (h₂ : v < 0xFFFFFF0001200000) :
    ptAt m cr3 v = ptAt m cr3 0xFFFFFF0001001000 := by
  have hindex : ∀ k, 21 ≤ k → k ≤ 39 → v / 2 ^ k = 0xFFFFFF0001001000 / 2 ^ k := by
    intro k hk hk'
    have hdiv : v / 2 ^ 21 = 0xFFFFFF0001001000 / 2 ^ 21 := by omega
    obtain ⟨j, rfl⟩ := Nat.exists_eq_add_of_le hk
    rw [pow_add, ← Nat.div_div_eq_div_mul, ← Nat.div_div_eq_div_mul, hdiv]
  rw [ptAt, index, index, index]
  simp only [hindex 39 (by decide) (by decide), hindex 30 (by decide) (by decide),
    hindex 21 (by decide) (by decide)]
  rfl

/-- The page table of the first page is there. -/
theorem Tracked.table (h : Tracked ok ops live F bs e s) : ∃ n, ptAt s.mem s.cr3 0xFFFFFF0001001000 = some n := by
  obtain ⟨-, ⟨V, hstate⟩, -, -⟩ := h
  obtain ⟨b, hb⟩ := List.exists_mem_of_ne_nil _ hstate.nonempty
  have hbound := hstate.arena.bounds hb
  have hw : exampleLayout.Within s.kernelHeapEnd 0xFFFFFF0001001000 := by
    refine ⟨le_rfl, ?_⟩
    simp only [Block.stop, exampleLayout] at hbound
    omega
  obtain ⟨pte, hwalk, -⟩ := hstate.pages.mapped _ hw
  obtain ⟨n, hn, -⟩ := ptAt_of_walk hwalk
  exact ⟨n, hn⟩

/-- A request that no block has room for. -/
theorem Tracked.extend (h : Tracked ok ops live F bs e s) (size : Nat) (hok : ok s (.kmalloc size))
    (hsize : size < kernelHeapMaxSize)
    (hlow : 0xFFFFFF0001001000 ≤ e) (hhigh : e + 4096 * pageCount (unitUp size) ≤ 0xFFFFFF0001200000)
    (hnone : ∀ b ∈ bs, ¬b.Fits (unitUp size)) (hfound : (mmapGetPages s.physMmap (pageCount (unitUp size))).1 ≠ 0) :
    ∃ s', Tracked ok (ops ++ [.kmalloc size]) (Function.update live (e + 32) (some size))
      (extendFrames F e (mmapGetPages s.physMmap (pageCount (unitUp size))).1)
      (bs ++ (Block.cut ⟨e, 4096 * pageCount (unitUp size) - 32, true⟩ (unitUp size) ++ []))
      (e + 4096 * pageCount (unitUp size)) s' := by
  obtain ⟨n, hn⟩ := h.table
  obtain ⟨hrun, ⟨V, hstate⟩, rfl, hspare⟩ := h
  have hlt : size < 2 ^ 63 := hsize.trans (by decide)
  have hlimit : s.kernelHeapEnd + 4096 * pageCount (unitUp size) ≤
      exampleLayout.kernelHeapStart + kernelHeapMaxSize := hhigh.trans (by decide)
  have hwp := hstate.kmalloc_extend (E := fun _ => False) (by omega) hnone (fun _ => hlimit) fun i hi =>
    .inr ⟨n, by rw [ptAt_exampleHeap (by omega) (by omega)]; exact hn⟩
  obtain ⟨p, s', hret, hpost⟩ := Outcome.returns_of_wp hwp fun _ _ _ hf => hf
  obtain ⟨rfl, F', V', bs₁, s₁, hext, hstep, hstate', -⟩ := hpost.resolve_left fun ⟨_, _, hzero⟩ => hfound hzero
  have hcall := hrun.call (.kmalloc size) hok (.kmalloc hsize ⟨hlt, fun _ _ => hlimit⟩ hret)
  rw [if_neg (by omega)] at hcall
  have hframes := hext.frames
  subst hframes
  refine ⟨s', ⟨hcall, ⟨V', hstate'⟩, ?_, ?_⟩⟩
  · rw [hstep.same]
    exact hext.heapEnd
  · rw [hstep.physMmap, hext.maxRangeCount]
    exact hext.rangeCount.trans_lt hspare

/-- A block is freed: it is merged with its neighbours, and the rest of a heap is left. -/
theorem Tracked.free (h : Tracked ok ops live F (xs ++ b :: ys) e s) {n : Nat} (hlive : live b.memory = some n)
    (hroom : RoomAtEnd (xs ++ b :: ys)) (hok : ok s (.kfree b.memory)) : ∃ s' xs' b₁ c ys' bs', (kfree exampleLayout b.memory).Returns s () s' ∧
      LastMerged xs ⟨b.addr, b.size, false⟩ xs' b₁ ∧ NextMerged b₁ ys c ys' ∧
      Trimmed e xs' c ys' bs' s'.kernelHeapEnd ∧ (∃ K V₀, Remains exampleLayout e F K V₀ bs' s') ∧
      (¬Trims e xs' c ys' → DataStep s s') ∧
      HeapRun exampleLayout ok (ops ++ [.kfree b.memory])
        (Function.update live b.memory none) s' := by
  obtain ⟨hrun, ⟨V, hstate⟩, rfl, hspare⟩ := h
  have hwp := hstate.kfree (E := fun _ => False) (.inr ⟨hroom, hspare⟩)
  obtain ⟨_, s', hret, xs', b₁, c, ys', bs', hlast, hnext, htrimmed, hremains, hstays⟩ :=
    Outcome.returns_of_wp hwp fun _ _ _ hf => hf
  have hcall := hrun.call (.kfree b.memory) hok (.kfree hlive hret)
  exact ⟨s', xs', b₁, c, ys', bs', hret, hlast, hnext, htrimmed, ⟨_, _, hremains⟩, hstays, hcall⟩

/-- A block between used ones is freed. -/
theorem Tracked.free_between {p d : Block} (h : Tracked ok ops live F ((xs ++ [p]) ++ b :: d :: ys) e s) {n : Nat}
    (hlive : live b.memory = some n) (hp : p.used = true) (hd : d.used = true)
    (hroom : RoomAtEnd ((xs ++ [p]) ++ b :: d :: ys)) (hok : ok s (.kfree b.memory)) :
    ∃ s', Tracked ok (ops ++ [.kfree b.memory]) (Function.update live b.memory none) F
      ((xs ++ [p]) ++ ⟨b.addr, b.size, false⟩ :: d :: ys) e s' := by
  obtain ⟨s', xs', b₁, c, ys', bs', hret, hlast, hnext, htrimmed, ⟨K, V₀, hremains⟩, hstays, hrun⟩ :=
    h.free hlive hroom hok
  obtain ⟨-, ⟨V, hstate⟩, rfl, hspare⟩ := h
  obtain ⟨rfl, rfl⟩ := hlast.eq_keep hp
  obtain ⟨rfl, rfl⟩ := hnext.eq_keep hd
  have hno : ¬Trims s.kernelHeapEnd (xs ++ [p]) ⟨b.addr, b.size, false⟩ (d :: ys) :=
    fun ht => List.cons_ne_nil _ _ ht.last
  obtain ⟨rfl, hend⟩ := htrimmed.eq_keep hno
  have hstep := hstays hno
  have harena : Arena exampleLayout.kernelHeapStart ((xs ++ [p]) ++ ⟨b.addr, b.size, false⟩ :: d :: ys)
      s'.kernelHeapEnd := by
    rw [hend]
    obtain ⟨hbefore, hbehind⟩ := Placed.append_cons_iff.mp hstate.arena
    exact Placed.append_cons_iff.mpr ⟨hbefore, hbehind⟩
  have hcon : Consecutive F s'.kernelHeapEnd ((s.kernelHeapEnd - s'.kernelHeapEnd) / 4096) := by
    rw [hend, Nat.sub_self]
    exact fun i hi => absurd hi (Nat.not_lt_zero i)
  obtain ⟨V', hstate', -⟩ := hremains.heapState hstate harena (by simp) hend.le
    (by rw [hend]; exact hstate.pages.endAligned) hcon
  refine ⟨s', hrun, ⟨V', hstate'⟩, hend, ?_⟩
  rwa [hstep.physMmap]

/-- 64 bytes of the first page, and the free rest of it. -/
theorem firstHeap_taken : ∃ s, LaidOut exampleLayout ([] ++ ⟨0xFFFFFF0001001000, 64, true⟩ ::
    [⟨0xFFFFFF0001001060, 3968, false⟩]) s := by
  obtain ⟨F₀, h₀⟩ := firstHeap_tracked fun _ => NoKrealloc
  replace h₀ : Tracked _ [] _ F₀ ([] ++ firstBlock exampleLayout :: []) _ firstHeap := h₀
  obtain ⟨s₁, h₁, -⟩ := h₀.first 64 trivial (by decide) ⟨rfl, by decide⟩ (by simp)
  exact ⟨s₁, h₁.laidOut ⟨rfl, by decide, (by decide : 0xFFFFFF0001001060 + 32 + 3968 = 0xFFFFFF0001002000)⟩⟩

/-- Twice 64 bytes, and the free rest. -/
theorem firstHeap_takenTwice : ∃ s, s.physMmap = firstHeap.physMmap ∧
    LaidOut exampleLayout ([] ++ ⟨0xFFFFFF0001001000, 64, true⟩ ::
      [⟨0xFFFFFF0001001060, 64, true⟩, ⟨0xFFFFFF00010010C0, 3872, false⟩]) s := by
  obtain ⟨F₀, h₀⟩ := firstHeap_tracked fun _ => NoKrealloc
  replace h₀ : Tracked _ [] _ F₀ ([] ++ firstBlock exampleLayout :: []) _ firstHeap := h₀
  obtain ⟨s₁, h₁, hphys₁⟩ := h₀.first 64 trivial (by decide) ⟨rfl, by decide⟩ (by simp)
  replace h₁ : Tracked _ [.kmalloc 64] _ F₀ ([⟨0xFFFFFF0001001000, 64, true⟩] ++
      ⟨0xFFFFFF0001001060, 3968, false⟩ :: []) 0xFFFFFF0001002000 s₁ := h₁
  obtain ⟨s₂, h₂, hphys₂⟩ := h₁.first 64 trivial (by decide) ⟨rfl, by decide⟩ (by simp [Block.Fits])
  exact ⟨s₂, hphys₂.trans hphys₁, h₂.laidOut ⟨rfl, by decide, by decide,
    (by decide : 0xFFFFFF00010010C0 + 32 + 3872 = 0xFFFFFF0001002000)⟩⟩

/-- Three blocks of 64 bytes, and the second is freed. -/
theorem firstHeap_gap (ok : Kernel → HeapOp → Prop) (hkmalloc : ∀ s size, ok s (.kmalloc size))
    (hkfree : ∀ {F V bs s} {b d : Block}, HeapState exampleLayout F V bs s → b ∈ bs → d ∈ bs → d.used = true →
      b.addr < d.addr → ok s (.kfree b.memory)) :
    ∃ live F s, live 0xFFFFFF0001001020 = some 64 ∧
      Tracked ok [.kmalloc 64, .kmalloc 64, .kmalloc 64, .kfree 0xFFFFFF0001001080] live F
        ([] ++ ⟨0xFFFFFF0001001000, 64, true⟩ :: [⟨0xFFFFFF0001001060, 64, false⟩, ⟨0xFFFFFF00010010C0, 64, true⟩,
          ⟨0xFFFFFF0001001120, 3776, false⟩]) 0xFFFFFF0001002000 s := by
  obtain ⟨F, h₀⟩ := firstHeap_tracked ok
  replace h₀ : Tracked ok [] _ F ([] ++ firstBlock exampleLayout :: []) _ firstHeap := h₀
  obtain ⟨s₁, h₁, -⟩ := h₀.first 64 (hkmalloc ..) (by decide) ⟨rfl, by decide⟩ (by simp)
  replace h₁ : Tracked ok [.kmalloc 64] _ F ([⟨0xFFFFFF0001001000, 64, true⟩] ++
      ⟨0xFFFFFF0001001060, 3968, false⟩ :: []) 0xFFFFFF0001002000 s₁ := h₁
  obtain ⟨s₂, h₂, -⟩ := h₁.first 64 (hkmalloc ..) (by decide) ⟨rfl, by decide⟩ (by simp [Block.Fits])
  replace h₂ : Tracked ok [.kmalloc 64, .kmalloc 64] _ F ([⟨0xFFFFFF0001001000, 64, true⟩,
      ⟨0xFFFFFF0001001060, 64, true⟩] ++ ⟨0xFFFFFF00010010C0, 3872, false⟩ :: []) 0xFFFFFF0001002000 s₂ := h₂
  obtain ⟨s₃, h₃, -⟩ := h₂.first 64 (hkmalloc ..) (by decide) ⟨rfl, by decide⟩ (by simp [Block.Fits])
  replace h₃ : Tracked ok [.kmalloc 64, .kmalloc 64, .kmalloc 64] _ F (([] ++ [⟨0xFFFFFF0001001000, 64, true⟩]) ++
      ⟨0xFFFFFF0001001060, 64, true⟩ :: ⟨0xFFFFFF00010010C0, 64, true⟩ :: [⟨0xFFFFFF0001001120, 3776, false⟩])
      0xFFFFFF0001002000 s₃ := h₃
  have hok : ok s₃ (.kfree (Block.memory ⟨0xFFFFFF0001001060, 64, true⟩)) := by
    obtain ⟨V, hstate⟩ := h₃.state
    exact hkfree hstate (d := ⟨0xFFFFFF00010010C0, 64, true⟩) (by simp) (by simp) rfl (by decide)
  obtain ⟨s₄, h₄⟩ := h₃.free_between (n := 64) (by decide) rfl rfl (by simp [RoomAtEnd]) hok
  exact ⟨_, F, s₄, by decide, h₄⟩

/-! ## The main result -/

/-- **The layout after `kfree`.** In a run of `kmalloc` and `kfree` in which every block that
is freed trims the heap cleanly, the blocks fill the heap in every state, and a further such
`kfree` leaves the other live blocks what they were. -/
theorem kfree_run_keeps {ops : List HeapOp} {live : Live} (h : HeapRun L (FreesCleanly L) ops live s) :
    (∃ bs, WellFormed L live bs s) ∧ ∀ ptr n s', live ptr = some n → FreesCleanly L s (.kfree ptr) →
      (kfree L ptr).Returns s () s' → KfreeKeeps L live ptr s s' := by
  refine ⟨h.wellFormed, fun ptr n s' hptr hok hret => ?_⟩
  obtain ⟨bs, hwf⟩ := h.wellFormed
  exact (hwf.kfree_step hptr hok hret).1

/-- Behind the first of three blocks the second has been freed, and then the first is. -/
theorem kfree_run_keeps_firstHeap : ∃ live s s', HeapRun exampleLayout (FreesCleanly exampleLayout)
      [.kmalloc 64, .kmalloc 64, .kmalloc 64, .kfree 0xFFFFFF0001001080] live s ∧
    FreesCleanly exampleLayout s (.kfree 0xFFFFFF0001001020) ∧
    (kfree exampleLayout 0xFFFFFF0001001020).Returns s () s' ∧
    KfreeKeeps exampleLayout live 0xFFFFFF0001001020 s s' := by
  obtain ⟨live, F, s, hlive, h⟩ := firstHeap_gap (FreesCleanly exampleLayout) (fun _ _ => trivial)
    fun hstate hb hd hused hlt => hstate.freesCleanly hb hd hused hlt
  obtain ⟨V, hstate⟩ := h.state
  have hok : FreesCleanly exampleLayout s (.kfree 0xFFFFFF0001001020) :=
    hstate.freesCleanly (b := ⟨0xFFFFFF0001001000, 64, true⟩) (d := ⟨0xFFFFFF00010010C0, 64, true⟩)
      (by simp) (by simp) rfl (by decide)
  obtain ⟨s', -, -, -, -, -, hret, -⟩ := h.free (n := 64) hlive (by simp [RoomAtEnd]) hok
  exact ⟨live, s, s', h.run, hok, hret, (kfree_run_keeps h.run).2 _ _ _ hlive hok hret⟩

/-! ## A run that trims across a page boundary -/

/-- The calls of the run: the first page is filled, three more are used by two blocks, and in
the place of the first of them comes one that ends 16 bytes before the end of its page. -/
def crossingOps : List HeapOp :=
  [.kmalloc 4064, .kmalloc 12096, .kmalloc 64, .kfree 0xFFFFFF0001002020, .kmalloc 4048]

/-- The last block that is freed ends at a header which crosses the end of the heap. -/
theorem kfree_run_crosses : ∃ live s s', HeapRun exampleLayout (fun _ => NoKrealloc) crossingOps live s ∧
    live 0xFFFFFF0001004F80 = some 64 ∧ (kfree exampleLayout 0xFFFFFF0001004F80).Returns s () s' ∧
    ¬∃ bs, LaidOut exampleLayout bs s' := by
  obtain ⟨F₀, h₀⟩ := firstHeap_tracked fun _ => NoKrealloc
  have hphys := firstHeap_laidOut.2.2.1
  replace h₀ : Tracked _ [] _ F₀ ([] ++ firstBlock exampleLayout :: []) _ firstHeap := h₀
  -- the first page
  obtain ⟨s₁, h₁, hphys₁⟩ := h₀.first 4064 trivial (by decide) ⟨rfl, by decide⟩ (by simp)
  replace h₁ : Tracked _ [.kmalloc 4064] _ F₀ [⟨0xFFFFFF0001001000, 4064, true⟩] 0xFFFFFF0001002000 s₁ := h₁
  -- three more pages
  have hpages : pageCount (unitUp 12096) = 3 := by decide
  obtain ⟨s₂, h₂⟩ := h₁.extend 12096 trivial (by decide) (by decide) (by decide) (by simp [Block.Fits])
    (by rw [hphys₁, hphys, hpages]; decide)
  replace h₂ : Tracked _ [.kmalloc 4064, .kmalloc 12096] _ _ ([⟨0xFFFFFF0001001000, 4064, true⟩,
      ⟨0xFFFFFF0001002000, 12096, true⟩] ++ [⟨0xFFFFFF0001004F60, 128, false⟩]) 0xFFFFFF0001005000 s₂ := h₂
  obtain ⟨s₃, h₃, -⟩ := h₂.first 64 trivial (by decide) ⟨rfl, by decide⟩ (by simp [Block.Fits])
  replace h₃ : Tracked _ [.kmalloc 4064, .kmalloc 12096, .kmalloc 64] _ _
      (([] ++ [⟨0xFFFFFF0001001000, 4064, true⟩]) ++ ⟨0xFFFFFF0001002000, 12096, true⟩ ::
        ⟨0xFFFFFF0001004F60, 128, true⟩ :: []) 0xFFFFFF0001005000 s₃ := h₃
  -- the block between the used ones makes room for a smaller one
  obtain ⟨s₄, h₄⟩ := h₃.free_between (n := 12096) (by decide) rfl rfl (by simp [RoomAtEnd]) trivial
  replace h₄ : Tracked _ [.kmalloc 4064, .kmalloc 12096, .kmalloc 64, .kfree 0xFFFFFF0001002020] _ _
      ([⟨0xFFFFFF0001001000, 4064, true⟩] ++ ⟨0xFFFFFF0001002000, 12096, false⟩ ::
        [⟨0xFFFFFF0001004F60, 128, true⟩]) 0xFFFFFF0001005000 s₄ := h₄
  obtain ⟨s₅, h₅, -⟩ := h₄.first 4048 trivial (by decide) ⟨rfl, by decide⟩ (by simp [Block.Fits])
  replace h₅ : Tracked _ crossingOps _ _ (([⟨0xFFFFFF0001001000, 4064, true⟩, ⟨0xFFFFFF0001002000, 4048, true⟩] ++
      [⟨0xFFFFFF0001002FF0, 8016, false⟩]) ++ ⟨0xFFFFFF0001004F60, 128, true⟩ :: []) 0xFFFFFF0001005000 s₅ := h₅
  -- the last block is merged with the free one, whose header is at the end of a page
  obtain ⟨s₆, xs', b₁, c, ys', bs', hret, hlast, hnext, htrimmed, ⟨K, V₀, hremains⟩, -⟩ :=
    h₅.free (n := 64) (by decide) (by simp [RoomAtEnd]) trivial
  obtain ⟨rfl, rfl⟩ := hlast.eq_merge rfl (by decide)
  obtain ⟨rfl, rfl⟩ := hnext.eq_nil
  obtain ⟨hended, hend⟩ := htrimmed.ended ⟨rfl, by simp, by decide⟩
  replace hend : s₆.kernelHeapEnd = 0xFFFFFF0001003000 := hend
  refine ⟨_, s₅, s₆, h₅.run, by decide, hret, ?_⟩
  rintro ⟨bs, hlaid⟩
  obtain rfl := (hremains.listed.entries hremains.first).unique hlaid.filled.1
  have htiles := hlaid.1
  rw [hend] at hended htiles
  cases hended with
  | drop heq => exact absurd heq (by decide)
  | resize _ =>
    have hfills : 0xFFFFFF0001002FF0 + 32 + sub64 (sub64 0xFFFFFF0001003000 0xFFFFFF0001002FF0) 32 =
        0xFFFFFF0001003000 := (Placed.append_cons_iff.mp htiles).2
    exact absurd hfills (by decide)

end KoalemOS.Heap
