import KoalemOS.Heap.Growing

/-!
# Free blocks are merged

No call of the allocator leaves two free blocks next to each other when there were none before
(`call_coalesces`). So a run that frees every block and keeps the blocks filling the heap ends
with one free block (`run_coalesces`).
-/

namespace KoalemOS.Heap

open KoalemOS.Library KoalemOS.Library.LinkedList KoalemOS.Mmap KoalemOS.Paging

variable {L : Layout} {e e' lo : Nat} {F F' : Nat → Nat} {V : Mem} {s s' t : Kernel} {b c d : Block}
  {bs bs' bs₁ xs ys zs : List Block} {size : Nat}

/-! ## Lists without two free neighbours -/

theorem noTwoFree_used (hc : c.used = true) : NoTwoFree (xs ++ c :: ys) ↔ NoTwoFree xs ∧ NoTwoFree ys := by
  unfold NoTwoFree
  rw [List.isChain_append, List.isChain_cons]
  simp [hc]

theorem noTwoFree_cons_free (hc : c.used = false) :
    NoTwoFree (c :: ys) ↔ NoTwoFree ys ∧ ∀ y ∈ ys.head?, y.used = true := by
  unfold NoTwoFree
  rw [List.isChain_cons]
  simp only [hc, true_and, Bool.not_eq_false]
  exact and_comm

/-- What is cut off a used block is behind a used block. -/
theorem Parts.noTwoFree {ps : List Block} (h : Parts size b ps) (hb : b.used = true) (hxs : NoTwoFree xs)
    (hys : NoTwoFree ys) (hhead : ∀ y ∈ ys.head?, y.used = true) : NoTwoFree (xs ++ (ps ++ ys)) := by
  cases h with
  | whole => exact (noTwoFree_used hb).mpr ⟨hxs, hys⟩
  | two _ =>
    generalize hrest : (⟨b.memory + size, b.size - (size + 32), false⟩ : Block) = r
    have hr : r.used = false := by rw [← hrest]
    have hfirst : Block.used ⟨b.addr, size, b.used⟩ = true := hb
    exact (noTwoFree_used hfirst).mpr ⟨hxs, (noTwoFree_cons_free hr).mpr ⟨hys, hhead⟩⟩

/-! ## The operations -/

theorem Taken.noTwoFree (h : Taken size bs b bs') (hn : NoTwoFree bs) : NoTwoFree bs' := by
  cases h with
  | mk hfits _ =>
    obtain ⟨hxs, hys, -, hhead⟩ := (noTwoFree_around hfits.1).mp hn
    exact (cut_parts _ size).noTwoFree rfl hxs hys hhead

/-- A block that is taken from the supply is none of two free neighbours. -/
theorem Supply.noTwoFree (h : Supply size F bs s F' bs₁ s') (htaken : Taken size bs₁ d bs') (hn : NoTwoFree bs) :
    NoTwoFree bs' := by
  cases h with
  | reuse _ _ => exact htaken.noTwoFree hn
  | extend hext _ =>
    have hblocks := hext.blocks
    generalize hnew : (⟨s.kernelHeapEnd, 4096 * pageCount size - 32, false⟩ : Block) = n at hblocks
    cases htaken with
    | @mk xs ys _ hfits _ =>
      -- the block that is taken is the new one
      rcases List.eq_nil_or_concat' ys with rfl | ⟨zs, z, rfl⟩
      · obtain ⟨rfl, -⟩ := List.append_inj' hblocks rfl
        exact (cut_parts _ size).noTwoFree rfl hn List.isChain_nil (by simp)
      · have hinit : (xs ++ d :: zs) ++ [z] = bs ++ [n] := by simpa using hblocks
        obtain ⟨rfl, -⟩ := List.append_inj' hinit rfl
        exact absurd hfits (hext.noRoom d (by simp))

theorem Resized.noTwoFree {out : List Block} (h : Resized size b ys out) (hb : b.used = true)
    (hn : NoTwoFree (xs ++ b :: ys)) : NoTwoFree (xs ++ out) := by
  obtain ⟨hxs, hys⟩ := (noTwoFree_used hb).mp hn
  cases h with
  | same _ => exact hn
  | @moveDown c zs _ hc =>
    obtain ⟨hzs, hhead⟩ := (noTwoFree_cons_free hc).mp hys
    generalize hmoved : (⟨b.memory + size, c.size + (b.size - size), false⟩ : Block) = m
    have hm : m.used = false := by rw [← hmoved]
    exact (noTwoFree_used hb).mpr ⟨hxs, (noTwoFree_cons_free hm).mpr ⟨hzs, hhead⟩⟩
  | split _ hhead hparts => exact hparts.noTwoFree hb hxs hys hhead
  | absorb _ habs hparts =>
    rw [habs.split, noTwoFree_around habs.free] at hys
    exact hparts.noTwoFree hb hxs hys.2.1 hys.2.2.2

/-! ## One call -/

/-- `kmalloc`, `krealloc`, `kfree`, or a store. -/
def HeapOp.run (L : Layout) : HeapOp → KernelM Nat
  | .kmalloc size => Heap.kmalloc size
  | .krealloc ptr size => Heap.krealloc L ptr size
  | .kfree ptr => do
    Heap.kfree L ptr
    return 0
  | .store v x => do
    writeByte v x
    return 0

/-- The pointers are those of used blocks, and the heap stays within its limit. -/
def Allowed (L : Layout) (bs : List Block) (s : Kernel) : HeapOp → Prop
  | .kmalloc size => WithinLimit L s size
  | .krealloc ptr size => KreallocWithin L s ptr size ∧ ∃ b ∈ bs, b.used = true ∧ b.memory = ptr
  | .kfree ptr => ∃ b ∈ bs, b.used = true ∧ b.memory = ptr
  | .store v _ => ∃ b ∈ bs, b.used = true ∧ b.Owns v

/-- The entries of the list are blocks of which no two that are next to each other are free. -/
def Coalesced (s : Kernel) : Prop := ∃ bs, Entries s bs ∧ NoTwoFree bs

theorem HeapState.kmalloc_coalesces (h : HeapState L F V bs s) (hn : NoTwoFree bs) (hw : WithinLimit L s size) :
    Outcome.wp IsPanic (Heap.kmalloc size) (fun _ s' => Coalesced s') s := by
  have hsize := hw.1
  refine Outcome.wp_mono (h.kmalloc (by omega) (h.endWithin hw) (.inr fun _ _ => .inl fun _ he => he)) fun p s' hs => ?_
  rcases hs with ⟨-, rfl, -⟩ | ⟨F', V', bs₁, d, bs', hsupply, htaken, -, hstate, -⟩
  · exact ⟨bs, h.entries, hn⟩
  · exact ⟨bs', hstate.entries, hsupply.noTwoFree htaken hn⟩

/-- Freeing a block of a heap that its blocks fill. -/
theorem Remains.coalesced (h : Remains L e F (OthersUse bs b) V bs' s') (hjoined : Joined bs b xs c ys)
    (htrimmed : Trimmed e xs c ys bs' e') (ht : Tiles lo bs e) (hn : NoTwoFree bs) : Coalesced s' :=
  ⟨bs', h.listed.entries h.first, htrimmed.noTwoFree hjoined.free (hjoined.noTwoFree ht hn)⟩

theorem kfree_coalesces (h : LaidOut L bs s) (hn : NoTwoFree bs) (hb : b ∈ bs) :
    Outcome.wp IsPanic (Heap.kfree L b.memory) (fun _ s' => Coalesced s') s := by
  obtain ⟨htiles, F, V, hstate⟩ := h
  obtain ⟨xs, ys, rfl⟩ := List.append_of_mem hb
  refine Outcome.wp_mono (hstate.kfree (.inl fun _ he => he)) fun _ s' hs => ?_
  obtain ⟨xs', b₁, c, ys', bs', hlast, hnext, htrimmed, hremains, -⟩ := hs
  exact hremains.coalesced (.mk hlast hnext) htrimmed htiles hn

theorem krealloc_coalesces (h : LaidOut L bs s) (hn : NoTwoFree bs) (hb : b ∈ bs) (hused : b.used = true)
    (hw : KreallocWithin L s b.memory size) :
    Outcome.wp IsPanic (Heap.krealloc L b.memory size) (fun _ s' => Coalesced s') s := by
  obtain ⟨htiles, F, V, hstate⟩ := h
  obtain ⟨xs, ys, rfl⟩ := List.append_of_mem hb
  by_cases hstays : b.size < unitUp size → ∃ ns c zs, Absorbs (unitUp size) ys ns c zs
  · -- the block stays in its place
    obtain ⟨t, out, hret, hresized, hlisted⟩ := hstate.krealloc_stays size (hstate.size_stays hstays) hstays
    obtain ⟨-, hfirst, -⟩ := hstate.resized hresized hlisted
    exact Outcome.wp_of_returns hret ⟨xs ++ out, hlisted.entries hfirst, hresized.noTwoFree hused hn⟩
  · rw [Classical.not_imp] at hstays
    obtain ⟨hlt, hno⟩ := hstays
    have hnone : ∀ ns c zs, ¬Absorbs (unitUp size) ys ns c zs := fun ns c zs habs => hno ⟨ns, c, zs, habs⟩
    have hwithin := hstate.krealloc_asks hlt hnone hw
    have hsize := hwithin.1
    refine Outcome.wp_mono (hstate.krealloc_moves hused hlt (by omega) hnone (hstate.endWithin hwithin)
      fun _ he => he) fun p s' hs => ?_
    rcases hs with ⟨-, rfl, -⟩ | ⟨-, F', V', bs₁, d, bs', t, hcopied, xs', c, ys', bs'', hjoined, htrimmed, hremains⟩
    · exact ⟨_, hstate.entries, hn⟩
    · exact hremains.coalesced hjoined htrimmed (hcopied.taken.tiles (hcopied.supply.tiles htiles))
        (hcopied.supply.noTwoFree hcopied.taken hn)

theorem store_coalesces (h : LaidOut L bs s) (hn : NoTwoFree bs) (hb : b ∈ bs) {v : Nat} (hv : b.Owns v) (x : UInt8) :
    Outcome.wp IsPanic (writeByte v x) (fun _ s' => Coalesced s') s := by
  obtain ⟨-, F, V, hstate⟩ := h
  obtain ⟨s', hret, hstate', -⟩ := hstate.store hb hv x
  exact Outcome.wp_of_returns hret ⟨bs, hstate'.entries, hn⟩

/-- A call of the allocator on a heap that its blocks fill. -/
theorem run_wp (h : LaidOut L bs s) (hn : NoTwoFree bs) {op : HeapOp} (hop : Allowed L bs s op) :
    Outcome.wp IsPanic (op.run L) (fun _ s' => Coalesced s') s := by
  cases op with
  | kmalloc size =>
    obtain ⟨-, F, V, hstate⟩ := h
    exact hstate.kmalloc_coalesces hn hop
  | krealloc ptr size =>
    obtain ⟨hw, b, hb, hused, rfl⟩ := hop
    exact krealloc_coalesces h hn hb hused hw
  | kfree ptr =>
    obtain ⟨b, hb, -, rfl⟩ := hop
    exact Outcome.wp_bind (Outcome.wp_mono (kfree_coalesces h hn hb) fun _ t ht =>
      Outcome.wp_of_returns (Outcome.returns_pure _ t) ht)
  | store v x =>
    obtain ⟨b, hb, -, hv⟩ := hop
    exact Outcome.wp_bind (Outcome.wp_mono (store_coalesces h hn hb hv x) fun _ t ht =>
      Outcome.wp_of_returns (Outcome.returns_pure _ t) ht)

/-! ## Runs -/

/-- A run of `kmalloc`, `kfree` and stores, in which the blocks fill the heap after every call. -/
inductive LaidRun (L : Layout) (s : Kernel) : Kernel → Prop where
  | refl : LaidRun L s s
  | call {bs bs' : List Block} {t u : Kernel} {op : HeapOp} {p : Nat} : LaidRun L s t → LaidOut L bs t →
      Allowed L bs t op → NoKrealloc op → (op.run L).Returns t p u → LaidOut L bs' u → LaidRun L s u

theorem LaidRun.noTwoFree (h : LaidRun L s t) (hlaid : LaidOut L bs s) (hn : NoTwoFree bs) (hlaid' : LaidOut L bs' t) :
    NoTwoFree bs' := by
  induction h generalizing bs' with
  | refl =>
    obtain rfl := hlaid.filled.1.unique hlaid'.filled.1
    exact hn
  | call _ hlaid₁ hop _ hret _ ih =>
    obtain ⟨bs₂, hentries, hn₂⟩ := hret.of_wp (run_wp hlaid₁ (ih hlaid₁) hop)
    obtain rfl := hentries.unique hlaid'.filled.1
    exact hn₂

/-- Free blocks none of which is next to another one are at most one. -/
theorem eq_singleton_of_free (hn : NoTwoFree bs) (hne : bs ≠ []) (hfree : ∀ b ∈ bs, b.used = false) :
    ∃ b, bs = [b] ∧ b.used = false := by
  obtain ⟨b, rest, rfl⟩ := List.exists_cons_of_ne_nil hne
  have hb := hfree b List.mem_cons_self
  cases rest with
  | nil => exact ⟨b, rfl, hb⟩
  | cons c rest =>
    have hc := ((noTwoFree_cons_free hb).mp hn).2 c rfl
    rw [hfree c (by simp)] at hc
    cases hc

/-- **Full coalescing.** On a heap that its blocks fill, of which no two neighbours are free, a call
that does not panic returns with no two neighbours free. And a run of `kmalloc` and `kfree`, in
which the blocks fill the heap throughout, ends with a single free block when it has freed all. -/
theorem coalescing_preserved (h : LaidOut L bs s) (hn : NoTwoFree bs) :
    (∀ op, Allowed L bs s op → (∀ e t, (op.run L).Stops s e t → ¬IsPanic e) →
      ∃ p s', (op.run L).Returns s p s' ∧ Coalesced s') ∧
    ∀ s' bs', LaidRun L s s' → LaidOut L bs' s' → (∀ b ∈ bs', b.used = false) →
      ∃ b, bs' = [b] ∧ b.used = false := by
  refine ⟨fun op hop hpanic => Outcome.returns_of_wp (run_wp h hn hop) hpanic, fun s' bs' hrun hlaid hfree => ?_⟩
  refine eq_singleton_of_free (hrun.noTwoFree h hn hlaid) ?_ hfree
  obtain ⟨-, F, V, hstate⟩ := hlaid
  exact hstate.nonempty

theorem coalescing_preserved_firstHeap :
    (∀ op, Allowed exampleLayout [firstBlock exampleLayout] firstHeap op →
      (∀ e t, (op.run exampleLayout).Stops firstHeap e t → ¬IsPanic e) →
      ∃ p s', (op.run exampleLayout).Returns firstHeap p s' ∧ Coalesced s') ∧
    ∀ s' bs', LaidRun exampleLayout firstHeap s' → LaidOut exampleLayout bs' s' → (∀ b ∈ bs', b.used = false) →
      ∃ b, bs' = [b] ∧ b.used = false :=
  coalescing_preserved firstHeap_laidOut.2.1 (List.isChain_singleton _)

end KoalemOS.Heap
