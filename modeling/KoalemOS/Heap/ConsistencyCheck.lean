import KoalemOS.Heap.Trimming

/-!
# `heap_consistency_check` (`src/kernel/memory.c`)

The check follows the `next` links and compares where each entry ends with where the next one
starts, modulo `2 ^ 64`; then it follows the `last` links, of which it looks only at the end.

- `checkNext_returns`, `followLast_returns`: the two walks
- `heapConsistencyCheck_wp`: what is compared
- `heapConsistencyCheck_filled`: a heap that its entries fill passes
- `heapConsistencyCheck_iff`: when what is compared is the layout of the heap
-/

namespace KoalemOS.Heap

open KoalemOS.Library KoalemOS.Library.LinkedList KoalemOS.Paging

/-! ## The code -/

/-- The loop along the `next` links: the entry it ends at, or none where an entry does not start
where the one before ends. -/
def checkNext : Nat → Nat → KernelM (Option Nat)
  | 0, _ => Outcome.stop .endless
  | fuel + 1, entry => do
    let next ← entryNext entry
    if next ≠ 0 then
      let size ← entrySize entry
      if next ≠ wrap (memoryOf entry + size) then return none
      else checkNext fuel next
    else return some entry

/-- The loop along the `last` links. -/
def followLast : Nat → Nat → KernelM Nat
  | 0, _ => Outcome.stop .endless
  | fuel + 1, entry => do
    let last ← entryLast entry
    if last ≠ 0 then followLast fuel last else return entry

/-- `heap_consistency_check` -/
def heapConsistencyCheck (L : Layout) (fuel : Nat) : KernelM Bool := do
  let first ← Outcome.gets (·.firstHeapEntry)
  if L.kernelHeapStart ≠ first then return false
  else
    let last ← Outcome.gets (·.lastHeapEntry)
    let size ← entrySize last
    let heapEnd ← Outcome.gets (·.kernelHeapEnd)
    if heapEnd ≠ wrap (memoryOf last + size) then return false
    else
      let reached ← checkNext fuel first
      match reached with
      | none => return false
      | some entry =>
        if entry ≠ last then return false
        else
          let entry ← followLast fuel entry
          return entry = first

/-! ## Walks -/

/-- The words of an entry. -/
structure Entry where
  addr : Nat
  size : Nat
  last : Nat
  next : Nat

/-- One past the last byte of an entry. -/
def Entry.stop (x : Entry) : Nat := x.addr + 32 + x.size

variable {L : Layout} {s : Kernel} {x y : Entry} {xs ys : List Entry} {link : Entry → Nat} {a fuel : Nat}

/-- The words of the entry are those in memory. -/
structure ReadsEntry (s : Kernel) (x : Entry) : Prop where
  size : (entrySize x.addr).Returns s x.size s
  last : (entryLast x.addr).Returns s x.last s
  next : (entryNext x.addr).Returns s x.next s

/-- Following the links from the entry at an address on ends, with the entries of the list. -/
inductive EntryChain (s : Kernel) (link : Entry → Nat) : Nat → List Entry → Prop where
  | stop {x : Entry} : ReadsEntry s x → link x = 0 → EntryChain s link x.addr [x]
  | step {x : Entry} {xs : List Entry} : ReadsEntry s x → link x ≠ 0 → EntryChain s link (link x) xs →
      EntryChain s link x.addr (x :: xs)

/-- There is one entry at an address. -/
theorem ReadsEntry.det (hx : ReadsEntry s x) (hy : ReadsEntry s y) (haddr : x.addr = y.addr) : x = y := by
  obtain ⟨a, n, l, m⟩ := x
  obtain ⟨a', n', l', m'⟩ := y
  simp only at haddr
  subst haddr
  have hsize := (hx.size.det hy.size).1
  have hlast := (hx.last.det hy.last).1
  have hnext := (hx.next.det hy.next).1
  simp only at hsize hlast hnext
  rw [hsize, hlast, hnext]

theorem EntryChain.head (h : EntryChain s link a xs) : ∃ x rest, xs = x :: rest ∧ x.addr = a ∧ ReadsEntry s x := by
  cases h with
  | stop hx _ => exact ⟨_, _, rfl, rfl, hx⟩
  | step hx _ _ => exact ⟨_, _, rfl, rfl, hx⟩

theorem EntryChain.reads (h : EntryChain s link a xs) : ∀ x ∈ xs, ReadsEntry s x := by
  induction h with
  | stop hx _ =>
    intro y hy
    rwa [List.mem_singleton.mp hy]
  | step hx _ _ ih => exact List.forall_mem_cons.mpr ⟨hx, ih⟩

/-- The links lead from each entry to the one behind it in the list. -/
theorem EntryChain.links (h : EntryChain s link a xs) : xs.IsChain fun x y => link x = y.addr := by
  induction h with
  | stop _ _ => exact List.IsChain.singleton _
  | step hx hne hrest ih =>
    obtain ⟨y, rest, rfl, hy, -⟩ := hrest.head
    exact List.IsChain.cons_cons hy.symm ih

/-- An address starts one walk. -/
theorem EntryChain.det (h : EntryChain s link a xs) (h' : EntryChain s link a ys) : xs = ys := by
  induction h generalizing ys with
  | @stop x hx h0 =>
    generalize ha : x.addr = a at h'
    cases h' with
    | stop hy _ => rw [hx.det hy ha]
    | step hy hne _ =>
      rw [hx.det hy ha] at h0
      exact absurd h0 hne
  | @step x xs hx hne hrest ih =>
    generalize ha : x.addr = a at h'
    cases h' with
    | stop hy h0 =>
      rw [hx.det hy ha] at hne
      exact absurd h0 hne
    | step hy _ hrest' =>
      obtain rfl := hx.det hy ha
      rw [ih hrest']

/-! ## What is compared -/

/-- Every entry starts, modulo `2 ^ 64`, where the one before ends. -/
def Adjacent (xs : List Entry) : Prop := xs.IsChain fun x y => y.addr = wrap x.stop

instance (xs : List Entry) : Decidable (Adjacent xs) :=
  inferInstanceAs (Decidable (xs.IsChain fun x y => y.addr = wrap x.stop))

theorem wrap_memoryOf (x : Entry) : wrap (memoryOf x.addr + x.size) = wrap x.stop := by
  simp only [memoryOf, wrap, Entry.stop, sizeofHeapEntry]
  omega

/-- The loop along the `next` links. -/
theorem checkNext_returns (h : EntryChain s Entry.next a xs) (hfuel : xs.length ≤ fuel) :
    (checkNext fuel a).Returns s (if Adjacent xs then some (lastOr Entry.addr 0 xs) else none) s := by
  induction h generalizing fuel with
  | stop hx h0 =>
    obtain ⟨f, rfl⟩ : ∃ f, fuel = f + 1 := ⟨fuel - 1, by simp only [List.length_singleton] at hfuel; omega⟩
    rw [if_pos (show Adjacent _ from List.IsChain.singleton _), checkNext]
    refine hx.next.bind ?_
    rw [if_neg (by simpa using h0)]
    exact Outcome.returns_pure _ s
  | @step x xs hx hne hrest ih =>
    rw [List.length_cons] at hfuel
    obtain ⟨f, rfl⟩ : ∃ f, fuel = f + 1 := ⟨fuel - 1, by omega⟩
    obtain ⟨y, rest, rfl, hy, -⟩ := hrest.head
    rw [checkNext]
    refine hx.next.bind ?_
    rw [if_pos hne]
    refine hx.size.bind ?_
    rw [wrap_memoryOf]
    by_cases hstop : x.next = wrap x.stop
    · have hiff : Adjacent (x :: y :: rest) ↔ Adjacent (y :: rest) := by
        unfold Adjacent
        rw [List.isChain_cons_cons, hy]
        exact and_iff_right hstop
      rw [if_neg (not_not.mpr hstop)]
      have := ih (show _ ≤ f by omega)
      simp only [hiff]
      exact this
    · have hnot : ¬Adjacent (x :: y :: rest) := by
        unfold Adjacent
        rw [List.isChain_cons_cons, hy]
        exact fun hc => hstop hc.1
      rw [if_pos hstop, if_neg hnot]
      exact Outcome.returns_pure _ s

/-- The loop along the `last` links. -/
theorem followLast_returns (h : EntryChain s Entry.last a ys) (hfuel : ys.length ≤ fuel) :
    (followLast fuel a).Returns s (lastOr Entry.addr 0 ys) s := by
  induction h generalizing fuel with
  | stop hx h0 =>
    obtain ⟨f, rfl⟩ : ∃ f, fuel = f + 1 := ⟨fuel - 1, by simp only [List.length_singleton] at hfuel; omega⟩
    rw [followLast]
    refine hx.last.bind ?_
    rw [if_neg (by simpa using h0)]
    exact Outcome.returns_pure _ s
  | @step x ys hx hne hrest ih =>
    rw [List.length_cons] at hfuel
    obtain ⟨f, rfl⟩ : ∃ f, fuel = f + 1 := ⟨fuel - 1, by omega⟩
    obtain ⟨y, rest, rfl, -, -⟩ := hrest.head
    rw [followLast]
    refine hx.last.bind ?_
    rw [if_pos hne]
    exact ih (by omega)

/-- The comparisons of the check, on the walk `xs` along the `next` links and the walk `ys` along
the `last` links. -/
structure Compared (L : Layout) (s : Kernel) (xs ys : List Entry) : Prop where
  first : L.kernelHeapStart = s.firstHeapEntry
  heapEnd : ∀ y ∈ ys.head?, s.kernelHeapEnd = wrap y.stop
  adjacent : Adjacent xs
  last : lastOr Entry.addr 0 xs = s.lastHeapEntry
  back : lastOr Entry.addr 0 ys = s.firstHeapEntry

/-- **`heap_consistency_check`** returns whether the comparisons hold. -/
theorem heapConsistencyCheck_wp {E : Stop → Prop} (hx : EntryChain s Entry.next s.firstHeapEntry xs)
    (hy : EntryChain s Entry.last s.lastHeapEntry ys) (hfuel : xs.length + ys.length ≤ fuel) :
    Outcome.wp E (heapConsistencyCheck L fuel) (fun r t => t = s ∧ (r = true ↔ Compared L s xs ys)) s := by
  have hfalse : ¬Compared L s xs ys → Outcome.wp E (pure false : KernelM Bool)
      (fun r t => t = s ∧ (r = true ↔ Compared L s xs ys)) s := fun hnot =>
    Outcome.wp_of_returns (Outcome.returns_pure false s) ⟨rfl, iff_of_false nofun hnot⟩
  obtain ⟨y, rest, rfl, hya, hread⟩ := hy.head
  have hsize := hread.size
  unfold heapConsistencyCheck
  refine Outcome.wp_bind_returns (Outcome.returns_gets _ s) ?_
  refine Outcome.wp_ite (fun hne => hfalse fun hc => hne hc.first) fun hfirst => ?_
  refine Outcome.wp_bind_returns (Outcome.returns_gets _ s) ?_
  rw [← hya]
  refine Outcome.wp_bind_returns hsize (Outcome.wp_bind_returns (Outcome.returns_gets _ s) ?_)
  rw [wrap_memoryOf]
  refine Outcome.wp_ite (fun hne => hfalse fun hc => hne (by simpa using hc.heapEnd)) fun hend => ?_
  refine Outcome.wp_bind_returns (checkNext_returns hx (by omega)) ?_
  by_cases hadj : Adjacent xs
  · simp only [if_pos hadj]
    refine Outcome.wp_ite (fun hne => hfalse fun hc => hne (hc.last.trans hya.symm)) fun hlast => ?_
    rw [not_not] at hfirst hend hlast
    rw [← hya, ← hlast] at hy
    refine Outcome.wp_bind_returns (followLast_returns hy (by omega)) ?_
    refine Outcome.wp_of_returns (Outcome.returns_pure _ s) ⟨rfl, ?_⟩
    rw [decide_eq_true_iff]
    exact ⟨fun h => ⟨hfirst, by simpa using hend, hadj, hlast.trans hya, h⟩, fun h => h.back⟩
  · simp only [if_neg hadj]
    exact hfalse fun hc => hadj hc.adjacent

/-! ## The layout -/

/-- The entries fill the heap from `kernel_heap_start` to `kernel_heap_end`, and the links and
`last_heap_entry` say so. -/
structure Consistent (L : Layout) (s : Kernel) (xs : List Entry) : Prop where
  first : s.firstHeapEntry = L.kernelHeapStart
  tiles : Placed (· = ·) Entry.addr Entry.stop L.kernelHeapStart xs s.kernelHeapEnd
  back : xs.IsChain fun x y => y.last = x.addr
  none : ∀ x ∈ xs.head?, x.last = 0
  last : s.lastHeapEntry = lastOr Entry.addr 0 xs

/-- No entry ends behind the address space, and the `last` link of every entry leads to the one
before. -/
structure Unfooled (xs : List Entry) : Prop where
  noWrap : ∀ x ∈ xs, x.stop < 2 ^ 64
  back : xs.IsChain fun x y => y.last = x.addr

/-- The entry a walk ends at has no link. -/
theorem EntryChain.last (h : EntryChain s link a xs) : ∃ zs z, xs = zs ++ [z] ∧ ReadsEntry s z ∧ link z = 0 := by
  induction h with
  | @stop x hx h0 => exact ⟨[], x, rfl, hx, h0⟩
  | @step x xs hx hne hrest ih =>
    obtain ⟨zs, z, rfl, hz, h0⟩ := ih
    exact ⟨x :: zs, z, rfl, hz, h0⟩

/-- If `last_heap_entry` is the entry that the walk along the `next` links ends at, the other walk
starts there. -/
theorem head_of_last {zs : List Entry} {z : Entry} (hx : EntryChain s Entry.next s.firstHeapEntry (zs ++ [z]))
    (hy : EntryChain s Entry.last s.lastHeapEntry ys) (hlast : z.addr = s.lastHeapEntry) : ys.head? = some z := by
  obtain ⟨y, rest, rfl, hya, hread⟩ := hy.head
  rw [List.head?_cons, hread.det (hx.reads z (by simp)) (hya.trans hlast.symm)]

/-- The `last` links lead back along a list of entries, to where another walk starts. -/
theorem EntryChain.back {acc : List Entry} (h : EntryChain s Entry.last x.addr acc)
    (hreads : ∀ y ∈ xs, ReadsEntry s y) (hpos : ∀ y ∈ x :: xs, y.addr ≠ 0)
    (hback : (x :: xs).IsChain fun x y => y.last = x.addr) :
    EntryChain s Entry.last (lastOr Entry.addr x.addr xs) (xs.reverse ++ acc) := by
  induction xs generalizing x acc with
  | nil => exact h
  | cons y xs ih =>
    obtain ⟨hlink, hback⟩ := List.isChain_cons_cons.mp hback
    rw [List.forall_mem_cons] at hreads hpos
    rw [lastOr_cons, List.reverse_cons, List.append_assoc]
    refine ih (.step hreads.1 ?_ ?_) hreads.2 hpos.2 hback
    · rw [hlink]
      exact hpos.1
    · rwa [hlink]

/-- Entries without gaps end where the next ones start. -/
theorem tiles_isChain {lo hi : Nat} (h : Placed (· = ·) Entry.addr Entry.stop lo xs hi) :
    xs.IsChain fun x y => x.stop = y.addr := by
  induction xs generalizing lo with
  | nil => exact List.IsChain.nil
  | cons x xs ih =>
    cases xs with
    | nil => exact List.IsChain.singleton x
    | cons y xs => exact List.IsChain.cons_cons h.2.1 (ih h.2)

/-- Entries of which each starts where the one before ends. -/
theorem tiles_of_isChain {lo : Nat} (hlo : ∀ x ∈ xs.head?, lo = x.addr) (hne : xs ≠ [])
    (h : xs.IsChain fun x y => x.stop = y.addr) :
    Placed (· = ·) Entry.addr Entry.stop lo xs (lastOr Entry.stop lo xs) := by
  induction xs generalizing lo with
  | nil => exact absurd rfl hne
  | cons x xs ih =>
    refine ⟨hlo x rfl, ?_⟩
    cases xs with
    | nil => rfl
    | cons y xs =>
      obtain ⟨hxy, hrest⟩ := List.isChain_cons_cons.mp h
      exact ih (by simpa using hxy) (by simp) hrest

theorem EntryChain.addr_ne (hx : EntryChain s Entry.next a xs) (ha : a ≠ 0) : ∀ x ∈ xs, x.addr ≠ 0 := by
  induction hx with
  | stop _ _ =>
    intro y hy
    rwa [List.mem_singleton.mp hy]
  | step _ hne _ ih => exact List.forall_mem_cons.mpr ⟨ha, ih hne⟩

/-- Where no entry ends behind the address space, nothing is lost modulo `2 ^ 64`. -/
theorem adjacent_iff (h : ∀ x ∈ xs, x.stop < 2 ^ 64) : Adjacent xs ↔ xs.IsChain fun x y => x.stop = y.addr := by
  unfold Adjacent
  rw [List.isChain_iff_getElem, List.isChain_iff_getElem]
  refine forall_congr' fun i => forall_congr' fun hi => ?_
  rw [wrap_of_lt (h _ (List.getElem_mem _))]
  exact eq_comm

/-- A heap that is laid out passes. -/
theorem Consistent.compared (hx : EntryChain s Entry.next s.firstHeapEntry xs)
    (hy : EntryChain s Entry.last s.lastHeapEntry ys) (hend : s.kernelHeapEnd < 2 ^ 64)
    (h : Consistent L s xs) : Compared L s xs ys ∧ Unfooled xs := by
  have hnoWrap : ∀ x ∈ xs, x.stop < 2 ^ 64 := fun x hmem => by
    have hbound := (Placed.bounds (fun x _ => by simp only [Entry.stop]; omega)
      (h.tiles.imp fun _ _ => le_of_eq) hmem).2
    omega
  have hlower := L.lower
  have hbelow := L.buf_below
  have hpos := hx.addr_ne (by rw [h.first]; omega)
  obtain ⟨x, rest, rfl, hxa, hread⟩ := hx.head
  -- the walk along the `last` links is the other one reversed
  have hreverse : EntryChain s Entry.last (lastOr Entry.addr x.addr rest) (rest.reverse ++ [x]) :=
    EntryChain.back (.stop hread (h.none x rfl)) (fun y hmem => hx.reads y (List.mem_cons_of_mem _ hmem)) hpos h.back
  have hlast : s.lastHeapEntry = lastOr Entry.addr x.addr rest := h.last
  rw [hlast] at hy
  obtain rfl := hy.det hreverse
  refine ⟨⟨h.first.symm, fun y hmem => ?_, (adjacent_iff hnoWrap).mpr (tiles_isChain h.tiles), hlast.symm, ?_⟩,
    hnoWrap, h.back⟩
  · obtain ⟨zs, z, hzs, -, -⟩ := hx.last
    rw [← List.reverse_cons, hzs, List.reverse_append, List.reverse_singleton, List.singleton_append,
      List.head?_cons, Option.mem_some_iff] at hmem
    have htiles := h.tiles
    rw [hzs, Placed.append_cons_iff] at htiles
    rw [← hmem, wrap_of_lt (hnoWrap z (by rw [hzs]; simp))]
    exact htiles.2.symm
  · rw [lastOr_append]
    exact hxa

/-- A heap that passes is laid out, if the check is not fooled. -/
theorem Compared.consistent (hx : EntryChain s Entry.next s.firstHeapEntry xs)
    (hy : EntryChain s Entry.last s.lastHeapEntry ys) (h : Compared L s xs ys) (hu : Unfooled xs) :
    Consistent L s xs := by
  have hchain := (adjacent_iff hu.noWrap).mp h.adjacent
  obtain ⟨zs, z, rfl, -, -⟩ := hx.last
  have hz : z.addr = s.lastHeapEntry := by
    have := h.last
    rwa [lastOr_append] at this
  have hend : s.kernelHeapEnd = z.stop := by
    rw [h.heapEnd z (by rw [head_of_last hx hy hz]; rfl), wrap_of_lt (hu.noWrap z (by simp))]
  obtain ⟨x, rest, heq, hxa, hread⟩ := hx.head
  rw [heq] at hchain ⊢
  refine ⟨h.first.symm, ?_, ?_, fun y hmem => ?_, ?_⟩
  · have htiles := tiles_of_isChain (fun y hmem => (?_ : L.kernelHeapStart = y.addr)) (by simp) hchain
    · rw [← heq, lastOr_append, lastOr_cons, lastOr_nil, ← hend] at htiles
      rwa [← heq]
    · rw [List.head?_cons, Option.mem_some_iff] at hmem
      rw [← hmem, hxa, h.first]
  · rw [← heq]
    exact hu.back
  · -- the walk back ends at the first entry
    rw [List.head?_cons, Option.mem_some_iff] at hmem
    obtain ⟨ws, w, rfl, hw, h0⟩ := hy.last
    have hback := h.back
    rw [lastOr_append, lastOr_cons, lastOr_nil] at hback
    rw [← hmem, hread.det hw (hxa.trans hback.symm)]
    exact h0
  · rw [← heq]
    exact h.last.symm

/-! ## The heap of the allocator -/

section Filled

variable {H : Nat → Node Tag} {b : Block} {bs : List Block} {last lo hi : Nat}

/-- The words of the entries that memory holds for a list of blocks. -/
def entriesOf (H : Nat → Node Tag) (bs : List Block) : List Entry :=
  bs.map fun b => ⟨b.addr, b.size, (H b.addr).last, (H b.addr).next⟩

theorem readsEntry_of_reads {n : Node Tag} (h : Reads s b.addr (H b.addr)) (hn : H b.addr = n)
    (hsize : n.val.size = b.size) : ReadsEntry s ⟨b.addr, b.size, (H b.addr).last, (H b.addr).next⟩ := by
  refine ⟨?_, h.last, h.next⟩
  have hread := h.size
  rwa [hn, hsize] at hread

/-- The walk along the `next` links. -/
theorem entryChain_next (hlinks : Links H last (b :: bs)) (hreads : ∀ d ∈ b :: bs, d.addr ≠ 0 ∧ Reads s d.addr (H d.addr)) :
    EntryChain s Entry.next b.addr (entriesOf H (b :: bs)) := by
  induction bs generalizing b last with
  | nil =>
    obtain ⟨hnode, -⟩ := hlinks
    have hread := readsEntry_of_reads (hreads b (by simp)).2 hnode rfl
    exact EntryChain.stop hread (by simp [hnode])
  | cons c bs ih =>
    obtain ⟨hnode, hrest⟩ := hlinks
    have hread := readsEntry_of_reads (hreads b (by simp)).2 hnode rfl
    have hnext : (H b.addr).next = c.addr := by simp [hnode]
    refine EntryChain.step hread ?_ ?_
    · show (H b.addr).next ≠ 0
      rw [hnext]
      exact (hreads c (by simp)).1
    · show EntryChain s Entry.next (H b.addr).next _
      rw [hnext]
      exact ih hrest fun d hd => hreads d (List.mem_cons_of_mem _ hd)

/-- The `last` link of every entry leads to the one before. -/
theorem entriesOf_back (hlinks : Links H last bs) : (entriesOf H bs).IsChain fun x y => y.last = x.addr := by
  induction bs generalizing last with
  | nil => exact List.IsChain.nil
  | cons b bs ih =>
    cases bs with
    | nil => exact List.IsChain.singleton _
    | cons c bs =>
      refine List.IsChain.cons_cons ?_ (ih hlinks.2)
      simp [hlinks.2.1]

theorem entriesOf_tiles (h : Tiles lo bs hi) : Placed (· = ·) Entry.addr Entry.stop lo (entriesOf H bs) hi := by
  induction bs generalizing lo with
  | nil => exact h
  | cons b bs ih =>
    refine ⟨h.1, ?_⟩
    have hstop : Entry.stop ⟨b.addr, b.size, (H b.addr).last, (H b.addr).next⟩ = b.stop := by
      simp [Entry.stop, Block.stop]
    show Placed (· = ·) Entry.addr Entry.stop (Entry.stop ⟨b.addr, b.size, (H b.addr).last, (H b.addr).next⟩) _ hi
    rw [hstop]
    exact ih h.2

theorem entriesOf_lastOr (z : Nat) : lastOr Entry.addr z (entriesOf H bs) = lastOr Block.addr z bs := by
  induction bs generalizing z with
  | nil => rfl
  | cons b bs ih => exact ih _

/-- Both walks go through the entries of a heap that they fill. -/
theorem Filled.walks (h : Filled L bs s) (hne : bs ≠ []) : ∃ xs ys, EntryChain s Entry.next s.firstHeapEntry xs ∧
    EntryChain s Entry.last s.lastHeapEntry ys ∧ Consistent L s xs ∧ xs.length = bs.length ∧ ys.length = bs.length := by
  obtain ⟨⟨⟨H, hlinks, hreads⟩, hfirst, hlast⟩, htiles⟩ := h
  obtain ⟨b, bs, rfl⟩ := List.exists_cons_of_ne_nil hne
  have hstart : L.kernelHeapStart = b.addr := htiles.1
  have hx : EntryChain s Entry.next s.firstHeapEntry (entriesOf H (b :: bs)) := by
    rw [hfirst]
    exact entryChain_next hlinks hreads
  have hback := entriesOf_back hlinks
  have hzero : (H b.addr).last = 0 := by simp [hlinks.1]
  have hconsistent : Consistent L s (entriesOf H (b :: bs)) := by
    refine ⟨?_, entriesOf_tiles htiles, hback, ?_, ?_⟩
    · rw [hfirst, hstart]
      rfl
    · intro x hx
      obtain rfl := Option.some.inj hx
      exact hzero
    · rw [hlast, entriesOf_lastOr]
  -- the other walk goes back along the same entries
  have hy : EntryChain s Entry.last s.lastHeapEntry ((entriesOf H bs).reverse ++
      [⟨b.addr, b.size, (H b.addr).last, (H b.addr).next⟩]) := by
    have hlastEntry : s.lastHeapEntry = lastOr Entry.addr b.addr (entriesOf H bs) := by
      rw [hlast, entriesOf_lastOr]
      rfl
    rw [hlastEntry]
    have hread := readsEntry_of_reads (hreads b (by simp)).2 hlinks.1 rfl
    have hpos : ∀ y ∈ entriesOf H (b :: bs), y.addr ≠ 0 := by
      intro y hy
      obtain ⟨c, hc, rfl⟩ := List.mem_map.mp hy
      exact (hreads c hc).1
    have hrest : ∀ y ∈ entriesOf H bs, ReadsEntry s y := fun y hy => hx.reads y (List.mem_cons_of_mem _ hy)
    exact EntryChain.back (.stop hread hzero) hrest hpos hback
  exact ⟨_, _, hx, hy, hconsistent, by simp [entriesOf], by simp [entriesOf]⟩

/-- **No false alarm.** `heap_consistency_check` returns true for every heap that its entries fill. -/
theorem heapConsistencyCheck_filled (h : Filled L bs s) (hne : bs ≠ []) (hend : s.kernelHeapEnd < 2 ^ 64)
    (hfuel : 2 * bs.length ≤ fuel) : (heapConsistencyCheck L fuel).Returns s true s := by
  obtain ⟨xs, ys, hx, hy, hconsistent, hxs, hys⟩ := h.walks hne
  obtain ⟨r, t, hret, rfl, hr⟩ := Outcome.returns_of_wp (E := fun _ => False)
    (heapConsistencyCheck_wp (L := L) hx hy (show _ ≤ fuel by omega)) fun _ _ _ hf => hf
  obtain rfl := hr.mpr (hconsistent.compared hx hy hend).1
  exact hret

end Filled

/-! ## The main result -/

/-- **When `heap_consistency_check` is right.** It returns, and it returns true exactly for a heap
that is laid out, if and only if its comparisons fail or it is not fooled. -/
theorem heapConsistencyCheck_iff (L : Layout) (hx : EntryChain s Entry.next s.firstHeapEntry xs)
    (hy : EntryChain s Entry.last s.lastHeapEntry ys) (hend : s.kernelHeapEnd < 2 ^ 64) :
    (∃ r, (∃ fuel₀, ∀ fuel ≥ fuel₀, (heapConsistencyCheck L fuel).Returns s r s) ∧
      (r = true ↔ Consistent L s xs)) ↔ (Compared L s xs ys → Unfooled xs) := by
  have hwp : ∀ fuel ≥ xs.length + ys.length, ∃ r t, (heapConsistencyCheck L fuel).Returns s r t ∧
      t = s ∧ (r = true ↔ Compared L s xs ys) := fun fuel hfuel =>
    Outcome.returns_of_wp (E := fun _ => False) (heapConsistencyCheck_wp hx hy hfuel) fun _ _ _ => not_false
  constructor
  · rintro ⟨r, ⟨fuel₀, hret⟩, hr⟩ hc
    obtain ⟨r', t, hret', rfl, hr'⟩ := hwp (max fuel₀ (xs.length + ys.length)) (le_max_right _ _)
    obtain ⟨rfl, -⟩ := (hret _ (le_max_left _ _)).det hret'
    exact ((hr.mp (hr'.mpr hc)).compared hx hy hend).2
  · intro hu
    obtain ⟨r, t, hret, rfl, hr⟩ := hwp _ le_rfl
    refine ⟨r, ⟨xs.length + ys.length, fun fuel hfuel => ?_⟩, fun h => ?_, fun h => hr.mpr (h.compared hx hy hend).1⟩
    · obtain ⟨r', t', hret', rfl, hr'⟩ := hwp fuel hfuel
      have hsame : r' = r := Bool.eq_iff_iff.mpr (hr'.trans hr.symm)
      rwa [hsame] at hret'
    · exact (hr.mp h).consistent hx hy (hu (hr.mp h))

/-! ### Two heaps -/

/-- A heap with three entries passes. -/
theorem heapConsistencyCheck_iff_firstHeap : ∃ s xs r, xs.length = 3 ∧
    EntryChain s Entry.next s.firstHeapEntry xs ∧ Consistent exampleLayout s xs ∧
    (∃ fuel₀, ∀ fuel ≥ fuel₀, (heapConsistencyCheck exampleLayout fuel).Returns s r s) ∧
    (r = true ↔ Consistent exampleLayout s xs) := by
  obtain ⟨s, -, hlaid⟩ := firstHeap_takenTwice
  obtain ⟨xs, ys, hx, hy, hconsistent, hlength, -⟩ := hlaid.filled.walks (by simp)
  have hend : s.kernelHeapEnd < 2 ^ 64 := by
    obtain ⟨-, -, -, hend⟩ := hlaid.1
    replace hend : 0xFFFFFF0001002000 = s.kernelHeapEnd := hend
    rw [← hend]
    decide
  obtain ⟨r, hret, hr⟩ := (heapConsistencyCheck_iff exampleLayout hx hy hend).mpr
    fun _ => (hconsistent.compared hx hy hend).2
  exact ⟨s, xs, r, hlength, hx, hconsistent, hret, hr⟩

theorem DataStep.firstHeapEntry {s' : Kernel} (h : DataStep s s') : s'.firstHeapEntry = s.firstHeapEntry := by
  rw [h.same]

theorem DataStep.kernelHeapEnd {s' : Kernel} (h : DataStep s s') : s'.kernelHeapEnd = s.kernelHeapEnd := by
  rw [h.same]

/-- Three entries in the first page of the heap, of which the third has the first as its `last`. -/
def skippingEntries : KernelM Unit := do
  writeEntry 0xFFFFFF0001001000 224 true 0 0xFFFFFF0001001100
  writeEntry 0xFFFFFF0001001100 224 true 0xFFFFFF0001001000 0xFFFFFF0001001200
  writeEntry 0xFFFFFF0001001200 3552 false 0xFFFFFF0001001000 0
  setLastHeapEntry 0xFFFFFF0001001200

@[irreducible] def skippingHeap : Kernel := skippingEntries.after firstHeap

/-- The words of the three entries. -/
def skipping : List Entry :=
  [⟨0xFFFFFF0001001000, 224, 0, 0xFFFFFF0001001100⟩,
    ⟨0xFFFFFF0001001100, 224, 0xFFFFFF0001001000, 0xFFFFFF0001001200⟩,
    ⟨0xFFFFFF0001001200, 3552, 0xFFFFFF0001001000, 0⟩]

theorem skippingHeap_reads : (∀ x ∈ skipping, ReadsEntry skippingHeap x) ∧
    skippingHeap.firstHeapEntry = 0xFFFFFF0001001000 ∧ skippingHeap.lastHeapEntry = 0xFFFFFF0001001200 ∧
    skippingHeap.kernelHeapEnd = 0xFFFFFF0001002000 := by
  obtain ⟨-, ⟨htiles, F, V, hstate⟩, -⟩ := firstHeap_laidOut
  have hend : firstHeap.kernelHeapEnd = 0xFFFFFF0001002000 := htiles.2.symm
  have hfirst : firstHeap.firstHeapEntry = 0xFFFFFF0001001000 := hstate.first
  have hroom : Room exampleLayout firstHeap.kernelHeapEnd (fun _ => False) (skipping.map Entry.addr) := by
    rw [hend]
    exact ⟨by decide, by decide, by decide, by decide, fun _ _ _ h => h.elim⟩
  have hheld : Held exampleLayout firstHeap.kernelHeapEnd F (fun _ => False) V firstHeap (skipping.map Entry.addr)
      (header V) firstHeap.lastHeapEntry firstHeap :=
    ⟨hroom, ⟨V, hstate.pages, fun _ _ => rfl, fun _ _ => rfl⟩, rfl, DataStep.refl _⟩
  have hwp : Outcome.wp (fun _ => False) skippingEntries (fun _ t => ∃ H, Held exampleLayout firstHeap.kernelHeapEnd F
      (fun _ => False) V firstHeap (skipping.map Entry.addr) H 0xFFFFFF0001001200 t ∧
      ∀ x ∈ skipping, (H x.addr).val.size = x.size ∧ (H x.addr).last = x.last ∧ (H x.addr).next = x.next) firstHeap := by
    refine Outcome.wp_bind (Outcome.wp_mono (hheld.writeEntry (by decide) (by decide) (by decide) (by decide))
      fun _ s₁ h₁ => ?_)
    refine Outcome.wp_bind (Outcome.wp_mono (h₁.writeEntry (by decide) (by decide) (by decide) (by decide))
      fun _ s₂ h₂ => ?_)
    refine Outcome.wp_bind (Outcome.wp_mono (h₂.writeEntry (by decide) (by decide) (by decide) (by decide))
      fun _ s₃ h₃ => ?_)
    refine Outcome.wp_mono (h₃.setLastHeapEntry 0xFFFFFF0001001200) fun _ t ht => ⟨_, ht, ?_⟩
    simp [skipping, Function.update_apply]
  obtain ⟨_, t, hret, H, ht, hwords⟩ := Outcome.returns_of_wp hwp fun _ _ _ => not_false
  have heq : skippingHeap = t := by
    unfold skippingHeap
    exact hret.after_eq
  rw [heq]
  refine ⟨fun x hmem => ?_, ?_, ht.lastEntry, ?_⟩
  · obtain ⟨hsize, hlast, hnext⟩ := hwords x hmem
    have ha : x.addr ∈ skipping.map Entry.addr := List.mem_map_of_mem hmem
    refine ⟨?_, ?_, ?_⟩
    · rw [← hsize]
      exact ht.entrySize ha
    · rw [← hlast]
      exact ht.entryLast ha
    · rw [← hnext]
      exact ht.entryNext ha
  · exact ht.step.firstHeapEntry.trans hfirst
  · exact ht.step.kernelHeapEnd.trans hend

/-- The check returns true for a heap with a wrong `last` link. -/
theorem heapConsistencyCheck_fooled :
    EntryChain skippingHeap Entry.next skippingHeap.firstHeapEntry skipping ∧
      (∃ ys, EntryChain skippingHeap Entry.last skippingHeap.lastHeapEntry ys) ∧
      (heapConsistencyCheck exampleLayout 5).Returns skippingHeap true skippingHeap ∧
      ¬Consistent exampleLayout skippingHeap skipping := by
  obtain ⟨hreads, hfirst, hlast, hend⟩ := skippingHeap_reads
  simp only [skipping, List.forall_mem_cons, List.not_mem_nil, IsEmpty.forall_iff, implies_true, and_true] at hreads
  obtain ⟨h₁, h₂, h₃⟩ := hreads
  have hx : EntryChain skippingHeap Entry.next skippingHeap.firstHeapEntry skipping := by
    rw [hfirst]
    exact .step h₁ (by decide) (.step h₂ (by decide) (.stop h₃ rfl))
  have hy : EntryChain skippingHeap Entry.last skippingHeap.lastHeapEntry
      [⟨0xFFFFFF0001001200, 3552, 0xFFFFFF0001001000, 0⟩, ⟨0xFFFFFF0001001000, 224, 0, 0xFFFFFF0001001100⟩] := by
    rw [hlast]
    exact .step h₃ (by decide) (.stop h₁ rfl)
  have hcompared : Compared exampleLayout skippingHeap skipping
      [⟨0xFFFFFF0001001200, 3552, 0xFFFFFF0001001000, 0⟩, ⟨0xFFFFFF0001001000, 224, 0, 0xFFFFFF0001001100⟩] := by
    refine ⟨hfirst.symm, ?_, by decide, hlast.symm, hfirst.symm⟩
    rw [hend]
    decide
  obtain ⟨r, t, hret, rfl, hr⟩ := Outcome.returns_of_wp (E := fun _ => False)
    (heapConsistencyCheck_wp (L := exampleLayout) hx hy (show _ ≤ 5 by decide)) fun _ _ _ => not_false
  obtain rfl := hr.mpr hcompared
  exact ⟨hx, ⟨_, hy⟩, hret, fun hc => absurd hc.back (by decide)⟩

end KoalemOS.Heap
