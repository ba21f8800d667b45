import KoalemOS.Heap.Kfree
import KoalemOS.Heap.Layout

/-!
# The entries that memory holds

`Entries s bs`: what a walk along the list reads in the state `s` are the blocks `bs`; there is
at most one such list (`Entries.unique`). `Filled L bs s` says that the entries also fill the
heap, whatever else has become of its pages.
-/

namespace KoalemOS.Heap

open KoalemOS.Library KoalemOS.Library.LinkedList KoalemOS.Mmap KoalemOS.Paging

variable {L : Layout} {e : Nat} {F : Nat → Nat} {K : Nat → Prop} {V V₀ : Mem} {s₀ s s' : Kernel} {b c : Block}
  {bs bs' : List Block}

/-- The fields of the entry at `a` are read as those of `n`. -/
structure Reads (s : Kernel) (a : Nat) (n : Node Tag) : Prop where
  size : (entrySize a).Returns s n.val.size s
  used : (entryUsed a).Returns s n.val.used s
  last : (entryLast a).Returns s n.last s
  next : (entryNext a).Returns s n.next s

theorem Reads.unique {a : Nat} {n m : Node Tag} (h : Reads s a n) (h' : Reads s a m) : n = m := by
  obtain ⟨⟨x, u⟩, l, k⟩ := n
  obtain ⟨⟨x', u'⟩, l', k'⟩ := m
  obtain ⟨rfl, -⟩ := h.size.det h'.size
  obtain ⟨rfl, -⟩ := h.used.det h'.used
  obtain ⟨rfl, -⟩ := h.last.det h'.last
  obtain ⟨rfl, -⟩ := h.next.det h'.next
  rfl

/-- The entries of the list are `bs`, linked in both directions. -/
structure Entries (s : Kernel) (bs : List Block) : Prop where
  read : ∃ H, Links H 0 bs ∧ ∀ b ∈ bs, b.addr ≠ 0 ∧ Reads s b.addr (H b.addr)
  first : s.firstHeapEntry = headOr Block.addr 0 bs
  last : s.lastHeapEntry = lastOr Block.addr 0 bs

/-- There is one list. -/
theorem Entries.unique (h : Entries s bs) (h' : Entries s bs') : bs = bs' := by
  classical
  obtain ⟨H, hlinks, hread⟩ := h.read
  obtain ⟨H', hlinks', hread'⟩ := h'.read
  have hsame : ∀ c ∈ bs', (if c.addr ∈ addrs bs then H c.addr else H' c.addr) = H' c.addr := by
    intro c hc
    split_ifs with hmem
    · obtain ⟨b, hb, heq⟩ := List.mem_map.mp hmem
      have hb' := (hread b hb).2
      rw [heq] at hb'
      exact hb'.unique (hread' c hc).2
    · rfl
  have hl : Links (fun a => if a ∈ addrs bs then H a else H' a) 0 bs :=
    hlinks.congr fun b hb => if_pos (List.mem_map_of_mem hb)
  have hl' : Links (fun a => if a ∈ addrs bs then H a else H' a) 0 bs' := hlinks'.congr hsame
  refine Chain.unique Block.eq_of_addr_tag hl hl' (fun b hb => (hread b hb).1) (fun c hc => (hread' c hc).1) ?_
  rw [← h.first, ← h'.first]

/-- The entries fill the heap. -/
def Filled (L : Layout) (bs : List Block) (s : Kernel) : Prop :=
  Entries s bs ∧ Tiles L.kernelHeapStart bs s.kernelHeapEnd

/-- A list in memory is read as it is. -/
theorem Listed.entries (h : Listed L e F K V₀ s₀ bs s) (hfirst : s.firstHeapEntry = headOr Block.addr 0 bs) :
    Entries s bs := by
  have hlast := h.last
  obtain ⟨H, hheld, hlinks⟩ := h.held
  refine ⟨⟨H, hlinks, fun b hb => ?_⟩, hfirst, hlast⟩
  have hmem : b.addr ∈ addrs bs := List.mem_map_of_mem hb
  exact ⟨hheld.ne_zero hmem, hheld.entrySize hmem, hheld.entryUsed hmem, hheld.entryLast hmem, hheld.entryNext hmem⟩

theorem HeapState.entries (h : HeapState L F V bs s) : Entries s bs := by
  have hlisted : Listed L s.kernelHeapEnd F (fun _ => False) V s bs s := h.listed fun v hv => hv.elim
  exact hlisted.entries h.first

theorem LaidOut.filled (h : LaidOut L bs s) : Filled L bs s := by
  obtain ⟨htiles, F, V, hstate⟩ := h
  exact ⟨hstate.entries, htiles⟩

end KoalemOS.Heap
