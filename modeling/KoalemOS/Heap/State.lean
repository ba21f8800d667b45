import KoalemOS.Heap.Frames
import KoalemOS.Heap.Merging

/-!
# The state of the heap between calls

`HeapState L F V bs s`: the blocks `bs` are the entries of the heap, in order and without
overlap; the heap ends at `kernel_heap_end`, its pages are mapped to the frames `F` and hold
the bytes `V`, and the free frames are free.
-/

namespace KoalemOS.Heap

open KoalemOS.Library KoalemOS.Library.LinkedList KoalemOS.Mmap KoalemOS.Paging

variable {L : Layout} {e e' : Nat} {F : Nat → Nat} {K : Nat → Prop} {V V₀ : Mem} {s₀ s s' : Kernel}
  {b c : Block} {bs xs ys : List Block} {E : Stop → Prop}

/-- The last of `bs` leaves room for the header of a further entry. -/
def RoomAtEnd (bs : List Block) : Prop := ∀ b ∈ bs.getLast?, 32 ≤ b.size

theorem roomAtEnd_append (h : ys ≠ []) : RoomAtEnd (xs ++ ys) ↔ RoomAtEnd ys := by
  unfold RoomAtEnd
  rw [List.getLast?_append_of_ne_nil _ h]

@[simp] theorem roomAtEnd_singleton : RoomAtEnd [b] ↔ 32 ≤ b.size := by
  simp [RoomAtEnd]

theorem Taken.roomAtEnd {bs' : List Block} {size : Nat} (h : Taken size bs b bs') (hroom : RoomAtEnd bs) :
    RoomAtEnd bs' := by
  cases h with
  | @mk xs ys b hfits hfirst =>
    by_cases hys : ys = []
    · subst hys
      rw [roomAtEnd_append (by simp), roomAtEnd_singleton] at hroom
      rcases Block.cut_cases ⟨b.addr, b.size, true⟩ size with hcut | ⟨hlt, hcut⟩
      · rw [hcut, List.append_nil, roomAtEnd_append (by simp), roomAtEnd_singleton]
        exact hroom
      · rw [hcut, List.append_nil, roomAtEnd_append (by simp)]
        simp only [RoomAtEnd, List.getLast?_cons_cons, List.getLast?_singleton, Option.mem_def,
          Option.some.injEq, forall_eq']
        simp only at hlt
        omega
    · rw [← List.append_assoc, roomAtEnd_append hys]
      rwa [← List.singleton_append, ← List.append_assoc, roomAtEnd_append hys] at hroom

/-- The entries of the heap are `bs`. Behind the heap there is a page table, unless the last
entry is large enough. -/
structure HeapState (L : Layout) (F : Nat → Nat) (V : Mem) (bs : List Block) (s : Kernel) : Prop where
  pages : Pages L s.kernelHeapEnd F V s
  owned : Owned L s.kernelHeapEnd F s
  links : Links (header V) 0 bs
  first : s.firstHeapEntry = headOr Block.addr 0 bs
  last : s.lastHeapEntry = lastOr Block.addr 0 bs
  arena : Arena L.kernelHeapStart bs s.kernelHeapEnd
  aligned : Aligned bs
  nonempty : bs ≠ []
  limit : s.kernelHeapEnd ≤ L.kernelHeapStart + kernelHeapMaxSize
  tail : RoomAtEnd bs ∨ ∃ n, ptAt s.mem s.cr3 s.kernelHeapEnd = some n

theorem HeapState.slot_end (h : HeapState L F V bs s) : index s.kernelHeapEnd 39 ≠ 511 := by
  have hstart := h.pages.start_le
  have hupper := L.upper
  have hlimit := h.limit
  have hbuf := buf_le_start L
  rw [(slot_of_lt (L := L) (v := s.kernelHeapEnd) (by omega) (by omega)).1]
  decide

theorem HeapState.stop_lt (h : HeapState L F V bs s) (hb : b ∈ bs) : b.stop < 2 ^ 64 := by
  have hstop := (h.arena.bounds hb).2
  have hend := h.pages.end_le
  omega

/-- The bytes that belong to the owners of used blocks. -/
def InUse (bs : List Block) (v : Nat) : Prop := ∃ b ∈ bs, b.used = true ∧ b.Owns v

/-! ## Addresses -/

/-- `x` rounded up to a page. -/
def pageUp (x : Nat) : Nat := (x + 4095) / 4096 * 4096

/-- `x` rounded up to a unit of allocation. -/
def unitUp (x : Nat) : Nat := (x + 15) / 16 * 16

theorem alignUp_two_pow {x k : Nat} (hx : 0 < x) (hk : k ≤ 63) (hlt : x + 2 ^ k ≤ 2 ^ 64) :
    alignUp x (2 ^ k) = (x + (2 ^ k - 1)) / 2 ^ k * 2 ^ k := by
  have hpow : 0 < 2 ^ k := Nat.two_pow_pos k
  have hdiv : (x + (2 ^ k - 1)) / 2 ^ k = (x - 1) / 2 ^ k + 1 := by
    rw [show x + (2 ^ k - 1) = x - 1 + 2 ^ k by omega, Nat.add_div_right _ hpow]
  have hle : (x - 1) / 2 ^ k * 2 ^ k ≤ x - 1 := Nat.div_mul_le_self _ _
  unfold alignUp
  rw [sub64_of_le (show 1 ≤ x from hx) (by omega), alignDown_two_pow (by omega) (by omega), hdiv, Nat.add_mul, Nat.one_mul,
    wrap_of_lt (by omega)]

theorem alignUp_page {x : Nat} (hx : 0 < x) (hlt : x + 4096 ≤ 2 ^ 64) : alignUp x 0x1000 = pageUp x :=
  alignUp_two_pow (k := 12) hx (by decide) hlt

theorem alignUp_unit {x : Nat} (hlt : x + 16 ≤ 2 ^ 64) : alignUp x alignofMaxAlign = unitUp x := by
  by_cases hx : x = 0
  · subst hx
    decide
  · exact alignUp_two_pow (k := 4) (by omega) (by decide) hlt

theorem pageUp_mod (x : Nat) : pageUp x % 4096 = 0 := by
  unfold pageUp
  omega

theorem unitUp_mod (x : Nat) : unitUp x % 16 = 0 := by
  unfold unitUp
  omega

/-! ## From a state to its list and back -/

/-- What is kept is off the headers when it belongs to blocks. -/
theorem clear_of_owned (harena : Arena L.kernelHeapStart bs e) (hK : ∀ v, K v → ∃ b ∈ bs, b.Owns v) :
    Clear K bs := by
  intro c hc v hv
  obtain ⟨b, hb, h₁, h₂⟩ := hK v hv
  by_cases heq : b = c
  · subst heq
    exact .inr h₁
  · have hapart := harena.apart hb hc heq
    simp only [Block.memory, Block.stop] at h₁ h₂ hapart ⊢
    omega

theorem HeapState.listed (h : HeapState L F V bs s) (hK : ∀ v, K v → ∃ b ∈ bs, b.Owns v) :
    Listed L s.kernelHeapEnd F K V s bs s := by
  refine ⟨⟨header V, ⟨Room.of_spaced h.arena.spaced h.aligned (clear_of_owned h.arena hK),
    ⟨V, h.pages, fun _ _ => rfl, fun _ _ => rfl⟩, h.last, DataStep.refl s⟩, h.links⟩, h.arena.spaced⟩

/-- A list is one of any state with the same memory. -/
theorem Listed.of_eq (h : Listed L e F K V₀ s₀ bs s) (hmem : s'.mem = s.mem) (hcr3 : s'.cr3 = s.cr3)
    (hlast : s'.lastHeapEntry = s.lastHeapEntry) : Listed L e F K V₀ s' bs s' := by
  obtain ⟨⟨H, ⟨hroom, ⟨V, hpages, hheaders, hkept⟩, hz, -⟩, hlinks⟩, hspaced⟩ := h
  exact ⟨⟨H, ⟨hroom, ⟨V, hpages.of_mem_eq hmem hcr3, hheaders, hkept⟩, hlast.trans hz, DataStep.refl s'⟩,
    hlinks⟩, hspaced⟩

/-- The bytes of the heap that hold a list. -/
theorem Listed.bytes (h : Listed L e F K V₀ s₀ bs s) : ∃ V, Pages L e F V s ∧ Links (header V) 0 bs ∧
    ∀ v, K v → V v = V₀ v := by
  obtain ⟨⟨H, hheld, hlinks⟩, -⟩ := h
  obtain ⟨V, hpages, hheaders, hkept⟩ := hheld.bytes
  exact ⟨V, hpages, hlinks.congr fun b hb => hheaders b.addr (List.mem_map_of_mem hb), hkept⟩

theorem Listed.last (h : Listed L e F K V₀ s₀ bs s) : s.lastHeapEntry = lastOr Block.addr 0 bs := by
  obtain ⟨⟨H, hheld, -⟩, -⟩ := h
  exact hheld.lastEntry

theorem Listed.step (h : Listed L e F K V₀ s₀ bs s) : DataStep s₀ s := by
  obtain ⟨⟨H, hheld, -⟩, -⟩ := h
  exact hheld.step

/-- A list of blocks that do not overlap is a heap. -/
theorem HeapState.of_listed (h : Listed L s'.kernelHeapEnd F K V₀ s₀ bs s')
    (howned : Owned L s'.kernelHeapEnd F s') (hfirst : s'.firstHeapEntry = headOr Block.addr 0 bs)
    (harena : Arena L.kernelHeapStart bs s'.kernelHeapEnd) (hne : bs ≠ [])
    (hlimit : s'.kernelHeapEnd ≤ L.kernelHeapStart + kernelHeapMaxSize)
    (htail : RoomAtEnd bs ∨ ∃ n, ptAt s'.mem s'.cr3 s'.kernelHeapEnd = some n) :
    ∃ V, HeapState L F V bs s' ∧ ∀ v, K v → V v = V₀ v := by
  obtain ⟨V, hpages, hlinks, hkept⟩ := h.bytes
  exact ⟨V, ⟨hpages, howned, hlinks, hfirst, h.last, harena, h.aligned, hne, hlimit, htail⟩, hkept⟩

/-- Page tables stay while only the heap is written. -/
theorem DataStep.ptAt_some (h : DataStep s s') {v n : Nat} (hv : index v 39 ≠ 511)
    (hn : ptAt s.mem s.cr3 v = some n) : ptAt s'.mem s'.cr3 v = some n :=
  (h.tableAt (UpperOf.pd.mem hv).2).trans hn

end KoalemOS.Heap
