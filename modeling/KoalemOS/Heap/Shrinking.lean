import KoalemOS.Heap.Resizing
import KoalemOS.Heap.Trimming

/-!
# `krealloc` on a heap

`krealloc` resizes a block in its place, or copies it to another one (`HeapState.krealloc`). A
block that is made smaller keeps its recorded size when the entry behind it is free, although
the header of that entry is moved into it; otherwise the blocks fill the heap again
(`krealloc_shrinks_iff`).
-/

namespace KoalemOS.Heap

open KoalemOS.Library KoalemOS.Library.LinkedList KoalemOS.Mmap KoalemOS.Paging

variable {L : Layout} {e : Nat} {F : Nat → Nat} {K : Nat → Prop} {V V₀ : Mem} {s₀ s s' : Kernel} {b c d : Block}
  {bs bs' xs ys : List Block} {size : Nat} {E : Stop → Prop}

/-! ## In its place -/

/-- The bytes a `krealloc` of `b` keeps: those of the owners of other blocks, and those of `b` up
to the smaller of its two sizes. -/
def Kept (size : Nat) (bs : List Block) (b : Block) (v : Nat) : Prop :=
  OthersUse bs b v ∨ b.memory ≤ v ∧ v < b.memory + min b.size size

theorem kept_owned {v : Nat} (hb : b ∈ bs) (h : Kept size bs b v) : ∃ d ∈ bs, d.Owns v := by
  rcases h with ⟨d, hd, -, -, howns⟩ | ⟨h₁, h₂⟩
  · exact ⟨d, hd, howns⟩
  · refine ⟨b, hb, h₁, ?_⟩
    simp only [Block.memory, Block.stop] at h₂ ⊢
    omega

/-- The bytes that are kept lie before the part of the block that is given up, or behind it. -/
theorem kept_outside {v : Nat} (harena : Arena L.kernelHeapStart (xs ++ b :: ys) e)
    (h : Kept size (xs ++ b :: ys) b v) : v < b.memory + min b.size size ∨ ∃ d ∈ ys, d.used = true ∧ d.Owns v := by
  rcases h with ⟨d, hd, hne, hused, howns⟩ | ⟨-, hlt⟩
  · obtain ⟨hxs, -⟩ := harena.around
    simp only [List.mem_append, List.mem_cons] at hd
    rcases hd with hd | rfl | hd
    · have hstop := hxs d hd
      have hv := howns.2
      simp only [Block.memory]
      exact .inl (by omega)
    · exact absurd rfl hne
    · exact .inr ⟨d, hd, hused, howns⟩
  · exact .inl hlt

theorem Arena.headOr_le (h : Arena L.kernelHeapStart (xs ++ b :: ys) e) (hd : d ∈ ys) :
    headOr Block.addr e ys ≤ d.addr := by
  have hys := (Placed.append_cons_iff.mp h).2
  exact (Arena.bounds (hys.restart le_rfl) hd).1

/-- The entry behind a pointer. -/
theorem HeapState.entry_eq (h : HeapState L F V bs s) (hb : b ∈ bs) : sub64 b.memory sizeofHeapEntry = b.addr := by
  have hlt := h.stop_lt hb
  simp only [Block.memory, Block.stop, sizeofHeapEntry] at hlt ⊢
  rw [sub64_of_le (by omega) (by omega)]
  omega

/-- `kreallocInPlace` on a heap. -/
theorem HeapState.kreallocInPlace (h : HeapState L F V (xs ++ b :: ys) s) (hsize : size % 16 = 0) :
    Outcome.wp E (kreallocInPlace b.addr size) (fun done s' =>
      (done = true ∧ ∃ out, Resized size b ys out ∧
        Listed L s.kernelHeapEnd F (Kept size (xs ++ b :: ys) b) V s (xs ++ out) s') ∨
      (done = false ∧ s' = s ∧ b.size < size ∧ ∀ ns c zs, ¬Absorbs size ys ns c zs)) s := by
  have hlisted := h.listed fun v (hv : Kept size (xs ++ b :: ys) b v) => kept_owned (by simp) hv
  have hlen : ys.length < listFuel := by
    have hlt := h.length_lt
    simp only [List.length_append, List.length_cons] at hlt
    omega
  refine hlisted.kreallocInPlace hsize h.arena hlen (fun hlt v hv => ?_) fun hlt ns c zs habs v hv => ?_
  · rcases kept_outside h.arena hv with hv | ⟨d, hd, -, howns⟩
    · exact .inl (by omega)
    · have haddr := h.arena.headOr_le hd
      have hv := howns.1
      simp only [Block.memory] at hv
      exact .inr (by omega)
  · rcases kept_outside h.arena hv with hv | ⟨d, hd, hused, howns⟩
    · left
      simp only [Block.memory, Block.stop] at hv ⊢
      omega
    · right
      obtain ⟨rfl, hbefore, hfree, -⟩ := habs
      have harena : Arena L.kernelHeapStart ((xs ++ b :: ns) ++ c :: zs) s.kernelHeapEnd := by
        have h' := h.arena
        rwa [show xs ++ b :: (ns ++ c :: zs) = (xs ++ b :: ns) ++ c :: zs by simp] at h'
      simp only [List.mem_append, List.mem_cons] at hd
      rcases hd with hd | rfl | hd
      · rw [(hbefore d hd).1] at hused
        cases hused
      · rw [hfree] at hused
        cases hused
      · have hstop := harena.around.2 d hd
        have hv := howns.1
        simp only [Block.memory] at hv
        omega

/-! ### The heap afterwards -/

theorem Parts.roomAtEnd {ps : List Block} (h : Parts size b ps) (hb : 32 ≤ b.size) : RoomAtEnd ps := by
  cases h with
  | whole => exact roomAtEnd_singleton.mpr hb
  | two hle =>
    rw [← List.singleton_append, roomAtEnd_append (by simp), roomAtEnd_singleton]
    simp only
    omega

/-- The last block leaves room for a header if it did before. -/
theorem Resized.roomAtEnd {out : List Block} (h : Resized size b ys out) (hroom : RoomAtEnd (xs ++ b :: ys)) :
    RoomAtEnd (xs ++ out) := by
  have hends : ∀ {ps zs : List Block}, RoomAtEnd ps → (zs ≠ [] → RoomAtEnd zs) → RoomAtEnd (ps ++ zs) := by
    intro ps zs hps hzs
    by_cases hz : zs = []
    · rwa [hz, List.append_nil]
    · rw [roomAtEnd_append hz]
      exact hzs hz
  have hbehind : ∀ ps zs : List Block, ys = ps ++ zs → zs ≠ [] → RoomAtEnd zs := by
    rintro ps zs rfl hz
    rwa [show xs ++ b :: (ps ++ zs) = (xs ++ b :: ps) ++ zs by simp, roomAtEnd_append hz] at hroom
  obtain ⟨d, rest, hout, -⟩ := h.cases
  rw [roomAtEnd_append (by rw [hout]; simp)]
  rw [roomAtEnd_append (by simp)] at hroom
  cases h with
  | same _ => exact hroom
  | @moveDown c zs _ _ =>
    by_cases hz : zs = []
    · subst hz
      rw [← List.singleton_append, roomAtEnd_append (by simp), roomAtEnd_singleton] at hroom ⊢
      simp only
      omega
    · have hzs := hbehind [c] zs (by simp) hz
      rwa [show ∀ x : Block, b :: x :: zs = [b, x] ++ zs from fun _ => rfl, roomAtEnd_append hz]
  | @split ps _ _ _ hparts =>
    by_cases hy : ys = []
    · subst hy
      rw [roomAtEnd_singleton] at hroom
      exact hends (hparts.roomAtEnd hroom) fun h => absurd rfl h
    · rw [roomAtEnd_append hy]
      exact hbehind [] ys rfl hy
  | @absorb ps _ ns zs c _ habs hparts =>
    refine hends (hparts.roomAtEnd (by simp)) fun hz => ?_
    exact hbehind (ns ++ [c]) zs (by rw [habs.split]; simp) hz

/-- A block that is resized in its place leaves a heap, when the blocks do not overlap. -/
theorem HeapState.resized {out : List Block} (h : HeapState L F V (xs ++ b :: ys) s) (hr : Resized size b ys out)
    (hlisted : Listed L s.kernelHeapEnd F K V s (xs ++ out) s') :
    s'.kernelHeapEnd = s.kernelHeapEnd ∧ s'.firstHeapEntry = headOr Block.addr 0 (xs ++ out) ∧
      (Arena L.kernelHeapStart (xs ++ out) s.kernelHeapEnd →
        ∃ V', HeapState L F V' (xs ++ out) s' ∧ ∀ v, K v → V' v = V v) := by
  have hstep := hlisted.step
  have hend : s'.kernelHeapEnd = s.kernelHeapEnd := by rw [hstep.same]
  obtain ⟨c, rest, rfl, haddr, -⟩ := hr.cases
  have hfirst : s'.firstHeapEntry = headOr Block.addr 0 (xs ++ c :: rest) := by
    have hsame : s'.firstHeapEntry = s.firstHeapEntry := by rw [hstep.same]
    rw [hsame, h.first]
    simp [haddr]
  refine ⟨hend, hfirst, fun harena => ?_⟩
  rw [← hend] at hlisted
  exact HeapState.of_listed hlisted (by rw [hend]; exact hstep.owned h.owned) hfirst (by rwa [hend]) (by simp)
    (by rw [hend]; exact h.limit) (by
      rw [hend]
      exact h.tail.imp hr.roomAtEnd (Exists.imp fun n hn => hstep.ptAt_some h.slot_end hn))

/-! ## Smaller blocks -/

/-- From `s` to `s'` the block `b` of `bs` has been made smaller, down to `size` bytes: the blocks
fill the heap again, and the other used ones are what they were. -/
def Shrinks (L : Layout) (size : Nat) (bs : List Block) (b : Block) (s s' : Kernel) : Prop :=
  ∃ bs' c, LaidOut L bs' s' ∧ c ∈ bs' ∧ c.addr = b.addr ∧ c.used = true ∧ size ≤ c.size ∧ c.size ≤ b.size ∧
    ∀ d ∈ bs, d ≠ b → d.used = true → d ∈ bs' ∧ SameBytes d s s'

/-- `krealloc` with a size that a block has room for, or that the loop finds room for. -/
theorem HeapState.krealloc_stays (h : HeapState L F V (xs ++ b :: ys) s) (size : Nat) (hlt : size + 16 ≤ 2 ^ 64)
    (hroom : b.size < unitUp size → ∃ ns c zs, Absorbs (unitUp size) ys ns c zs) :
    ∃ s' out, (Heap.krealloc L b.memory size).Returns s b.memory s' ∧ Resized (unitUp size) b ys out ∧
      Listed L s.kernelHeapEnd F (Kept (unitUp size) (xs ++ b :: ys) b) V s (xs ++ out) s' := by
  have hwp := h.kreallocInPlace (E := fun _ => False) (unitUp_mod size)
  obtain ⟨done, s', hret, hpost⟩ := Outcome.returns_of_wp hwp fun _ _ _ hf => hf
  obtain ⟨rfl, out, hresized, hlisted⟩ := hpost.resolve_right fun hno => by
    obtain ⟨ns, c, zs, habs⟩ := hroom hno.2.2.1
    exact hno.2.2.2 ns c zs habs
  refine ⟨s', out, ?_, hresized, hlisted⟩
  unfold Heap.krealloc
  rw [alignUp_unit hlt, h.entry_eq (b := b) (by simp)]
  exact hret.bind (Outcome.returns_pure _ s')

/-- A size that a block has room for. -/
theorem HeapState.size_lt (h : HeapState L F V bs s) (hb : b ∈ bs) (hsize : unitUp size ≤ b.size) :
    size + 16 ≤ 2 ^ 64 ∧ size ≤ unitUp size := by
  have hstop := h.stop_lt hb
  simp only [Block.stop] at hstop
  unfold unitUp at hsize ⊢
  omega

/-- When the blocks fill the heap after `krealloc` to a smaller size, no header has been moved. -/
theorem krealloc_staysTiled (h : LaidOut L (xs ++ b :: ys) s) (hsize : unitUp size ≤ b.size)
    (hret : (Heap.krealloc L b.memory size).Returns s b.memory s') (hlaid : LaidOut L bs' s') :
    StaysTiled (unitUp size) b ys := by
  obtain ⟨htiles, F, V, hstate⟩ := h
  obtain ⟨hlt, -⟩ := hstate.size_lt (b := b) (by simp) hsize
  obtain ⟨t, out, hret', hresized, hlisted⟩ := hstate.krealloc_stays size hlt fun hgt => absurd hsize hgt.not_ge
  obtain ⟨-, rfl⟩ := hret'.det hret
  obtain ⟨hend, hfirst, -⟩ := hstate.resized hresized hlisted
  -- memory holds no other list of entries
  obtain rfl := (hlisted.entries hfirst).unique hlaid.filled.1
  have htiles' := hlaid.1
  rw [hend] at htiles'
  exact (hresized.tiles_iff htiles).mp htiles'

/-- A block that is made smaller without a free entry behind it. -/
theorem krealloc_shrinks (h : LaidOut L (xs ++ b :: ys) s) (hused : b.used = true) (hsize : unitUp size ≤ b.size)
    (hstays : StaysTiled (unitUp size) b ys) :
    ∃ s', (Heap.krealloc L b.memory size).Returns s b.memory s' ∧ Shrinks L size (xs ++ b :: ys) b s s' := by
  obtain ⟨htiles, F, V, hstate⟩ := h
  obtain ⟨hlt, hup⟩ := hstate.size_lt (b := b) (by simp) hsize
  obtain ⟨t, out, hret, hresized, hlisted⟩ := hstate.krealloc_stays size hlt fun hgt => absurd hsize hgt.not_ge
  obtain ⟨hend, -, hheap⟩ := hstate.resized hresized hlisted
  have htiles' := (hresized.tiles_iff htiles).mpr hstays
  obtain ⟨V', hstate', hkept⟩ := hheap htiles'.arena
  obtain ⟨c, rest, rfl, haddr, hcused, hcsize, hcle, hold, -⟩ := hresized.cases
  refine ⟨t, hret, xs ++ c :: rest, c, ⟨by rwa [hend], F, V', hstate'⟩, by simp, haddr, hcused.trans hused,
    hup.trans hcsize, hcle hsize, fun d hd hne hdused => ?_⟩
  have hd' : d ∈ xs ++ c :: rest := by
    simp only [List.mem_append, List.mem_cons] at hd ⊢
    rcases hd with hd | hd | hd
    · exact .inl hd
    · exact absurd hd hne
    · exact .inr (.inr (hold d hd hdused))
  exact ⟨hd', hstate.sameBytes hstate' hd hd' fun v hv => hkept v (.inl ⟨d, hd, hne, hdused, hv⟩)⟩

/-- **`krealloc` to a smaller size.** It returns the same pointer, with the blocks filling the heap
again, exactly when the block keeps its size or the entry behind it is used or absent. -/
theorem krealloc_shrinks_iff (h : LaidOut L (xs ++ b :: ys) s) (hused : b.used = true)
    (hsize : unitUp size ≤ b.size) :
    (∃ s', (krealloc L b.memory size).Returns s b.memory s' ∧ Shrinks L size (xs ++ b :: ys) b s s') ↔
      (unitUp size = b.size ∨ ∀ c ∈ ys.head?, c.used = true) := by
  constructor
  · rintro ⟨s', hret, bs', c, hlaid, -⟩
    have hstays := krealloc_staysTiled h hsize hret hlaid
    by_cases heq : unitUp size = b.size
    · exact .inl heq
    · exact .inr (hstays.1 (by omega))
  · intro hcond
    exact krealloc_shrinks h hused hsize ⟨fun hlt => hcond.resolve_left hlt.ne, fun hlt => by omega⟩

/-- The first of two blocks is made smaller, and the second is what it was. -/
theorem krealloc_shrinks_iff_firstHeap : ∃ s s', (krealloc exampleLayout 0xFFFFFF0001001020 16).Returns s
      0xFFFFFF0001001020 s' ∧ Shrinks exampleLayout 16 ([] ++ ⟨0xFFFFFF0001001000, 64, true⟩ ::
        [⟨0xFFFFFF0001001060, 64, true⟩, ⟨0xFFFFFF00010010C0, 3872, false⟩]) ⟨0xFFFFFF0001001000, 64, true⟩ s s' := by
  obtain ⟨s, -, hlaid⟩ := firstHeap_takenTwice
  have hsize : unitUp 16 ≤ 64 := by decide
  have hnext : ∀ c ∈ List.head? [(⟨0xFFFFFF0001001060, 64, true⟩ : Block), ⟨0xFFFFFF00010010C0, 3872, false⟩],
      c.used = true := by simp
  exact ⟨s, (krealloc_shrinks_iff hlaid rfl hsize).mpr (.inr hnext)⟩

/-- 16 of the 64 bytes are kept: the header behind the block is moved into it. -/
theorem krealloc_shrinks_overlaps : ∃ s, LaidOut exampleLayout ([] ++ ⟨0xFFFFFF0001001000, 64, true⟩ ::
      [⟨0xFFFFFF0001001060, 3968, false⟩]) s ∧
    ¬∃ s', (krealloc exampleLayout 0xFFFFFF0001001020 16).Returns s 0xFFFFFF0001001020 s' ∧
      Shrinks exampleLayout 16 ([] ++ ⟨0xFFFFFF0001001000, 64, true⟩ :: [⟨0xFFFFFF0001001060, 3968, false⟩])
        ⟨0xFFFFFF0001001000, 64, true⟩ s s' := by
  obtain ⟨s, hlaid⟩ := firstHeap_taken
  refine ⟨s, hlaid, ?_⟩
  rintro ⟨s', hret, bs', c, hlaid', -⟩
  have hstays := krealloc_staysTiled hlaid (by decide) hret hlaid'
  have hused := hstays.1 (by decide) ⟨0xFFFFFF0001001060, 3968, false⟩ rfl
  cases hused

end KoalemOS.Heap
