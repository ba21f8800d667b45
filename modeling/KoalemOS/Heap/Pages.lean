import KoalemOS.Heap.Allocator
import KoalemOS.Paging.FreeFrames
import KoalemOS.Paging.Refinement

/-!
# The pages of the heap

`Pages L e F V s`: the addresses of the heap up to `e` are mapped, each page to a frame of
its own (`F`), and hold the bytes `V`. Then accesses through the MMU are accesses to `V`.
`Owned` adds that the free frames are free: a call of `map_page` for a page outside the heap
leaves the heap what it is, and one for the page behind the heap makes it longer.
-/

namespace KoalemOS.Heap

open KoalemOS.Library KoalemOS.Mmap KoalemOS.Paging

variable {L : Layout} {e : Nat} {F : Nat → Nat} {V : Mem} {s s' : Kernel}

/-- `v` is an address of the heap that ends at `e`. -/
structure Layout.Within (L : Layout) (e v : Nat) : Prop where
  lower : L.kernelHeapStart ≤ v
  upper : v < e

/-- The heap up to `e` is mapped to the frames `F` and holds the bytes `V`; further pages of
its slot are not large. -/
structure Pages (L : Layout) (e : Nat) (F : Nat → Nat) (V : Mem) (s : Kernel) : Prop where
  tables : PageTables s.mem s.cr3
  mapped : ∀ v, L.Within e v → ∃ pte, walk s.mem s.cr3 v = some (pte, 12) ∧ frameOf pte = F (v / 4096)
  inj : ∀ v w, L.Within e v → L.Within e w → F (v / 4096) = F (w / 4096) → v / 4096 = w / 4096
  notTable : ∀ v, L.Within e v → ¬IsTable s.mem s.cr3 (F (v / 4096))
  bytes : ∀ v, L.Within e v → s.mem (4096 * F (v / 4096) + v % 4096) = V v
  noLarge : ∀ v, L.physMmapRangeBuf ≤ v → v < 0xFFFFFF8000000000 → NoLargePage s.mem s.cr3 v
  endAligned : e % 4096 = 0
  start_le : L.kernelHeapStart ≤ e
  end_le : e ≤ 0xFFFFFF8000000000

/-- The free frames are free, and none of them is a frame of the heap. The buffer of
`phys_mmap` is a number of whole pages. -/
structure Owned (L : Layout) (e : Nat) (F : Nat → Nat) (s : Kernel) : Prop where
  free : FreeFrames s
  notFree : ∀ v, L.Within e v → 4096 * F (v / 4096) ∉ s.physMmap.freePages
  frame : ∀ v, L.Within e v → F (v / 4096) ≠ 0 ∧ F (v / 4096) < 2 ^ 36
  buffer : s.physMmap.maxRangeCount % 256 = 0
  bufferSize : s.physMmap.maxRangeCount * 16 ≤ physMmapMaxSize

/-! ## Addresses -/

/-- The addresses from the buffer of `phys_mmap` up to the window are in slot 510. -/
theorem slot_of_lt {v : Nat} (h₁ : L.physMmapRangeBuf ≤ v) (h₂ : v < 0xFFFFFF8000000000) :
    index v 39 = 510 ∧ canonical v = true := by
  have hlower := L.lower
  constructor
  · apply Fin.ext
    simp only [index]
    omega
  · simp only [canonical, Bool.or_eq_true, Bool.and_eq_true, decide_eq_true_eq]
    omega

/-- A page-aligned address there is one the page tables can be edited for. -/
theorem userPage_of_lt {v : Nat} (h₁ : L.physMmapRangeBuf ≤ v) (h₂ : v < 0xFFFFFF8000000000)
    (ha : v % 4096 = 0) : UserPage v := by
  obtain ⟨hslot, hc⟩ := slot_of_lt h₁ h₂
  exact ⟨hc, ha, by rw [hslot]; decide⟩

theorem buf_le_start (L : Layout) : L.physMmapRangeBuf ≤ L.kernelHeapStart := by
  have := L.buf_below
  omega

theorem Pages.slot (h : Pages L e F V s) {v : Nat} (hv : L.Within e v) : index v 39 ≠ 511 := by
  have hend := h.end_le
  have hbuf := buf_le_start L
  have hlower := hv.lower
  have hupper := hv.upper
  rw [(slot_of_lt (L := L) (v := v) (by omega) (by omega)).1]
  decide

/-- Bytes of the heap in one frame are in one page. -/
theorem Pages.phys_inj (h : Pages L e F V s) {v w : Nat} (hv : L.Within e v) (hw : L.Within e w)
    (heq : 4096 * F (v / 4096) + v % 4096 = 4096 * F (w / 4096) + w % 4096) : v = w := by
  have hpage := h.inj v w hv hw (by omega)
  omega

/-! ## Reading -/

theorem Pages.translate (h : Pages L e F V s) {v : Nat} (hv : L.Within e v) :
    translate s.mem s.cr3 v = some (4096 * F (v / 4096) + v % 4096) := by
  obtain ⟨pte, hwalk, hframe⟩ := h.mapped v hv
  rw [Paging.translate, hwalk, Option.map_some, leafAddr_small, hframe]

theorem Pages.readByte (h : Pages L e F V s) {v : Nat} (hv : L.Within e v) :
    (readByte v).Returns s (V v) s := by
  rw [← h.bytes v hv]
  exact (returns_mmu (h.translate hv)).bind (Outcome.returns_gets _ s)

/-- A word of the heap that crosses no page. -/
structure Layout.WordIn (L : Layout) (e v : Nat) : Prop where
  lower : L.kernelHeapStart ≤ v
  upper : v + 8 ≤ e
  aligned : v % 8 = 0

theorem Layout.WordIn.within {v i : Nat} (h : L.WordIn e v) (hi : i < 8) : L.Within e (v + i) :=
  ⟨by have := h.lower; omega, by have := h.upper; omega⟩

theorem Pages.readWord (h : Pages L e F V s) {v : Nat} (hv : L.WordIn e v) :
    (readWord v).Returns s (V.load64 v) s := by
  have hload : s.mem.load64 (4096 * F (v / 4096) + v % 4096) = V.load64 v := by
    refine Mem.loadLE_shift fun i hi => ?_
    rw [← h.bytes _ (hv.within hi)]
    have ha := hv.aligned
    congr 1
    have hpage : (v + i) / 4096 = v / 4096 := by omega
    rw [hpage]
    omega
  rw [← hload]
  exact (returns_mmu (h.translate (hv.within (i := 0) (by decide)))).bind (Outcome.returns_gets _ s)

/-! ## Writing -/

/-- Only bytes outside the tables and `last_heap_entry` have changed. -/
structure DataStep (s s' : Kernel) : Prop where
  same : s' = { s with mem := s'.mem, lastHeapEntry := s'.lastHeapEntry }
  rows : ∀ n, IsTable s.mem s.cr3 n → tables s'.mem n = tables s.mem n

theorem DataStep.refl (s : Kernel) : DataStep s s := ⟨rfl, fun _ _ => rfl⟩

theorem DataStep.cr3 (h : DataStep s s') : s'.cr3 = s.cr3 := by rw [h.same]

theorem DataStep.physMmap (h : DataStep s s') : s'.physMmap = s.physMmap := by rw [h.same]

theorem DataStep.tableAt (h : DataStep s s') {p : List (Fin 512)} (hp : tablePaths.mem p) :
    tableAt s'.mem s'.cr3 p = tableAt s.mem s.cr3 p := by
  rw [h.cr3]
  exact (tablesIn_congr h.rows).1 p hp

theorem DataStep.isTable (h : DataStep s s') (n : Nat) :
    IsTable s'.mem s'.cr3 n ↔ IsTable s.mem s.cr3 n :=
  exists_congr fun _ => and_congr_right fun hp => by rw [h.tableAt hp]

theorem DataStep.trans {s'' : Kernel} (h : DataStep s s') (h' : DataStep s' s'') : DataStep s s'' := by
  refine ⟨?_, fun n hn => ?_⟩
  · rw [h'.same, h.same]
  · rw [h'.rows n ((h.isTable n).mpr hn), h.rows n hn]

theorem DataStep.walk (h : DataStep s s') {v : Nat} (hv : index v 39 ≠ 511) :
    walk s'.mem s'.cr3 v = walk s.mem s.cr3 v := by
  rw [h.cr3]
  exact (tablesIn_congr h.rows).2.1 v hv

theorem DataStep.noLarge (h : DataStep s s') {v : Nat} (hv : index v 39 ≠ 511)
    (hl : NoLargePage s.mem s.cr3 v) : NoLargePage s'.mem s'.cr3 v := by
  rw [h.cr3]
  exact (tablesIn_congr h.rows).2.2 v hv hl

theorem DataStep.pageTables (h : DataStep s s') (ht : PageTables s.mem s.cr3) :
    PageTables s'.mem s'.cr3 := by
  refine ⟨?_, fun p q n hp hq hn hn' => ?_⟩
  · rw [h.cr3, h.rows _ (isTable_root _ s.mem s.cr3)]
    exact ht.selfMap
  · have hpq := (congrArg (· = some n) (h.tableAt hp)).mp hn
    have hqn := (congrArg (· = some n) (h.tableAt hq)).mp hn'
    exact ht.tree p q n hp hq hpq hqn

/-- The free frames stay free. -/
theorem DataStep.owned (h : DataStep s s') (ho : Owned L e F s) : Owned L e F s' := by
  obtain ⟨hfree, hnot, hnz, hbuf, hsize⟩ := ho
  have hmap := h.physMmap
  refine ⟨⟨by rw [hmap]; exact hfree.wf, fun a ha => ?_⟩, by rwa [hmap], hnz, by rwa [hmap],
    by rwa [hmap]⟩
  rw [hmap] at ha
  obtain ⟨haddr, hz, ht⟩ := hfree.good a ha
  exact ⟨haddr, hz, fun hc => ht ((h.isTable _).mp hc)⟩

/-- A change of bytes in the frames of the heap. -/
theorem Pages.edit (h : Pages L e F V s) {m' V' : Mem}
    (hout : ∀ x, (∀ v, L.Within e v → x / 4096 ≠ F (v / 4096)) → m' x = s.mem x)
    (hin : ∀ v, L.Within e v → m' (4096 * F (v / 4096) + v % 4096) = V' v) :
    Pages L e F V' { s with mem := m' } ∧ DataStep s { s with mem := m' } := by
  have hstep : DataStep s { s with mem := m' } := by
    refine ⟨rfl, fun n hn => row_eq_of_bytes_eq fun x hx => hout x fun v hv hc => ?_⟩
    rw [← hx, hc] at hn
    exact h.notTable v hv hn
  refine ⟨⟨hstep.pageTables h.tables, fun v hv => ?_, h.inj, fun v hv hc => ?_, hin, fun v h₁ h₂ => ?_,
    h.endAligned, h.start_le, h.end_le⟩, hstep⟩
  · rw [hstep.walk (h.slot hv)]
    exact h.mapped v hv
  · exact h.notTable v hv ((hstep.isTable _).mp hc)
  · refine hstep.noLarge ?_ (h.noLarge v h₁ h₂)
    rw [(slot_of_lt h₁ h₂).1]
    decide

theorem Pages.writeByte (h : Pages L e F V s) {v : Nat} (hv : L.Within e v) (b : UInt8) :
    ∃ s', (writeByte v b).Returns s () s' ∧ Pages L e F (V.storeByte v b) s' ∧ DataStep s s' ∧
      s'.lastHeapEntry = s.lastHeapEntry := by
  have hret : (Paging.writeByte v b).Returns s ()
      { s with mem := s.mem.storeByte (4096 * F (v / 4096) + v % 4096) b } :=
    (returns_mmu (h.translate hv)).bind (Outcome.returns_modify _ s)
  have hedit := @Pages.edit L e F V s h (s.mem.storeByte (4096 * F (v / 4096) + v % 4096) b)
    (V.storeByte v b) ?_ ?_
  · exact ⟨_, hret, hedit.1, hedit.2, rfl⟩
  · intro x hx
    refine Mem.storeByte_other b ?_
    rintro rfl
    exact hx v hv (by omega)
  · intro w hw
    by_cases hwv : w = v
    · subst hwv
      rw [Mem.storeByte_same, Mem.storeByte_same]
    · rw [Mem.storeByte_other b hwv, Mem.storeByte_other b fun hc => hwv (h.phys_inj hw hv hc),
        h.bytes w hw]

theorem Pages.writeWord (h : Pages L e F V s) {v : Nat} (hv : L.WordIn e v) (x : Nat) :
    ∃ s', (writeWord v x).Returns s () s' ∧ Pages L e F (V.store64 v x) s' ∧ DataStep s s' ∧
      s'.lastHeapEntry = s.lastHeapEntry := by
  have ha := hv.aligned
  have hv0 := hv.within (i := 0) (by decide)
  have hret : (Paging.writeWord v x).Returns s ()
      { s with mem := s.mem.store64 (4096 * F (v / 4096) + v % 4096) x } :=
    (returns_mmu (h.translate hv0)).bind (Outcome.returns_modify _ s)
  have hedit := @Pages.edit L e F V s h (s.mem.store64 (4096 * F (v / 4096) + v % 4096) x)
    (V.store64 v x) ?_ ?_
  · exact ⟨_, hret, hedit.1, hedit.2, rfl⟩
  · intro y hy
    refine Mem.storeLE_outside ?_
    by_contra hc
    exact hy v hv0 (by omega)
  · intro w hw
    by_cases hwv : v ≤ w ∧ w < v + 8
    · -- the bytes of the word are in one page
      have hpage : w / 4096 = v / 4096 := by omega
      rw [hpage]
      unfold Mem.store64 Mem.storeLE
      rw [if_pos (by omega), if_pos hwv]
      congr 3
      omega
    · have hold : V.store64 v x w = V w := Mem.storeLE_outside (by omega)
      rw [hold, ← h.bytes w hw]
      refine Mem.storeLE_outside ?_
      by_contra hc
      have hframe : F (w / 4096) = F (v / 4096) := by omega
      have hpage := h.inj w v hw hv0 hframe
      omega

end KoalemOS.Heap
