import KoalemOS.Heap.InitMmapFrames
import KoalemOS.Paging.LargePages

/-!
# The page tables during `init_mmap` (`src/kernel/memory.c`)

The frames for page tables come out of the map that `init_mmap` fills, and the page tables of the firmware
and the array of descriptors lie in memory that the map calls usable. Which frames become tables is known
before the loop starts: the frames of the descriptors in their order (`framesUpTo`), as many as the large
pages cost that the pages to be unmapped lie in (`tablesFor`).

- `FramesTaken`: the tables and the free frames after some pages have been unmapped
- `pagesUpTo`, `framesUpTo`: the pages to be unmapped and the frames given, read off the descriptors
- `TablesSpared`: the first frames are no tables at the start and hold no descriptor to come
- `initMmap_spares`: then no frame that is handed out is in use
- `initMmap_order`: in every run that returns, what has been unmapped and which frames are left
-/

namespace KoalemOS.Heap

open KoalemOS.Library KoalemOS.Mmap KoalemOS.Paging KoalemOS.Smp

/-! ## Unmapping pages, one after the other -/

/-- From `s` to `t` the pages `vs` have been unmapped, and frames have become tables in the order of `F`. -/
structure FramesTaken (s : Kernel) (F vs : List Nat) (t : Kernel) : Prop where
  wf : t.physMmap.Wf
  cr3 : t.cr3 = s.cr3
  pageTables : PageTables t.mem t.cr3
  order : handedOut t ++ t.physMmap.freePages = F
  count : (handedOut t).length ≤ tablesFor (largeShift s.mem s.cr3) vs
  reach : ∀ n, IsTable t.mem t.cr3 n → IsTable s.mem s.cr3 n ∨ n ∈ (handedOut t).map (· / 4096)
  rows : ∀ n, ¬IsTable s.mem s.cr3 n → n ∉ (handedOut t).map (· / 4096) → tables t.mem n = tables s.mem n
  walks : WalksKept s vs t

section Unmapping

variable {P : Nat → Prop} {X : Prop} {s t u : Kernel} {F vs : List Nat} {v k : Nat}

/-- One frame more is handed out, and it is the next one. -/
theorem order_alloc (h : t.physMmap.Wf ∧ handedOut t ++ t.physMmap.freePages = F) :
    (t.allocated 1).physMmap.Wf ∧ handedOut (t.allocated 1) ++ (t.allocated 1).physMmap.freePages = F := by
  obtain ⟨hwf, hF⟩ := h
  rcases takeFrame_first hwf with ⟨-, hnone⟩ | ⟨a, rest, hpages, ha, hne, hwf', hrest⟩
  · have hsame : t.allocated 1 = t := by
      simp only [Kernel.allocated, hnone, if_true]
    rw [hsame]
    exact ⟨hwf, hF⟩
  · have hout : handedOut (t.allocated 1) = handedOut t ++ [a] := by
      simp only [handedOut, Kernel.allocated, ha, if_neg hne, List.flatMap_append, List.flatMap_singleton, pageList_one]
    refine ⟨hwf', ?_⟩
    rw [hout, allocated_physMmap, hrest, List.append_assoc, List.singleton_append, ← hpages]
    exact hF

/-- The frames for the tables of the next page. -/
theorem FramesTaken.supply (h : FramesTaken s F vs t) (hF : F.Nodup) {j : Nat}
    (hgood : ∀ a ∈ F.take (tablesFor (largeShift s.mem s.cr3) vs + j), GoodFrame s.mem s.cr3 a ∧ P a) :
    FrameSupply P t j := by
  refine ⟨h.wf, fun a ha => ?_⟩
  have hsub : handedOut t ++ t.physMmap.freePages.take j <+: F.take (tablesFor (largeShift s.mem s.cr3) vs + j) := by
    rw [← h.order, List.take_append]
    have hout : (handedOut t).take (tablesFor (largeShift s.mem s.cr3) vs + j) = handedOut t :=
      List.take_of_length_le (h.count.trans (Nat.le_add_right _ _))
    rw [hout, List.prefix_append_right_inj]
    refine List.take_prefix_take_left ?_
    have := h.count
    omega
  have hmem := hsub.subset (List.mem_append_right _ ha)
  obtain ⟨⟨haddr, hne, hnot⟩, hP⟩ := hgood a hmem
  refine ⟨⟨haddr, hne, fun htable => ?_⟩, hP⟩
  rcases h.reach _ htable with htable | hout
  · exact hnot htable
  · -- a frame is handed out once
    obtain ⟨b, hb, hab⟩ := List.mem_map.mp hout
    have hb' := (hgood b (hsub.subset (List.mem_append_left _ hb))).1.aligned
    have ha' := haddr.aligned
    rw [← h.order] at hF
    exact (List.nodup_append.mp hF).2.2 b hb a (List.mem_of_mem_take ha) (by omega)

/-- The frames that an edit of the tables takes. -/
theorem FramesTaken.handedOut_eq (h : FramesTaken s F vs t) (hedits : TableEdits t u k)
    (hu : u.physMmap.Wf ∧ handedOut u ++ u.physMmap.freePages = F) :
    handedOut u = handedOut t ++ (takeFrames k t.physMmap).1 := by
  have hle := hedits.le_length h.wf
  obtain ⟨hfirst, hrest, -⟩ := takeFrames_first h.wf hle
  rw [← hedits.frames] at hrest
  have heq : handedOut u ++ u.physMmap.freePages = handedOut t ++ t.physMmap.freePages := hu.2.trans h.order.symm
  rw [hrest, ← List.take_append_drop k t.physMmap.freePages, List.drop_append_of_le_length (by simp [hle]),
    List.drop_take_self, List.nil_append, ← List.append_assoc] at heq
  rw [hfirst]
  exact List.append_cancel_right heq

/-- An edit of the tables that unmaps one more page. -/
theorem FramesTaken.edit (h : FramesTaken s F vs t) (hedits : TableEdits t u k)
    (hu : u.physMmap.Wf ∧ handedOut u ++ u.physMmap.freePages = F)
    (hk : tablesFor (largeShift s.mem s.cr3) vs + k ≤ tablesFor (largeShift s.mem s.cr3) (vs ++ [v]))
    (hwalks : WalksKept s (vs ++ [v]) u) : FramesTaken s F (vs ++ [v]) u := by
  have hout := h.handedOut_eq hedits hu
  refine ⟨hu.1, hedits.cr3.trans h.cr3, hedits.pageTables, hu.2, ?_, fun n hn => ?_, fun n hn hnot => ?_, hwalks⟩
  · rw [hout, List.length_append, takeFrames_length]
    have := h.count
    omega
  · rw [hout, List.map_append, List.mem_append, ← or_assoc]
    exact (hedits.reach n hn).imp (h.reach n) id
  · rw [hout, List.map_append, List.mem_append, not_or] at hnot
    rw [hedits.rows n (fun ht => (h.reach n ht).elim hn hnot.1) hnot.2, h.rows n hn hnot.1]

/-- `unmap_page_fix_size` on one more page. Where it does not return, there are too few frames. -/
theorem FramesTaken.unmap (h : FramesTaken s F vs t) (hF : F.Nodup) (hv : UserPage v)
    (hmapped : walk s.mem s.cr3 v ≠ none)
    (hgood : ∀ a ∈ F.take (tablesFor (largeShift s.mem s.cr3) (vs ++ [v])), GoodFrame s.mem s.cr3 a ∧ P a)
    (hfew : F.length < tablesFor (largeShift s.mem s.cr3) (vs ++ [v]) → X) :
    Outcome.ends (fun _ u => HandsOut P t u ∧ FramesTaken s F (vs ++ [v]) u) (fun u => HandsOut P t u ∧ X)
      (unmapPageFixSize v) t := by
  have hkeeps := keeps_unmapPageFixSize (I := fun u => u.physMmap.Wf ∧ handedOut u ++ u.physMmap.freePages = F)
    (fun _ _ hu => hu) (fun _ hu => order_alloc hu) v
  have hcost := tablesFor_concat (largeShift s.mem s.cr3) vs v
  cases hL : splitAll (largeShift s.mem s.cr3) vs v with
  | none =>
    -- the page has a page table
    obtain ⟨n, hn⟩ := h.walks.small v hv.slot hL hmapped
    obtain ⟨u, hret, hedit, hmap, hunmap⟩ := unmapPageFixSize_small h.pageTables hv hn
    have hu := hkeeps.returns ⟨h.wf, h.order⟩ hret
    have hout : HandsOut P t u :=
      (keeps_writePte (fun _ m ht => ht.withMem m) v 0).returns (HandsOut.refl P t) hunmap
    have hedits : TableEdits t u 0 := .of_edited hedit hmap nofun
    refine Outcome.ends_of_returns hret ⟨hout, h.edit hedits hu ?_ (h.walks.small_step hv hL hn hedit)⟩
    rw [hcost]
    exact Nat.le_add_right _ _
  | some shift =>
    -- the page lies in a large page that is left
    obtain ⟨hs, e, hwalk⟩ := largeShift_eq_some.mp (splitAll_le hL)
    rw [← h.walks.large v shift hv.slot hL] at hwalk
    obtain ⟨hc, p, i, n, hslot, hn, rfl, hpres, hsize⟩ := leafSlot_of_walk hwalk
    have hsize' := hsize.resolve_left hs
    have hsupply : FrameSupply P t (splitTables shift) := by
      refine h.supply hF ?_
      rw [hcost, hL] at hgood
      exact hgood
    have hends := unmapPageFixSize_takes h.pageTables hc hv.slot hslot hs hn hsize' hsupply
    refine Outcome.ends_weaken (Outcome.ends_mono (Outcome.ends_and hends fun _ u hret =>
      hkeeps.returns ⟨h.wf, h.order⟩ hret) fun _ u hu => ?_) fun _ hu => ⟨hu.1, hfew ?_⟩
    swap
    · have hlen := congrArg List.length h.order
      have hcount := h.count
      have hfree := hu.2
      rw [List.length_append] at hlen
      rw [hcost, hL, Option.elim_some]
      omega
    obtain ⟨⟨hout, htakes⟩, hu⟩ := hu
    obtain ⟨k, hk, hedits⟩ := htakes.edits
    refine ⟨hout, h.edit hedits hu ?_ (h.walks.split hv hL hslot hs hn hpres hsize' htakes)⟩
    rw [hcost, hL]
    exact Nat.add_le_add_left hk _

end Unmapping

/-! ## What the descriptors ask for -/

/-- What is left of a usable descriptor; `unset` says that the boot image has no place yet. -/
def leftOf (size : Nat) (unset : Bool) (d : EfiMemoryDescriptor) : Option EfiMemoryDescriptor :=
  if unset ∧ d.physicalStart.toNat ≤ 0xFF000 ∧ size ≤ (0x1000 * d.numberOfPages).toNat then
    if d.numberOfPages.toNat = apBootPages size then none
    else skipFrameZero (withoutPages d (apBootPages size))
  else skipFrameZero d

/-- The frames that a descriptor gives. -/
def framesOf (size : Nat) (unset : Bool) (d : EfiMemoryDescriptor) : List Nat :=
  if d.type.usable then (leftOf size unset d).elim [] fun l => (descRange l).pageList else []

/-- The first `n` pages of a descriptor, but for those of the array. -/
def pagesToUnmap (data : EfiMmapData) (d : EfiMemoryDescriptor) (n : Nat) : List Nat :=
  ((List.range n).map fun i => wrap (d.physicalStart.toNat + i * 0x1000)).filter fun addr =>
    addr < pageBase data.descriptors ∨ addr > pageBase data.efiMmapEnd

/-- The pages that are unmapped in the turn of a descriptor. -/
def pagesOf (size : Nat) (data : EfiMmapData) (unset : Bool) (d : EfiMemoryDescriptor) : List Nat :=
  if d.type = .kernel then []
  else if d.type.usable then (leftOf size unset d).elim [] fun l => pagesToUnmap data l l.numberOfPages.toNat
  else pagesToUnmap data d d.numberOfPages.toNat

/-- The boot image has no place before descriptor `k`. -/
def unsetAt (size : Nat) (ds : List EfiMemoryDescriptor) (k : Nat) : Bool :=
  (Smp.apBootPaddr size (ds.take k)).isNone

/-- The frames that the first `k` descriptors give, in their order. -/
def framesUpTo (size : Nat) (ds : List EfiMemoryDescriptor) (k : Nat) : List Nat :=
  (List.range k).flatMap fun i => ds[i]?.elim [] (framesOf size (unsetAt size ds i))

/-- The pages that the first `k` descriptors have unmapped. -/
def pagesUpTo (size : Nat) (data : EfiMmapData) (ds : List EfiMemoryDescriptor) (k : Nat) : List Nat :=
  (List.range k).flatMap fun i => ds[i]?.elim [] (pagesOf size data (unsetAt size ds i))

section Asked

variable {size k : Nat} {data : EfiMmapData} {ds : List EfiMemoryDescriptor} {d l : EfiMemoryDescriptor}

theorem framesUpTo_succ (hd : ds[k]? = some d) :
    framesUpTo size ds (k + 1) = framesUpTo size ds k ++ framesOf size (unsetAt size ds k) d := by
  simp [framesUpTo, List.range_succ, List.flatMap_append, hd]

theorem pagesUpTo_succ (hd : ds[k]? = some d) :
    pagesUpTo size data ds (k + 1) = pagesUpTo size data ds k ++ pagesOf size data (unsetAt size ds k) d := by
  simp [pagesUpTo, List.range_succ, List.flatMap_append, hd]

theorem range_isPrefix {j : Nat} (hjk : j ≤ k) : List.range j <+: List.range k := by
  obtain ⟨i, rfl⟩ := Nat.exists_eq_add_of_le hjk
  rw [List.range_add]
  exact List.prefix_append _ _

theorem framesUpTo_isPrefix {j : Nat} (hjk : j ≤ k) : framesUpTo size ds j <+: framesUpTo size ds k :=
  (range_isPrefix hjk).flatMap _

theorem pagesUpTo_isPrefix {j : Nat} (hjk : j ≤ k) : pagesUpTo size data ds j <+: pagesUpTo size data ds k :=
  (range_isPrefix hjk).flatMap _

/-- What is left of a descriptor can be added to the map. -/
theorem leftOf_wf (h : DescWf d) {unset : Bool} (hl : leftOf size unset d = some l) : (descRange l).Wf := by
  unfold leftOf at hl
  split_ifs at hl with hfits hexact
  · have hle : (0x1000 * d.numberOfPages).toNat ≤ 0x1000 * d.numberOfPages.toNat := by
      rw [UInt64.toNat_mul]
      exact Nat.mod_le _ _
    have hpages := apBootPages_le (hfits.2.2.trans hle)
    exact (skipFrameZero_pages (h.without (by omega))).1 l hl
  · exact (skipFrameZero_pages h).1 l hl

/-- The choice of the address changes the static variables alone. -/
theorem takeApBoot_left (size : Nat) (d : EfiMemoryDescriptor) (s : Kernel) : ∃ left s₁,
    (takeApBoot size d).Returns s left s₁ ∧ left.bind skipFrameZero = leftOf size s.apBootPaddrUnset d ∧
      s₁.mem = s.mem ∧ s₁.cr3 = s.cr3 ∧ s₁.allocLog = s.allocLog ∧ s₁.physMmap = s.physMmap ∧
      s₁.kernelHeapEnd = s.kernelHeapEnd := by
  unfold leftOf
  by_cases hfits : s.apBootPaddrUnset = true ∧ d.physicalStart.toNat ≤ 0xFF000 ∧ size ≤ (0x1000 * d.numberOfPages).toNat
  · refine ⟨if d.numberOfPages.toNat = apBootPages size then none else some (withoutPages d (apBootPages size)),
      { s with apBootPaddrUnset := false, apBootPaddr := d.physicalStart.toNat }, ?_, ?_, rfl, rfl, rfl, rfl, rfl⟩
    · refine (Outcome.returns_gets _ s).bind ?_
      rw [if_pos hfits]
      refine (Outcome.returns_modify _ s).bind ?_
      split_ifs <;> exact Outcome.returns_pure _ _
    · rw [if_pos hfits]
      split_ifs <;> rfl
  · refine ⟨some d, s, ?_, ?_, rfl, rfl, rfl, rfl, rfl⟩
    · refine (Outcome.returns_gets _ s).bind ?_
      rw [if_neg hfits]
      exact Outcome.returns_pure _ s
    · rw [if_neg hfits]
      rfl

/-- The turn of a usable descriptor: its frames come last in the map, and nothing else changes, unless the
map is full. -/
theorem giveFrames_ends (size : Nat) (h : DescWf d) (s : Kernel) :
    Outcome.ends (fun left t => left = leftOf size s.apBootPaddrUnset d ∧ t.mem = s.mem ∧ t.cr3 = s.cr3 ∧
        t.allocLog = s.allocLog ∧ t.physMmap.freePages = s.physMmap.freePages ++
          (leftOf size s.apBootPaddrUnset d).elim [] fun l => (descRange l).pageList)
      (fun t => (t.cr3 = s.cr3 ∧ t.allocLog = s.allocLog) ∧ s.physMmap.maxRangeCount ≤ s.physMmap.rangeCount)
      (giveFrames size d) s := by
  obtain ⟨left, s₁, hret, hleft, hmem, hcr3, hlog, hmap, -⟩ := takeApBoot_left size d s
  refine Outcome.ends_bind_returns hret ?_
  rw [hleft]
  cases hl : leftOf size s.apBootPaddrUnset d with
  | none =>
    refine Outcome.ends_of_returns (Outcome.returns_pure _ _) ⟨rfl, hmem, hcr3, hlog, ?_⟩
    rw [hmap]
    exact (List.append_nil _).symm
  | some l =>
    have hwf := leftOf_wf h hl
    have heq := mmapAddRange_eq s₁.physMmap l.physicalStart.toNat (Nat.pos_iff_ne_zero.mp hwf.pos)
    refine Outcome.ends_bind (Outcome.ends_bind_returns (Outcome.returns_gets _ _) ?_)
    refine Outcome.ends_bind_returns (Outcome.returns_modify _ _) ?_
    split_ifs at heq with hroom
    · obtain ⟨m', hadd, hranges, -⟩ := heq
      simp only [descRange] at hadd hranges
      rw [hadd, if_neg (by simp)]
      refine Outcome.ends_of_returns (Outcome.returns_pure _ _) (Outcome.ends_of_returns (Outcome.returns_pure _ _) ?_)
      refine ⟨rfl, hmem, hcr3, hlog, ?_⟩
      show m'.freePages = _
      rw [MemoryMap.freePages, hranges, List.flatMap_append, List.flatMap_singleton, ← hmap]
      rfl
    · simp only [descRange] at heq
      rw [heq, if_pos (by simp)]
      rw [hmap] at hroom
      exact Outcome.ends_of_stops (Outcome.stops_stop _ _) ⟨⟨hcr3, hlog⟩, Nat.le_of_not_lt hroom⟩

end Asked

/-! ## The turn of a descriptor -/

/-- The pages that the last loop unmaps: `n` of those from the first page of the array on. -/
def arrayPages (data : EfiMmapData) (n : Nat) : List Nat :=
  (List.range n).map fun i => pageBase data.descriptors + i * 0x1000

/-- The number of pages that the last loop unmaps. -/
def arrayPageCount (data : EfiMmapData) : Nat := (data.efiMmapEnd - pageBase data.descriptors) / 0x1000 + 1

section Turns

variable {P : Nat → Prop} {X : Prop} {s t : Kernel} {F vs : List Nat} {data : EfiMmapData} {d : EfiMemoryDescriptor}

/-- The pages of a descriptor are unmapped. -/
theorem FramesTaken.unmapDescriptor (h : FramesTaken s F vs t) (hF : F.Nodup)
    (hpages : ∀ v ∈ pagesToUnmap data d d.numberOfPages.toNat, UserPage v ∧ walk s.mem s.cr3 v ≠ none)
    (hgood : ∀ a ∈ F.take (tablesFor (largeShift s.mem s.cr3) (vs ++ pagesToUnmap data d d.numberOfPages.toNat)),
      GoodFrame s.mem s.cr3 a ∧ P a)
    (hfew : F.length < tablesFor (largeShift s.mem s.cr3) (vs ++ pagesToUnmap data d d.numberOfPages.toNat) → X) :
    Outcome.ends (fun _ u => HandsOut P t u ∧ FramesTaken s F (vs ++ pagesToUnmap data d d.numberOfPages.toNat) u)
      (fun u => HandsOut P t u ∧ X) (unmapDescriptor data d) t := by
  have hstep : ∀ i, pagesToUnmap data d (i + 1) = pagesToUnmap data d i ++
      if wrap (d.physicalStart.toNat + i * 0x1000) < pageBase data.descriptors ∨
        wrap (d.physicalStart.toNat + i * 0x1000) > pageBase data.efiMmapEnd then
        [wrap (d.physicalStart.toNat + i * 0x1000)] else [] := by
    intro i
    simp only [pagesToUnmap, List.range_succ, List.map_append, List.filter_append, List.map_cons, List.map_nil,
      List.filter_cons, List.filter_nil, decide_eq_true_eq]
  have hpre : ∀ i j, i ≤ j → pagesToUnmap data d i <+: pagesToUnmap data d j := by
    intro i j hij
    exact ((range_isPrefix hij).map _).filter _
  have hloop : Outcome.ends (fun _ u => HandsOut P t u ∧
      FramesTaken s F (vs ++ pagesToUnmap data d (0 + d.numberOfPages.toNat)) u) (fun u => HandsOut P t u ∧ X)
      (Heap.unmapDescriptor data d) t := by
    have hstart : FramesTaken s F (vs ++ pagesToUnmap data d 0) t := by
      rw [show pagesToUnmap data d 0 = [] from rfl, List.append_nil]
      exact h
    refine Outcome.ends_loop (fun i u => HandsOut P t u ∧ FramesTaken s F (vs ++ pagesToUnmap data d i) u) 0
      d.numberOfPages.toNat (fun i u _ hi hu => ?_) ⟨.refl P t, hstart⟩
    obtain ⟨hout, hu⟩ := hu
    have hsub := hpre (i + 1) d.numberOfPages.toNat (by omega)
    rw [hstep] at hsub ⊢
    simp only
    split_ifs at hsub ⊢ with hguard
    · obtain ⟨hv, hmapped⟩ := hpages _ (hsub.subset (List.mem_append_right _ List.mem_cons_self))
      have hcost := tablesFor_mono (L := largeShift s.mem s.cr3) ((List.prefix_append_right_inj vs).mpr hsub)
      rw [← List.append_assoc] at hcost ⊢
      have hends := hu.unmap hF hv hmapped (fun a ha => hgood a (List.take_subset_take_left _ hcost ha))
        fun hlt => hfew (hlt.trans_le hcost)
      exact hout.ends_with hends
    · refine Outcome.ends_of_returns (Outcome.returns_pure _ _) ⟨hout, ?_⟩
      rw [List.append_nil]
      exact hu
  rw [Nat.zero_add] at hloop
  exact hloop

/-- The pages of the array are unmapped last. -/
theorem FramesTaken.unmapArray (hF : F.Nodup)
    (hpages : ∀ v ∈ arrayPages data (arrayPageCount data), UserPage v ∧ walk s.mem s.cr3 v ≠ none)
    (hgood : ∀ a ∈ F.take (tablesFor (largeShift s.mem s.cr3) (vs ++ arrayPages data (arrayPageCount data))),
      GoodFrame s.mem s.cr3 a ∧ P a)
    (hfew : F.length < tablesFor (largeShift s.mem s.cr3) (vs ++ arrayPages data (arrayPageCount data)) → X)
    {i : Nat} (hi : i ≤ arrayPageCount data) (h : FramesTaken s F (vs ++ arrayPages data i) t)
    (hfirst : pageBase data.descriptors ≤ data.efiMmapEnd) (fuel : Nat) (hfuel : fuel ≤ arrayPageCount data - i → X) :
    Outcome.ends (fun _ u => HandsOut P t u ∧ FramesTaken s F (vs ++ arrayPages data (arrayPageCount data)) u)
      (fun u => HandsOut P t u ∧ X) (unmapArray data.efiMmapEnd fuel (pageBase data.descriptors + i * 0x1000)) t := by
  induction fuel generalizing t i with
  | zero => exact Outcome.ends_of_stops (Outcome.stops_stop _ _) ⟨.refl P t, hfuel (Nat.zero_le _)⟩
  | succ fuel ih =>
    rw [Heap.unmapArray]
    have hcount : arrayPageCount data = (data.efiMmapEnd - pageBase data.descriptors) / 0x1000 + 1 := rfl
    split_ifs with hlast
    · have hlt : i < arrayPageCount data := by omega
      have hstep : arrayPages data (i + 1) = arrayPages data i ++ [pageBase data.descriptors + i * 0x1000] := by
        simp only [arrayPages, List.range_succ, List.map_append, List.map_cons, List.map_nil]
      have hsub : arrayPages data (i + 1) <+: arrayPages data (arrayPageCount data) := (range_isPrefix hlt).map _
      rw [hstep] at hsub
      obtain ⟨hv, hmapped⟩ := hpages _ (hsub.subset (List.mem_append_right _ List.mem_cons_self))
      have hcost := tablesFor_mono (L := largeShift s.mem s.cr3) ((List.prefix_append_right_inj vs).mpr hsub)
      rw [← List.append_assoc] at hcost
      have hends := h.unmap hF hv hmapped (fun a ha => hgood a (List.take_subset_take_left _ hcost ha))
        fun hlt => hfew (hlt.trans_le hcost)
      refine Outcome.ends_bind (Outcome.ends_mono hends fun _ u hu => ?_)
      obtain ⟨hout, hu⟩ := hu
      -- the next page does not wrap: the last addresses belong to the window
      have hnext :
          wrap (pageBase data.descriptors + i * 0x1000 + 0x1000) = pageBase data.descriptors + (i + 1) * 0x1000 := by
        have hcan := hv.canonical
        have hslot := hv.slot
        rw [ne_eq, Fin.ext_iff] at hslot
        simp only [canonical, Bool.or_eq_true, Bool.and_eq_true, decide_eq_true_eq] at hcan
        have hidx : (index (pageBase data.descriptors + i * 0x1000) 39 : Nat) =
          (pageBase data.descriptors + i * 0x1000) / 2 ^ 39 % 512 := rfl
        rw [hidx, show ((511 : Fin 512) : Nat) = 511 from rfl] at hslot
        rw [wrap_of_lt (by omega)]
        omega
      rw [hnext]
      have hrest := ih (i := i + 1) hlt (by rw [hstep, ← List.append_assoc]; exact hu) fun hle => hfuel (by omega)
      exact hout.ends_with hrest
    · have hall : i = arrayPageCount data := by omega
      exact Outcome.ends_of_returns (Outcome.returns_pure _ _) ⟨.refl P t, hall ▸ h⟩

end Turns

/-! ## The array of descriptors -/

/-- A word of the array behind descriptor `k` lies in the frame at `a`. -/
def HoldsUnread (data : EfiMmapData) (s : Kernel) (k a : Nat) : Prop :=
  ∃ w x, data.descAddr (k + 1) ≤ w ∧ w < data.efiMmapEnd ∧ Paging.translate s.mem s.cr3 w = some x ∧
    x / 4096 = a / 4096

/-- The array lies in mapped memory outside the page tables. -/
structure ArrayMapped (data : EfiMmapData) (s : Kernel) : Prop where
  aligned : data.descriptors % 8 = 0
  stride : data.descriptorSize % 8 = 0
  size : 32 ≤ data.descriptorSize
  word : ∀ w, data.descriptors ≤ w → w < data.efiMmapEnd → index w 39 ≠ 511 ∧
    ∃ leaf, walk s.mem s.cr3 w = some leaf ∧ PlainLeaf leaf ∧ ¬IsTable s.mem s.cr3 (leafAddr leaf w / 4096)

/-- The first frames are no tables at the start, and hold no descriptor that has not been read when they
become tables. -/
structure TablesSpared (size : Nat) (data : EfiMmapData) (ds : List EfiMemoryDescriptor) (s : Kernel) : Prop where
  pages : ∀ v ∈ pagesUpTo size data ds ds.length ++ arrayPages data (arrayPageCount data),
    UserPage v ∧ walk s.mem s.cr3 v ≠ none
  frames : ∀ a ∈ (framesUpTo size ds ds.length).take (tablesFor (largeShift s.mem s.cr3)
    (pagesUpTo size data ds ds.length ++ arrayPages data (arrayPageCount data))),
    FrameAddr a ∧ ¬IsTable s.mem s.cr3 (a / 4096)
  unread : ∀ k < ds.length, ∀ a ∈ (framesUpTo size ds (k + 1)).take (tablesFor (largeShift s.mem s.cr3)
    (pagesUpTo size data ds (k + 1))), ¬HoldsUnread data s k a

/-- What `init_mmap` needs to come to its end: slots for the ranges, the frames of the page tables in time, and
a place for the boot image. -/
structure Enough (size : Nat) (data : EfiMmapData) (ds : List EfiMemoryDescriptor) (s : Kernel) : Prop where
  slots : ds.countP (fun d => d.type.usable) ≤ s.physMmap.maxRangeCount
  frames : ∀ k < ds.length, tablesFor (largeShift s.mem s.cr3) (pagesUpTo size data ds (k + 1)) ≤
    (framesUpTo size ds (k + 1)).length
  last : tablesFor (largeShift s.mem s.cr3)
      (pagesUpTo size data ds ds.length ++ arrayPages data (arrayPageCount data)) ≤
    (framesUpTo size ds ds.length).length
  apBoot : Smp.apBootPaddr size ds ≠ none

section Reading

variable {s t : Kernel} {F vs : List Nat} {data : EfiMmapData} {d : EfiMemoryDescriptor} {w v k : Nat}

/-- A word outside the tables is read as at the start. -/
theorem FramesTaken.readsWord (h : FramesTaken s F vs t) {leaf : Nat × Nat} (hw : index w 39 ≠ 511)
    (hwalk : walk s.mem s.cr3 w = some leaf) (hplain : PlainLeaf leaf)
    (hnot : ¬IsTable s.mem s.cr3 (leafAddr leaf w / 4096)) (halign : w % 8 = 0)
    (hoff : ∀ v ∈ vs, w / 4096 ≠ v / 4096) (hfree : leafAddr leaf w / 4096 ∉ (handedOut t).map (· / 4096)) :
    ∃ x, (readWord w).Returns s x s ∧ (readWord w).Returns t x t := by
  have htrans : Paging.translate s.mem s.cr3 w = some (leafAddr leaf w) := by
    rw [Paging.translate, hwalk, Option.map_some]
  have haddr : leafAddr leaf w % 8 = 0 := by
    obtain ⟨e, shift⟩ := leaf
    obtain ⟨-, p, i, n, hslot, -⟩ := leafSlot_of_walk hwalk
    have hdvd : 8 ∣ 2 ^ shift := Nat.pow_dvd_pow 2 (m := 3) (by have := hslot.shift_le.1; omega)
    rw [leafAddr, Nat.add_mod, Nat.mod_mod_of_dvd _ hdvd, halign, Nat.mod_eq_zero_of_dvd (hdvd.mul_left _)]
  have hsplit : leafAddr leaf w =
      4096 * (leafAddr leaf w / 4096) + 8 * ((⟨leafAddr leaf w % 4096 / 8, by omega⟩ : Fin 512) : Nat) := by
    simp only
    omega
  rw [hsplit] at htrans
  have htrans' := (h.walks.kept w leaf hw hwalk hplain hoff).trans htrans
  refine ⟨_, readEntry htrans, ?_⟩
  rw [← h.rows _ hnot hfree]
  exact readEntry htrans'

/-- A descriptor is what its three words say. -/
theorem readDescriptor_kept (hread : (readDescriptor v).Returns s d s)
    (hword : ∀ w ∈ [v, wrap (v + 8), wrap (v + 24)], ∃ x, (readWord w).Returns s x s ∧ (readWord w).Returns t x t) :
    (readDescriptor v).Returns t d t := by
  obtain ⟨x₀, hs₀, ht₀⟩ := hword v (by simp)
  obtain ⟨x₁, hs₁, ht₁⟩ := hword (wrap (v + 8)) (by simp)
  obtain ⟨x₂, hs₂, ht₂⟩ := hword (wrap (v + 24)) (by simp)
  have hs : (readDescriptor v).Returns s ⟨efiMemoryType (x₀ % 2 ^ 32), .ofNat x₁, .ofNat x₂⟩ s :=
    hs₀.bind (hs₁.bind (hs₂.bind (Outcome.returns_pure _ s)))
  obtain ⟨rfl, -⟩ := hread.det hs
  exact ht₀.bind (ht₁.bind (ht₂.bind (Outcome.returns_pure _ t)))

/-- No page of the array is unmapped in the loop. -/
theorem not_mem_pagesUpTo {size j : Nat} {ds : List EfiMemoryDescriptor} (hfirst : data.descriptors ≤ w)
    (hlast : w < data.efiMmapEnd) (hv : v ∈ pagesUpTo size data ds j) (halign : v % 4096 = 0) :
    w / 4096 ≠ v / 4096 := by
  have hend : data.efiMmapEnd < 2 ^ 64 := wrap_lt _
  have hstart : data.descriptors < 2 ^ 64 := by omega
  have hunmap : ∀ d n, v ∈ pagesToUnmap data d n → w / 4096 ≠ v / 4096 := by
    intro d n hv
    obtain ⟨-, hguard⟩ := List.mem_filter.mp hv
    simp only [decide_eq_true_eq, pageBase_eq hstart, pageBase_eq hend] at hguard
    omega
  obtain ⟨i, -, hv⟩ := List.mem_flatMap.mp hv
  cases hd : ds[i]? with
  | none =>
    rw [hd] at hv
    cases hv
  | some d =>
    rw [hd, Option.elim_some] at hv
    unfold pagesOf at hv
    split_ifs at hv
    · cases hv
    · cases hl : leftOf size (unsetAt size ds i) d with
      | none =>
        rw [hl] at hv
        cases hv
      | some l =>
        rw [hl] at hv
        exact hunmap _ _ hv
    · exact hunmap _ _ hv

end Reading

/-! ## The run -/

section Run

variable {size k : Nat} {data : EfiMmapData} {ds : List EfiMemoryDescriptor} {s t : Kernel}

/-- The descriptors give no frame 0. -/
theorem framesUpTo_ne_zero (hwf : MapWf ds) {a : Nat} (ha : a ∈ framesUpTo size ds k) : a ≠ 0 := by
  obtain ⟨i, -, ha⟩ := List.mem_flatMap.mp ha
  cases hd : ds[i]? with
  | none =>
    rw [hd] at ha
    cases ha
  | some d =>
    rw [hd, Option.elim_some] at ha
    unfold framesOf at ha
    split_ifs at ha
    · cases hl : leftOf size (unsetAt size ds i) d with
      | none =>
        rw [hl] at ha
        cases ha
      | some l =>
        rw [hl] at ha
        have hrange := leftOf_wf (hwf.wf d (List.mem_of_getElem? hd)) hl
        have hle := (MemoryRange.mem_pageList_bounds ha).1
        have hpos := hrange.nonzero
        omega
    · cases ha

theorem take_subset_take {F G : List Nat} {m n : Nat} (hFG : F <+: G) (hmn : m ≤ n) : F.take m ⊆ G.take n := by
  obtain ⟨H, rfl⟩ := hFG
  rw [List.take_append]
  exact fun a ha => List.mem_append_left _ (List.take_subset_take_left _ hmn ha)

/-- The frames for the tables of the first descriptors. -/
theorem TablesSpared.good (h : TablesSpared size data ds s) (hwf : MapWf ds) (hk : k < ds.length) :
    ∀ a ∈ (framesUpTo size ds (k + 1)).take (tablesFor (largeShift s.mem s.cr3) (pagesUpTo size data ds (k + 1))),
      GoodFrame s.mem s.cr3 a ∧ ¬HoldsUnread data s k a := by
  intro a ha
  have hpre : pagesUpTo size data ds (k + 1) <+: pagesUpTo size data ds ds.length := pagesUpTo_isPrefix hk
  have hcost := tablesFor_mono (L := largeShift s.mem s.cr3)
    (hpre.trans (List.prefix_append _ (arrayPages data (arrayPageCount data))))
  obtain ⟨haddr, hnot⟩ := h.frames a (take_subset_take (framesUpTo_isPrefix hk) hcost ha)
  exact ⟨⟨haddr, framesUpTo_ne_zero hwf (List.mem_of_mem_take ha), hnot⟩, h.unread k hk a ha⟩

/-- The flag at the turn of descriptor `k`. -/
theorem FramesGiven.unset_eq (h : FramesGiven size (ds.take k) t) : t.apBootPaddrUnset = unsetAt size ds k := by
  have hchoice := h.choice
  unfold unsetAt
  cases hu : t.apBootPaddrUnset with
  | true =>
    rw [hu, if_pos rfl] at hchoice
    rw [hchoice]
    rfl
  | false =>
    rw [hu, if_neg (by decide)] at hchoice
    rw [hchoice]
    rfl

/-- A descriptor is read as it was at the start. -/
theorem FramesTaken.readsDescriptor (h : FramesTaken s (framesUpTo size ds k) (pagesUpTo size data ds k) t)
    (hmap : MapAt data ds s) (harray : ArrayMapped data s) (hspared : TablesSpared size data ds s)
    (hk : k < ds.length) :
    (readDescriptor (data.descAddr k)).Returns t ds[k] t := by
  have hend := hmap.inside
  have hfits : k * data.descriptorSize + data.descriptorSize ≤ data.mmapSize := by
    rw [hmap.size, ← Nat.succ_mul]
    exact Nat.mul_le_mul_right _ hk
  have hsize := harray.size
  have hfirst := harray.aligned
  have hstride : k * data.descriptorSize % 8 = 0 := by
    rw [Nat.mul_mod, harray.stride]
    rfl
  have hefi : data.efiMmapEnd = data.descriptors + data.mmapSize := wrap_of_lt hend
  have haddr : data.descAddr k = data.descriptors + k * data.descriptorSize := rfl
  have hwords : ∀ w, data.descAddr k ≤ w → w < data.descAddr k + 32 → w % 8 = 0 →
      ∃ x, (readWord w).Returns s x s ∧ (readWord w).Returns t x t := by
    intro w hlo hhi halign
    obtain ⟨hw, leaf, hwalk, hplain, hnot⟩ := harray.word w (by omega) (by omega)
    refine h.readsWord hw hwalk hplain hnot halign (fun v hv => ?_) fun hout => ?_
    · have hpre : pagesUpTo size data ds k <+: pagesUpTo size data ds ds.length := pagesUpTo_isPrefix hk.le
      have hsub := hpre.subset hv
      exact not_mem_pagesUpTo (by omega) (by omega) hv (hspared.pages v (List.mem_append_left _ hsub)).1.aligned
    · -- the frame has been given before, and holds no descriptor of now
      obtain ⟨a, ha, heq⟩ := List.mem_map.mp hout
      cases k with
      | zero =>
        have hcount := h.count
        rw [show pagesUpTo size data ds 0 = [] from rfl, tablesFor, Nat.le_zero, List.length_eq_zero_iff] at hcount
        rw [hcount] at ha
        cases ha
      | succ j =>
        have hpre : handedOut t <+: (framesUpTo size ds (j + 1)).take
            (tablesFor (largeShift s.mem s.cr3) (pagesUpTo size data ds (j + 1))) := by
          rw [← h.order, List.take_append, List.take_of_length_le h.count]
          exact List.prefix_append _ _
        refine hspared.unread j (by omega) a (hpre.subset ha) ⟨w, leafAddr leaf w, hlo, by omega, ?_, heq.symm⟩
        rw [Paging.translate, hwalk, Option.map_some]
  refine readDescriptor_kept (hmap.read k _ (List.getElem?_eq_getElem hk)) fun w hw => ?_
  simp only [List.mem_cons, List.not_mem_nil, or_false] at hw
  rw [wrap_of_lt (by omega), wrap_of_lt (by omega)] at hw
  exact hwords w (by omega) (by omega) (by omega)

/-- The frames of a descriptor are given, and its pages are unmapped. -/
theorem FramesTaken.useDescriptor {P : Nat → Prop} {X : Prop} {F vs : List Nat} {qs : List EfiMemoryDescriptor}
    {d : EfiMemoryDescriptor} (h : FramesTaken s F vs t) (hgiven : FramesGiven size qs t) (hwf : DescWf d)
    (hnew : ∀ q ∈ qs, ∀ a ∈ (descRange d).pageList, a ∉ (descRange q).pageList)
    (hpages : ∀ v ∈ pagesOf size data t.apBootPaddrUnset d, UserPage v ∧ walk s.mem s.cr3 v ≠ none)
    (hgood : ∀ a ∈ (F ++ framesOf size t.apBootPaddrUnset d).take
      (tablesFor (largeShift s.mem s.cr3) (vs ++ pagesOf size data t.apBootPaddrUnset d)),
      GoodFrame s.mem s.cr3 a ∧ P a)
    (hfew : (F ++ framesOf size t.apBootPaddrUnset d).length <
      tablesFor (largeShift s.mem s.cr3) (vs ++ pagesOf size data t.apBootPaddrUnset d) → X)
    (hfull : d.type.usable = true → t.physMmap.maxRangeCount ≤ t.physMmap.rangeCount → X) :
    Outcome.ends (fun _ u => HandsOut P t u ∧ FramesTaken s (F ++ framesOf size t.apBootPaddrUnset d)
        (vs ++ pagesOf size data t.apBootPaddrUnset d) u)
      (fun u => HandsOut P t u ∧ X) (useDescriptor size data d) t := by
  unfold Heap.useDescriptor
  unfold pagesOf at hpages
  unfold framesOf pagesOf at hgood hfew ⊢
  by_cases hkernel : d.type = .kernel
  · have hnone : ¬d.type.usable = true := by
      rw [hkernel]
      decide
    rw [if_pos hkernel, if_pos hkernel, if_neg hnone, List.append_nil, List.append_nil]
    exact Outcome.ends_of_returns (Outcome.returns_pure _ _) ⟨.refl _ t, h⟩
  rw [if_neg hkernel] at hgood hfew hpages ⊢
  rw [if_neg hkernel]
  by_cases husable : d.type.usable = true
  · rw [if_pos husable] at hpages ⊢
    simp only [if_pos husable] at hgood hfew ⊢
    have hgive := Outcome.ends_and (giveFrames_ends size hwf t) fun _ u hret =>
      hret.of_wp (giveFrames_wp hgiven hwf husable hnew)
    refine Outcome.ends_bind (Outcome.ends_weaken (Outcome.ends_mono hgive fun left u hu => ?_) fun u hu => ?_)
    swap
    · exact ⟨⟨hu.1.1, [], by rw [hu.1.2, List.append_nil], by simp⟩, hfull husable hu.2⟩
    obtain ⟨⟨rfl, hmem, hcr3, hlog, hfree⟩, hgiven'⟩ := hu
    have hout : handedOut u = handedOut t := by rw [handedOut, hlog, handedOut]
    have horder : handedOut u ++ u.physMmap.freePages = F ++
        (leftOf size t.apBootPaddrUnset d).elim [] fun l => (descRange l).pageList := by
      rw [hout, hfree, ← List.append_assoc, h.order]
    have hnodup := hgiven'.accounts.nodup
    rw [horder] at hnodup
    have htaken :
        FramesTaken s (F ++ (leftOf size t.apBootPaddrUnset d).elim [] fun l => (descRange l).pageList) vs u := by
      refine ⟨hgiven'.accounts.wf, hcr3.trans h.cr3, ?_, horder, ?_, ?_, ?_, ?_⟩
      · rw [hmem, hcr3]
        exact h.pageTables
      · rw [hout]
        exact h.count
      · rw [hmem, hcr3, hout]
        exact h.reach
      · rw [hmem, hout]
        exact h.rows
      · obtain ⟨h₁, h₂, h₃, h₄, h₅, h₆⟩ := h.walks
        refine ⟨h₁, ?_, ?_, ?_, ?_, ?_⟩ <;> rw [hmem, hcr3] <;> assumption
    have hstart : HandsOut P t u := ⟨hcr3, [], by rw [hlog, List.append_nil], by simp⟩
    cases hl : leftOf size t.apBootPaddrUnset d with
    | none =>
      rw [hl] at htaken
      refine Outcome.ends_of_returns (Outcome.returns_pure _ _) ⟨hstart, ?_⟩
      rw [show vs ++ Option.elim none [] (fun l => pagesToUnmap data l l.numberOfPages.toNat) = vs from
        List.append_nil vs]
      exact htaken
    | some l =>
      rw [hl] at htaken hnodup hgood hfew hpages
      have hends := htaken.unmapDescriptor hnodup hpages hgood hfew
      exact hstart.ends_with hends
  · rw [if_neg husable] at hpages ⊢
    simp only [if_neg husable, List.append_nil] at hgood hfew ⊢
    have hnodup := hgiven.accounts.nodup
    rw [h.order] at hnodup
    exact h.unmapDescriptor hnodup hpages hgood hfew

/-- The static variables that `init_mmap` leaves alone, and `c` ranges in the map at most. -/
structure RangesWithin (s : Kernel) (c : Nat) (u : Kernel) : Prop where
  heapEnd : u.kernelHeapEnd = s.kernelHeapEnd
  max : u.physMmap.maxRangeCount = s.physMmap.maxRangeCount
  count : u.physMmap.rangeCount ≤ c

theorem RangesWithin.withMem {c : Nat} (h : RangesWithin s c u) (m : Mem) : RangesWithin s c { u with mem := m } :=
  ⟨h.heapEnd, h.max, h.count⟩

theorem RangesWithin.alloc {c : Nat} (h : RangesWithin s c u) : RangesWithin s c (u.allocated 1) := by
  obtain ⟨hmax, hcount⟩ := mmapGetPages_counts u.physMmap 1
  refine ⟨?_, ?_, ?_⟩
  · rw [← h.heapEnd]
    rfl
  · rw [allocated_physMmap, hmax, h.max]
  · rw [allocated_physMmap]
    exact hcount.trans h.count

/-- A usable descriptor adds one range. -/
theorem RangesWithin.useDescriptor {c : Nat} {d : EfiMemoryDescriptor} (h : RangesWithin s c t) (hwf : DescWf d) :
    Outcome.wp (fun _ => True) (useDescriptor size data d)
      (fun _ u => RangesWithin s (c + if d.type.usable then 1 else 0) u) t := by
  have hunmap : ∀ e c v, RangesWithin s e v →
      Outcome.wp (fun _ => True) (unmapDescriptor data c) (fun _ u => RangesWithin s e u) v := by
    intro e c v hv
    have hkeeps := keeps_unmapDescriptor (I := RangesWithin s e) (fun _ m h => h.withMem m) (fun _ h => h.alloc) data c
    rcases Outcome.returns_or_stops (unmapDescriptor data c) v with ⟨_, u, hret⟩ | ⟨_, u, hstop⟩
    · exact Outcome.wp_of_returns hret (hkeeps.returns hv hret)
    · exact Outcome.wp_of_stops hstop trivial
  have hmore : RangesWithin s (c + if d.type.usable then 1 else 0) t :=
    ⟨h.heapEnd, h.max, h.count.trans (Nat.le_add_right _ _)⟩
  unfold Heap.useDescriptor
  refine Outcome.wp_ite (fun _ => Outcome.wp_of_returns (Outcome.returns_pure _ _) hmore) fun _ =>
    Outcome.wp_ite (fun husable => ?_) fun _ => hunmap _ d t hmore
  rw [if_pos husable] at hmore ⊢
  obtain ⟨left, s₁, hret, hleft, -, -, -, hmap, hend⟩ := takeApBoot_left size d t
  refine Outcome.wp_bind (Outcome.wp_bind_returns hret ?_)
  rw [hleft]
  cases hl : leftOf size t.apBootPaddrUnset d with
  | none =>
    refine Outcome.wp_of_returns (Outcome.returns_pure _ _) (Outcome.wp_of_returns (Outcome.returns_pure _ _) ?_)
    exact ⟨hend.trans hmore.heapEnd, hmap ▸ hmore.max, hmap ▸ hmore.count⟩
  | some l =>
    have hadd := mmapAddRange_eq s₁.physMmap l.physicalStart.toNat (Nat.pos_iff_ne_zero.mp (leftOf_wf hwf hl).pos)
    refine Outcome.wp_bind (Outcome.wp_bind_returns (Outcome.returns_gets _ _) ?_)
    refine Outcome.wp_bind_returns (Outcome.returns_modify _ _) ?_
    simp only [descRange] at hadd
    split_ifs at hadd with hroom
    · obtain ⟨m', hadd, -, hmax, hcount⟩ := hadd
      rw [hadd, if_neg (by simp)]
      refine Outcome.wp_of_returns (Outcome.returns_pure _ _) (Outcome.wp_of_returns (Outcome.returns_pure _ _) ?_)
      refine hunmap _ l _ ⟨hend.trans h.heapEnd, ?_, ?_⟩
      · exact hmax.trans ((congrArg _ hmap).trans h.max)
      · have hc := h.count
        rw [← hmap] at hc
        exact hcount.trans_le (Nat.succ_le_succ hc)
    · rw [hadd, if_pos (by simp)]
      exact Outcome.wp_of_stops (Outcome.stops_stop _ _) trivial

/-- The turn of a descriptor. -/
theorem FramesTaken.round {X : Prop} (h : FramesTaken s (framesUpTo size ds k) (pagesUpTo size data ds k) t)
    (hgiven : FramesGiven size (ds.take k) t) (hranges : RangesWithin s ((ds.take k).countP fun d => d.type.usable) t)
    (hmap : MapAt data ds s) (hwf : MapWf ds) (harray : ArrayMapped data s)
    (hspared : TablesSpared size data ds s) (hk : k < ds.length) (hX : ¬Enough size data ds s → X) :
    Outcome.ends (fun _ u => HandsOut (fun a => ¬HoldsUnread data s k a) t u ∧
        FramesTaken s (framesUpTo size ds (k + 1)) (pagesUpTo size data ds (k + 1)) u ∧
        FramesGiven size (ds.take (k + 1)) u ∧ RangesWithin s ((ds.take (k + 1)).countP fun d => d.type.usable) u)
      (fun u => HandsOut (fun a => ¬HoldsUnread data s k a) t u ∧ X) (initMmapRound size data (data.descAddr k)) t := by
  have hd : ds[k]? = some ds[k] := List.getElem?_eq_getElem hk
  have hdwf := hwf.wf ds[k] (List.getElem_mem hk)
  -- no page of the descriptor is one of the descriptors before it
  have hnew : ∀ q ∈ ds.take k, ∀ a ∈ (descRange ds[k]).pageList, a ∉ (descRange q).pageList := by
    intro q hq a ha hc
    obtain ⟨i, hi, rfl⟩ := List.mem_take_iff_getElem.mp hq
    have hdisj := List.pairwise_iff_getElem.mp hwf.disjoint i k (by omega) hk (by omega)
    exact MemoryRange.not_mem_both hdisj hc ha
  have hgood := hspared.good hwf hk
  have hpages : ∀ v ∈ pagesUpTo size data ds (k + 1), UserPage v ∧ walk s.mem s.cr3 v ≠ none := fun v hv =>
    hspared.pages v (List.mem_append_left _ ((pagesUpTo_isPrefix hk).subset hv))
  have hfew : (framesUpTo size ds (k + 1)).length <
      tablesFor (largeShift s.mem s.cr3) (pagesUpTo size data ds (k + 1)) → X := fun hlt =>
    hX fun henough => absurd (henough.frames k hk) (Nat.not_le_of_lt hlt)
  have hcount : (ds.take (k + 1)).countP (fun d => d.type.usable) =
      (ds.take k).countP (fun d => d.type.usable) + if ds[k].type.usable then 1 else 0 := by
    rw [List.take_succ_eq_append_getElem hk, List.countP_append, List.countP_singleton]
  -- a usable descriptor finds a slot
  have hfull : ds[k].type.usable = true → t.physMmap.maxRangeCount ≤ t.physMmap.rangeCount → X := by
    refine fun husable hle => hX fun henough => ?_
    have hall : (ds.take (k + 1)).countP (fun d => d.type.usable) ≤ ds.countP (fun d => d.type.usable) :=
      (List.take_sublist _ _).countP_le
    rw [hcount, if_pos husable] at hall
    have hslots := henough.slots
    have hmax := hranges.max
    have hcnt := hranges.count
    omega
  rw [framesUpTo_succ hd] at hgood hfew ⊢
  rw [pagesUpTo_succ hd] at hgood hfew hpages ⊢
  rw [← hgiven.unset_eq] at hgood hfew hpages ⊢
  refine Outcome.ends_bind_returns (h.readsDescriptor hmap harray hspared hk) ?_
  have hends := h.useDescriptor hgiven hdwf hnew (fun v hv => hpages v (List.mem_append_right _ hv)) hgood hfew hfull
  refine Outcome.ends_mono (Outcome.ends_and hends fun _ u hret =>
    And.intro (hret.of_wp (useDescriptor_wp data hgiven hdwf hnew)) (hret.of_wp (hranges.useDescriptor hdwf)))
    fun _ u hu => ⟨hu.1.1, hu.1.2, ?_, ?_⟩
  · rw [List.take_succ_eq_append_getElem hk]
    exact hu.2.1
  · rw [hcount]
    exact hu.2.2

/-- The loop after any number of descriptors. -/
theorem InitMmapRun.framesTaken (hrun : InitMmapRun size data s k t) (hentry : AtEntry s)
    (hpt : PageTables s.mem s.cr3) (hmap : MapAt data ds s) (hwf : MapWf ds) (harray : ArrayMapped data s)
    (hspared : TablesSpared size data ds s) (hk : k ≤ ds.length) :
    FramesTaken s (framesUpTo size ds k) (pagesUpTo size data ds k) t ∧ FramesGiven size (ds.take k) t ∧
      RangesWithin s ((ds.take k).countP fun d => d.type.usable) t := by
  induction hrun with
  | start =>
    have hgiven : FramesGiven size [] s := hentry.framesGiven
    have hout : handedOut s = [] := by rw [handedOut, hentry.noneOut, List.flatMap_nil]
    refine ⟨⟨hgiven.accounts.wf, rfl, hpt, ?_, ?_, fun n hn => .inl hn, fun _ _ _ => rfl, .refl s⟩, hgiven,
      rfl, rfl, hentry.empty.le⟩
    · rw [hout, MemoryMap.freePages, MemoryMap.ranges, hentry.empty]
      rfl
    · rw [hout]
      exact Nat.zero_le _
  | @round k t t' _ hround ih =>
    obtain ⟨htaken, hgiven, hranges⟩ := ih (Nat.le_of_succ_le hk)
    exact (hround.of_ends (htaken.round (X := True) hgiven hranges hmap hwf harray hspared hk fun _ => trivial)).2

/-- No page table is put over a descriptor that is still to be read. -/
theorem TablesSpared.descriptorsKept (hspared : TablesSpared size data ds s) (hentry : AtEntry s)
    (hpt : PageTables s.mem s.cr3) (hmap : MapAt data ds s) (hwf : MapWf ds) (harray : ArrayMapped data s) :
    DescriptorsKept size data s := by
  intro k t hrun hlt
  have hk : k < ds.length := by
    have hefi : data.efiMmapEnd = data.descriptors + ds.length * data.descriptorSize := by
      rw [← hmap.size]
      exact wrap_of_lt hmap.inside
    rw [hefi] at hlt
    exact Nat.lt_of_mul_lt_mul_right (Nat.lt_of_add_lt_add_left hlt)
  obtain ⟨htaken, -⟩ := hrun.framesTaken hentry hpt hmap hwf harray hspared hk.le
  have hnow := htaken.readsDescriptor hmap harray hspared hk
  have hthen := hmap.read k ds[k] (List.getElem?_eq_getElem hk)
  rw [show readDescriptor _ t = _ from hnow, show readDescriptor _ s = _ from hthen]

/-- What `init_mmap` gives is settled at its start: the frames are those of the map. -/
theorem TablesSpared.framesOfMap {fuel : Nat} (hspared : TablesSpared size data ds s) (hentry : AtEntry s)
    (hpt : PageTables s.mem s.cr3) (hmap : MapAt data ds s) (hwf : MapWf ds) (harray : ArrayMapped data s)
    (hret : (initMmap size data fuel).Returns s () t) : FramesOfMap size ds t := by
  have hkept := hspared.descriptorsKept hentry hpt hmap hwf harray
  obtain ⟨hgiven, hset⟩ := initMmap_gives hentry hmap hwf hkept hret
  exact hgiven.framesOfMap hset hwf

/-- The loop, from any descriptor on. -/
theorem descriptorLoop_ends {X : Prop} (hentry : AtEntry s) (hpt : PageTables s.mem s.cr3) (hmap : MapAt data ds s)
    (hwf : MapWf ds) (harray : ArrayMapped data s) (hspared : TablesSpared size data ds s)
    (hX : ¬Enough size data ds s → X) (fuel : Nat) (hfuel : fuel ≤ ds.length - k → X)
    (hrun : InitMmapRun size data s k t) (hk : k ≤ ds.length) :
    Outcome.ends (fun _ u => HandsOut (fun _ => True) t u ∧ InitMmapRun size data s ds.length u)
      (fun u => HandsOut (fun _ => True) t u ∧ X) (descriptorLoop size data fuel (data.descAddr k)) t := by
  induction fuel generalizing k t with
  | zero => exact Outcome.ends_of_stops (Outcome.stops_stop _ _) ⟨.refl _ t, hfuel (Nat.zero_le _)⟩
  | succ fuel ih =>
    obtain ⟨hlt, hiff⟩ := hmap.addr_lt hk
    rw [descriptorLoop]
    split_ifs with hend
    · have hk' := hiff.mp hend
      obtain ⟨htaken, hgiven, hranges⟩ := hrun.framesTaken hentry hpt hmap hwf harray hspared hk
      have hround := htaken.round hgiven hranges hmap hwf harray hspared hk' hX
      have hnext : wrap (data.descAddr k + data.descriptorSize) = data.descAddr (k + 1) := by
        have hsum : data.descAddr k + data.descriptorSize = data.descAddr (k + 1) := by
          unfold EfiMmapData.descAddr
          rw [Nat.succ_mul, Nat.add_assoc]
        rw [hsum, wrap_of_lt (hmap.addr_lt hk').1]
      rw [hnext]
      have hrounds := Outcome.ends_and (Outcome.ends_mono hround fun _ _ hu => hu.1.any) fun _ u hret =>
        hrun.round hret
      refine Outcome.ends_bind (Outcome.ends_weaken (Outcome.ends_mono hrounds fun _ u hu => ?_)
        fun _ hu => ⟨hu.1.any, hu.2⟩)
      exact hu.1.ends_with (ih (fun hle => hfuel (by omega)) hu.2 hk')
    · have hall : k = ds.length := by
        have := mt hiff.mpr hend
        omega
      exact Outcome.ends_of_returns (Outcome.returns_pure _ _) ⟨.refl _ t, hall ▸ hrun⟩

/-- The whole call. It returns, unless there is not enough of something. -/
theorem initMmap_ends (hentry : AtEntry s) (hpt : PageTables s.mem s.cr3) (hmap : MapAt data ds s) (hwf : MapWf ds)
    (harray : ArrayMapped data s) (hspared : TablesSpared size data ds s) (fuel : Nat) :
    Outcome.ends (fun _ t => HandsOut (fun _ => True) s t ∧ FramesTaken s (framesUpTo size ds ds.length)
        (pagesUpTo size data ds ds.length ++ arrayPages data (arrayPageCount data)) t ∧
          RangesWithin s (ds.countP fun d => d.type.usable) t ∧ (framesUpTo size ds ds.length).Nodup)
      (fun t => HandsOut (fun _ => True) s t ∧
        ¬(Enough size data ds s ∧ ds.length < fuel ∧ arrayPageCount data < fuel)) (initMmap size data fuel) s := by
  have hstart : data.descAddr 0 = data.descriptors := by simp [EfiMmapData.descAddr]
  have hloop := descriptorLoop_ends
    (X := ¬(Enough size data ds s ∧ ds.length < fuel ∧ arrayPageCount data < fuel)) hentry hpt hmap hwf harray hspared
    (fun hnot hall => hnot hall.1) fuel (fun hle hall => by omega) .start (Nat.zero_le _)
  rw [hstart] at hloop
  refine Outcome.ends_bind (Outcome.ends_mono hloop fun _ t ht => ?_)
  obtain ⟨hout, hrun⟩ := ht
  obtain ⟨htaken, hgiven, hranges⟩ := hrun.framesTaken hentry hpt hmap hwf harray hspared le_rfl
  rw [List.take_length] at hranges
  refine Outcome.ends_bind_returns (Outcome.returns_gets _ t) ?_
  cases hunset : t.apBootPaddrUnset with
  | true =>
    refine Outcome.ends_of_stops (Outcome.stops_stop _ _) ⟨hout, fun hall => hall.1.apBoot ?_⟩
    have hboot := hgiven.unset_eq
    rw [hunset, unsetAt, List.take_length] at hboot
    exact Option.isNone_iff_eq_none.mp hboot.symm
  | false =>
    have hnodup := hgiven.accounts.nodup
    rw [htaken.order] at hnodup
    have hgood : ∀ a ∈ (framesUpTo size ds ds.length).take (tablesFor (largeShift s.mem s.cr3)
        (pagesUpTo size data ds ds.length ++ arrayPages data (arrayPageCount data))),
        GoodFrame s.mem s.cr3 a ∧ True := fun a ha =>
      ⟨⟨(hspared.frames a ha).1, framesUpTo_ne_zero hwf (List.mem_of_mem_take ha), (hspared.frames a ha).2⟩, trivial⟩
    have hfirst : pageBase data.descriptors ≤ data.efiMmapEnd := by
      have hend : data.efiMmapEnd = data.descriptors + data.mmapSize := wrap_of_lt hmap.inside
      have hbase := pageBase_eq (x := data.descriptors) (by have := hmap.inside; omega)
      omega
    have hnone :
        FramesTaken s (framesUpTo size ds ds.length) (pagesUpTo size data ds ds.length ++ arrayPages data 0) t := by
      rw [show arrayPages data 0 = [] from rfl, List.append_nil]
      exact htaken
    have hends := FramesTaken.unmapArray (X := ¬(Enough size data ds s ∧ ds.length < fuel ∧ arrayPageCount data < fuel))
      hnodup (fun v hv => hspared.pages v (List.mem_append_right _ hv)) hgood
      (fun hlt hall => absurd hall.1.last (Nat.not_le_of_lt hlt)) (Nat.zero_le _) hnone hfirst fuel
      (fun hle hall => by omega)
    rw [Nat.zero_mul, Nat.add_zero] at hends
    have hkeeps := keeps_unmapArray (I := RangesWithin s (ds.countP fun d => d.type.usable))
      (fun _ m h => h.withMem m) (fun _ h => h.alloc) data.efiMmapEnd fuel (pageBase data.descriptors)
    have hboth := Outcome.ends_and hends fun _ u hret => hkeeps.returns hranges hret
    exact hout.ends_with (Outcome.ends_mono hboth fun _ u hu => ⟨hu.1.1, hu.1.2, hu.2, hnodup⟩)

/-- With enough of everything the call returns. -/
theorem initMmap_returns {fuel : Nat} (hentry : AtEntry s) (hpt : PageTables s.mem s.cr3) (hmap : MapAt data ds s)
    (hwf : MapWf ds) (harray : ArrayMapped data s) (hspared : TablesSpared size data ds s)
    (henough : Enough size data ds s) (hfuel : ds.length < fuel ∧ arrayPageCount data < fuel) :
    ∃ t, (initMmap size data fuel).Returns s () t ∧ FramesTaken s (framesUpTo size ds ds.length)
        (pagesUpTo size data ds ds.length ++ arrayPages data (arrayPageCount data)) t ∧
      RangesWithin s (ds.countP fun d => d.type.usable) t ∧ (framesUpTo size ds ds.length).Nodup := by
  have hends := initMmap_ends hentry hpt hmap hwf harray hspared fuel
  obtain ⟨⟨⟩, t, hret, -, hleft⟩ := Outcome.returns_of_ends hends fun _ h => h.2 ⟨henough, hfuel⟩
  exact ⟨t, hret, hleft⟩

/-- **Frames in use.** No frame that `init_mmap` takes for a page table is one that the page tables of that
moment use, and none holds a descriptor that is still to be read, also in calls that panic. -/
theorem initMmap_spares (hentry : AtEntry s) (hpt : PageTables s.mem s.cr3) (hmap : MapAt data ds s) (hwf : MapWf ds)
    (harray : ArrayMapped data s) (hspared : TablesSpared size data ds s) :
    (∀ fuel, HandsOut (fun _ => True) s ((initMmap size data fuel).after s)) ∧
      ∀ k t, InitMmapRun size data s k t → k < ds.length →
        HandsOut (fun a => ¬HoldsUnread data s k a) t ((initMmapRound size data (data.descAddr k)).after t) := by
  refine ⟨fun fuel => ?_, fun k t hrun hk => ?_⟩
  · have hends := initMmap_ends hentry hpt hmap hwf harray hspared fuel
    exact Outcome.after_of_ends (Outcome.ends_weaken hends fun _ h => h.1) fun _ _ h => h.1
  · obtain ⟨htaken, hgiven, hranges⟩ := hrun.framesTaken hentry hpt hmap hwf harray hspared hk.le
    have hends := htaken.round (X := True) hgiven hranges hmap hwf harray hspared hk fun _ => trivial
    exact Outcome.after_of_ends (Outcome.ends_weaken hends fun _ h => h.1) fun _ _ h => h.1

/-- One frame is needed for the pages of the first descriptor, and it holds no other descriptor. -/
theorem bootKernel_spared : ArrayMapped (arrayOf 1) bootKernel ∧
    TablesSpared 0x5022 (arrayOf 1) [lowPages] bootKernel := by
  obtain ⟨-, htables, -, -, hwalk⟩ := bootKernel_tables
  have hnot : ∀ n, n ≠ 1 → n ≠ 2 → n ≠ 3 → ¬IsTable bootKernel.mem bootKernel.cr3 n := by
    intro n h₁ h₂ h₃ ht
    have := htables n ht
    omega
  have hend : (arrayOf 1).efiMmapEnd = 0x160B0 := by decide
  have hframes : framesUpTo 0x5022 [lowPages] 1 = [0x16000, 0x17000, 0x18000, 0x19000] := by decide
  have hpages : pagesUpTo 0x5022 (arrayOf 1) [lowPages] 1 = [0x17000, 0x18000, 0x19000] := by decide
  have harray : arrayPages (arrayOf 1) (arrayPageCount (arrayOf 1)) = [0x16000] := by decide
  have hlarge : ∀ v < 0x200000, largeShift bootKernel.mem bootKernel.cr3 v = some 21 := fun v hv =>
    largeShift_eq_some.mpr ⟨by decide, _, hwalk v hv⟩
  -- all pages lie in one large page
  have hcost : ∀ vs, (∀ v ∈ vs, v < 0x200000) →
      tablesFor (largeShift bootKernel.mem bootKernel.cr3) (0x17000 :: vs) = 1 := by
    intro vs hvs
    rw [tablesFor, hlarge 0x17000 (by decide), tablesFor_eq_zero fun v hv => ?_]
    · rfl
    · have hv' := hvs v hv
      rw [splitBlock_some (hlarge 0x17000 (by decide)), if_pos (by omega)]
  refine ⟨⟨by decide, by decide, by decide, fun w hlo hhi => ?_⟩,
    ⟨fun v hv => ?_, fun a ha => ?_, fun k hk a _ hc => ?_⟩⟩
  · rw [hend] at hhi
    simp only [arrayOf] at hlo
    refine ⟨(leafSlot_low (by omega)).2.1, _, hwalk w (by omega), .inr (by decide), ?_⟩
    have haddr : leafAddr (0x83, 21) w = w := by
      show 0x83 / 2 ^ 21 % 2 ^ (52 - 21) * 2 ^ 21 + w % 2 ^ 21 = w
      omega
    rw [haddr]
    exact hnot _ (by omega) (by omega) (by omega)
  · have hv' : v < 0x200000 ∧ v % 4096 = 0 := by
      rw [List.length_singleton, hpages, harray] at hv
      simp only [List.cons_append, List.nil_append, List.mem_cons, List.not_mem_nil, or_false] at hv
      omega
    refine ⟨⟨(leafSlot_low hv'.1).1, hv'.2, (leafSlot_low hv'.1).2.1⟩, ?_⟩
    rw [hwalk v hv'.1]
    simp
  · rw [List.length_singleton, hframes, hpages, harray, List.cons_append, hcost _ (by decide), List.take_succ_cons,
      List.take_zero, List.mem_singleton] at ha
    subst ha
    exact ⟨⟨by decide, by decide⟩, hnot _ (by decide) (by decide) (by decide)⟩
  · -- there is no other descriptor
    obtain ⟨w, x, hlo, hhi, -⟩ := hc
    obtain rfl : k = 0 := by
      rw [List.length_singleton] at hk
      omega
    rw [hend] at hhi
    have haddr : (arrayOf 1).descAddr (0 + 1) = 0x160B0 := by decide
    omega

theorem bootKernel_mapOne : MapAt (arrayOf 1) [lowPages] bootKernel ∧ MapWf [lowPages] := by
  refine ⟨⟨by decide, rfl, by decide, fun k d hd => ?_⟩, fun d hd => ?_, List.pairwise_singleton _ _⟩
  · obtain rfl : k = 0 := by
      cases k with
      | zero => rfl
      | succ k => cases hd
    exact bootKernel_map.read 0 d hd
  · rw [List.mem_singleton] at hd
    exact hd ▸ bootKernel_mapWf.wf lowPages List.mem_cons_self

theorem initMmap_spares_lowPages :
    (∀ fuel, HandsOut (fun _ => True) bootKernel ((initMmap 0x5022 (arrayOf 1) fuel).after bootKernel)) ∧
      ∀ k t, InitMmapRun 0x5022 (arrayOf 1) bootKernel k t → k < 1 →
        HandsOut (fun a => ¬HoldsUnread (arrayOf 1) bootKernel k a) t
          ((initMmapRound 0x5022 (arrayOf 1) ((arrayOf 1).descAddr k)).after t) :=
  initMmap_spares bootKernel_atEntry bootKernel_tables.1 bootKernel_mapOne.1 bootKernel_mapOne.2 bootKernel_spared.1
    bootKernel_spared.2

end Run

end KoalemOS.Heap
