import KoalemOS.Paging.Refinement

/-!
# `map_page` on a kernel whose free frames are free

`FreeFrames` says that `phys_mmap` lists frames that can become tables. Then `map_page` does
what `Edited` says, with frames from `phys_mmap`, or panics for want of a frame
(`mapPage_wp`).
-/

namespace KoalemOS.Paging

open KoalemOS.Library KoalemOS.Mmap

/-- The pages `phys_mmap` lists can become tables. -/
structure FreeFrames (s : Kernel) : Prop where
  wf : s.physMmap.Wf
  good : ∀ a ∈ s.physMmap.freePages, GoodFrame s.mem s.cr3 a

/-! ## Frames taken one by one -/

theorem pageList_one (a : Nat) : MemoryRange.pageList ⟨a, 1⟩ = [a] := rfl

/-- A frame that is taken was listed, and is listed no more. -/
theorem takeFrame_pages {m : MemoryMap} (hwf : m.Wf) (h : (mmapGetPages m 1).1 ≠ 0) :
    (mmapGetPages m 1).2.Wf ∧
      m.freePages.Perm ((mmapGetPages m 1).1 :: (mmapGetPages m 1).2.freePages) := by
  obtain ⟨hwf', -, hperm⟩ := mmapGetPages_pages hwf Nat.one_pos h
  rw [pageList_one] at hperm
  exact ⟨hwf', hperm⟩

theorem takeFrames_pages {k : Nat} {m : MemoryMap} (hwf : m.Wf)
    (h : ∀ a ∈ (takeFrames k m).1, a ≠ 0) :
    (takeFrames k m).2.Wf ∧
      m.freePages.Perm ((takeFrames k m).1 ++ (takeFrames k m).2.freePages) := by
  induction k generalizing m with
  | zero => exact ⟨hwf, List.Perm.refl _⟩
  | succ k ih =>
    simp only [takeFrames, List.mem_cons, forall_eq_or_imp] at h ⊢
    obtain ⟨hwf₁, hperm₁⟩ := takeFrame_pages hwf h.1
    obtain ⟨hwf₂, hperm₂⟩ := ih hwf₁ h.2
    exact ⟨hwf₂, hperm₁.trans (List.Perm.cons _ hperm₂)⟩

theorem takeFrames_length (k : Nat) (m : MemoryMap) : (takeFrames k m).1.length = k := by
  induction k generalizing m with
  | zero => rfl
  | succ k ih => rw [takeFrames, List.length_cons, ih]

/-- A map that lists a page gives one. -/
theorem takeFrame_ne_zero {m : MemoryMap} (hwf : m.Wf) (h : 0 < m.freePages.length) :
    (mmapGetPages m 1).1 ≠ 0 := by
  intro hzero
  obtain ⟨a, ha⟩ := List.exists_mem_of_length_pos h
  obtain ⟨r, hr, har⟩ := List.mem_flatMap.mp ha
  obtain ⟨i, hi, -⟩ := MemoryRange.mem_pageList.mp har
  have := (mmapGetPages_zero hwf).1.mp hzero r hr
  omega

/-- As many frames are found as the map lists. -/
theorem takeFrames_ne_zero {k : Nat} {m : MemoryMap} (hwf : m.Wf) (hk : k ≤ m.freePages.length) :
    ∀ a ∈ (takeFrames k m).1, a ≠ 0 := by
  induction k generalizing m with
  | zero => simp [takeFrames]
  | succ k ih =>
    have hne := takeFrame_ne_zero hwf (by omega)
    obtain ⟨hwf', hperm⟩ := takeFrame_pages hwf hne
    have hlen := hperm.length_eq
    rw [List.length_cons] at hlen
    intro a ha
    rw [takeFrames, List.mem_cons] at ha
    rcases ha with rfl | ha
    · exact hne
    · exact ih hwf' (by omega) a ha

/-- Frames that were found are fresh. -/
theorem FreeFrames.fresh {s : Kernel} (h : FreeFrames s) {k : Nat}
    (hk : ∀ a ∈ (takeFrames k s.physMmap).1, a ≠ 0) : FreshFrames s k := by
  obtain ⟨-, hperm⟩ := takeFrames_pages h.wf hk
  refine ⟨fun a ha => h.good a (hperm.symm.subset (List.mem_append_left _ ha)), ?_⟩
  exact (List.nodup_append.mp (hperm.nodup_iff.mp h.wf.freePages_nodup)).1

/-! ## The parts of a call -/

/-- The kernel has given up. -/
def IsPanic (e : Stop) : Prop := ∃ message, e = .kernelPanic message

theorem isPanic_kernelPanic {α : Type} (message : String) (Q : α → Kernel → Prop) (s : Kernel) :
    Outcome.wp IsPanic (kernelPanic message : KernelM α) Q s :=
  Outcome.wp_of_stops (Outcome.stops_stop _ s) ⟨message, rfl⟩

/-- A part of `map_page` without a frame for its missing table. -/
theorem part_panics {s : Kernel} {addr e : Nat} {m₁ : KernelM Unit} {m₂ : Nat → KernelM Unit}
    {message : String} {Q : Unit → Kernel → Prop} (hread : (readWord addr).Returns s e s)
    (habs : present e = false) (hframe : (mmapGetPages s.physMmap 1).1 = 0) :
    Outcome.wp IsPanic (readWord addr >>= fun e => if present e then m₁ else
      allocPhysPages 1 >>= fun t => if t ≠ 0 then m₂ t else kernelPanic message) Q s := by
  refine Outcome.wp_bind_returns hread ?_
  rw [habs, if_neg (by decide)]
  refine Outcome.wp_bind_returns (returns_allocPhysPages s 1) ?_
  rw [if_neg (not_not.mpr hframe)]
  exact isPanic_kernelPanic message Q _

section Parts

variable {s s' : Kernel} {p : List (Fin 512)} {i : Fin 512} {n v : Nat}

/-- Without large pages, a missing table has an absent entry. -/
theorem absent_of_missing (hl : NoLargePage s.mem s.cr3 v) (hu : UpperOf v p i)
    (hn : tableAt s.mem s.cr3 p = some n) (hnone : tableAt s.mem s.cr3 (p ++ [i]) = none) :
    present (tables s.mem n i) = false := by
  by_contra hc
  refine hl.link_ne_none hu hn (by simpa using hc) ?_
  rwa [tableAt_concat, hn, Option.bind_some] at hnone

/-- After a part of `map_page` that found its frame the free frames are free. -/
theorem FreeFrames.after (h : FreeFrames s) (hs : TableStep s s' p)
    (hframe : tableAt s.mem s.cr3 p = none → (mmapGetPages s.physMmap 1).1 ≠ 0) :
    (∀ a ∈ (takeFrames (missing s.mem s.cr3 p) s.physMmap).1, a ≠ 0) ∧ FreeFrames s' := by
  have hnonzero : ∀ a ∈ (takeFrames (missing s.mem s.cr3 p) s.physMmap).1, a ≠ 0 := by
    intro a ha
    by_cases hnone : tableAt s.mem s.cr3 p = none
    · rw [missing, if_pos hnone] at ha
      rw [List.mem_singleton.mp ha]
      exact hframe hnone
    · rw [missing, if_neg hnone] at ha
      cases ha
  obtain ⟨hwf, hperm⟩ := takeFrames_pages h.wf hnonzero
  have hcr3 : s'.cr3 = s.cr3 := by rw [hs.same]
  have hnodup := hperm.nodup_iff.mp h.wf.freePages_nodup
  rw [← hs.taken] at hwf hperm hnodup
  refine ⟨hnonzero, hwf, fun a ha => ?_⟩
  have hga := h.good a (hperm.symm.subset (List.mem_append_right _ ha))
  refine ⟨hga.toFrameAddr, hga.nonzero, fun ht => ?_⟩
  rw [hcr3] at ht
  rcases hs.grown.reach _ ht with ht | ht
  · exact hga.notTable ht
  · -- a frame that has become a table is not listed any more
    obtain ⟨b, hb, hab⟩ := List.mem_map.mp ht
    have hgb := h.good b (hperm.symm.subset (List.mem_append_left _ hb))
    have h1 := hga.aligned
    have h2 := hgb.aligned
    exact (List.nodup_append.mp hnodup).2.2 b hb a ha (by omega)

/-- A part of `map_page`: it makes sure of its table, or finds no frame for it. -/
theorem part_wp (hfree : FreeFrames s) {m : KernelM Unit} {flags : Nat}
    (hspec : (tableAt s.mem s.cr3 (p ++ [i]) = none →
        GoodFrame s.mem s.cr3 (mmapGetPages s.physMmap 1).1) →
      ∃ s', m.Returns s () s' ∧ PartStep s s' p i flags)
    (hpanic : tableAt s.mem s.cr3 (p ++ [i]) = none → (mmapGetPages s.physMmap 1).1 = 0 →
      Outcome.wp IsPanic m (fun _ s' => PartStep s s' p i flags ∧ FreeFrames s' ∧
        ∀ a ∈ (takeFrames (missing s.mem s.cr3 (p ++ [i])) s.physMmap).1, a ≠ 0) s) :
    Outcome.wp IsPanic m (fun _ s' => PartStep s s' p i flags ∧ FreeFrames s' ∧
      ∀ a ∈ (takeFrames (missing s.mem s.cr3 (p ++ [i])) s.physMmap).1, a ≠ 0) s := by
  by_cases hnone : tableAt s.mem s.cr3 (p ++ [i]) = none ∧ (mmapGetPages s.physMmap 1).1 = 0
  · exact hpanic hnone.1 hnone.2
  · have hframe : tableAt s.mem s.cr3 (p ++ [i]) = none → (mmapGetPages s.physMmap 1).1 ≠ 0 :=
      fun hn hz => hnone ⟨hn, hz⟩
    have hgood : tableAt s.mem s.cr3 (p ++ [i]) = none →
        GoodFrame s.mem s.cr3 (mmapGetPages s.physMmap 1).1 := fun hn =>
      hfree.good _ ((takeFrame_pages hfree.wf (hframe hn)).2.symm.subset List.mem_cons_self)
    obtain ⟨s', hret, hstep⟩ := hspec hgood
    obtain ⟨hne, hfree'⟩ := hfree.after hstep.toTableStep hframe
    exact Outcome.wp_of_returns hret ⟨hstep, hfree', hne⟩

end Parts

/-! ## `map_page` -/

/-- What a returning call has done: the page is edited, and the new tables are frames
that `phys_mmap` listed. -/
structure Mapped (s s' : Kernel) (v pte : Nat) (taken : List Nat) : Prop
    extends Edited s s' v pte taken where
  frames : s.physMmap.freePages.Perm (taken ++ s'.physMmap.freePages)
  free : FreeFrames s'
  maxRangeCount : s'.physMmap.maxRangeCount = s.physMmap.maxRangeCount
  rangeCount : s'.physMmap.rangeCount ≤ s.physMmap.rangeCount

theorem mmapGetPages_counts (m : MemoryMap) (n : Nat) :
    (mmapGetPages m n).2.maxRangeCount = m.maxRangeCount ∧
      (mmapGetPages m n).2.rangeCount ≤ m.rangeCount := by
  have h := mmapGetPages_eq m n
  split at h
  · rw [h]
    exact ⟨rfl, le_rfl⟩
  · obtain ⟨m', hm', -, hmax, hcount⟩ := h
    rw [hm']
    exact ⟨hmax, hcount⟩

/-- Frames are taken from a buffer of the same length, and leave no more ranges. -/
theorem takeFrames_counts (k : Nat) (m : MemoryMap) :
    (takeFrames k m).2.maxRangeCount = m.maxRangeCount ∧ (takeFrames k m).2.rangeCount ≤ m.rangeCount := by
  induction k generalizing m with
  | zero => exact ⟨rfl, le_rfl⟩
  | succ k ih =>
    obtain ⟨hmax, hcount⟩ := mmapGetPages_counts m 1
    obtain ⟨hmax', hcount'⟩ := ih (mmapGetPages m 1).2
    exact ⟨hmax'.trans hmax, hcount'.trans hcount⟩

/-- After an edit with frames of `phys_mmap` the free frames are free. -/
theorem Edited.mapped {s s' : Kernel} {v pte : Nat} {taken : List Nat}
    (h : Edited s s' v pte taken) (hfree : FreeFrames s) (hwf : s'.physMmap.Wf)
    (hperm : s.physMmap.freePages.Perm (taken ++ s'.physMmap.freePages))
    (hmax : s'.physMmap.maxRangeCount = s.physMmap.maxRangeCount)
    (hcount : s'.physMmap.rangeCount ≤ s.physMmap.rangeCount) : Mapped s s' v pte taken := by
  have hnodup := hperm.nodup_iff.mp hfree.wf.freePages_nodup
  refine ⟨h, hperm, ⟨hwf, fun a ha => ?_⟩, hmax, hcount⟩
  have hga := hfree.good a (hperm.symm.subset (List.mem_append_right _ ha))
  refine ⟨hga.toFrameAddr, hga.nonzero, fun ht => ?_⟩
  rcases h.reach _ ht with ht | ht
  · exact hga.notTable ht
  · obtain ⟨b, hb, hab⟩ := List.mem_map.mp ht
    have hgb := hfree.good b (hperm.symm.subset (List.mem_append_left _ hb))
    have h1 := hga.aligned
    have h2 := hgb.aligned
    exact (List.nodup_append.mp hnodup).2.2 b hb a ha (by omega)

/-- A frame that is no table and not free stays what it is. -/
theorem Mapped.frame {s s' : Kernel} {v pte : Nat} {taken : List Nat}
    (h : Mapped s s' v pte taken) (hfree : FreeFrames s) {n : Nat}
    (hn : 4096 * n ∉ s.physMmap.freePages) (ht : ¬IsTable s.mem s.cr3 n) :
    ¬IsTable s'.mem s'.cr3 n ∧ ∀ x, x / 4096 = n → s'.mem x = s.mem x := by
  have htaken : n ∉ taken.map (· / 4096) := by
    intro hc
    obtain ⟨a, ha, rfl⟩ := List.mem_map.mp hc
    have hmem : a ∈ s.physMmap.freePages := h.frames.symm.subset (List.mem_append_left _ ha)
    have haligned := (hfree.good a hmem).aligned
    rw [Nat.mul_div_cancel' (Nat.dvd_of_mod_eq_zero haligned)] at hn
    exact hn hmem
  refine ⟨fun hc => ?_, fun x hx => h.byte (by rwa [hx]) (by rwa [hx])⟩
  rcases h.reach n hc with hc | hc
  · exact ht hc
  · exact htaken hc

/-- Every frame the call takes is found, or the call panics. -/
theorem mapPageWith_frames {store : Nat → Nat → KernelM Unit} {wp : Prop} {s : Kernel} {v p flags : Nat}
    (hst : StoresWord store wp) (h : PageTables s.mem s.cr3)
    (hw : wp → readWrite (tables s.mem (frameOf s.cr3) 511) = true) (hfree : FreeFrames s)
    (hv : UserPage v) (hl : NoLargePage s.mem s.cr3 v) (hflags : AttributeBits flags)
    (habove : wp → readWrite flags = true ∨ AboveWritable s.mem s.cr3 v)
    (hne : ¬∀ a ∈ (takeFrames (missingTables s.mem s.cr3 v) s.physMmap).1, a ≠ 0) :
    Outcome.wp IsPanic (mapPageWith store v p flags) (fun _ _ => False) s := by
  have hp₂ : tablePaths.mem [index v 39, index v 30, index v 21] := (UpperOf.pd.mem hv.slot).2
  have hp₃ : tablePaths.mem [index v 39, index v 30] := (UpperOf.pdpt.mem hv.slot).2
  have hp₄ : tablePaths.mem [index v 39] := (UpperOf.pml4.mem hv.slot).2
  -- the PDPT
  have hpdpt := part_wp (p := []) hfree (mapPagePdptWith_spec hst h hw hv hl hflags)
    fun hnone => part_panics (readEntry (translate_pml4eAddrOf h.selfMap v))
      (absent_of_missing hl .pml4 rfl hnone)
  refine Outcome.wp_bind (Outcome.wp_mono hpdpt fun _ s₁ hs => ?_)
  obtain ⟨hpart₁, hfree₁, hne₁⟩ := hs
  have hs₁ : TableStep s s₁ [index v 39] := hpart₁.toTableStep
  have hw₁ := hs₁.window_writable hw
  obtain ⟨hpt₁, hl₁, hk₁, n₃, hn₃⟩ := hs₁.next hv hl
  -- the PD
  have hpd := part_wp (p := [index v 39]) hfree₁ (fun hgood =>
      mapPagePdWith_spec hst hpt₁ hw₁ hv hl₁ hflags hn₃ hgood fun hwp => hpart₁.above_pd hv (habove hwp) hn₃)
    fun hnone => part_panics (readEntry (translate_pdpteAddrOf hpt₁.selfMap hn₃))
      (absent_of_missing hl₁ .pdpt hn₃ hnone)
  refine Outcome.wp_bind (Outcome.wp_mono hpd fun _ s₂ hs => ?_)
  obtain ⟨hpart₂, hfree₂, hne₂⟩ := hs
  have hs₂ : TableStep s₁ s₂ [index v 39, index v 30] := hpart₂.toTableStep
  have hw₂ := hs₂.window_writable hw₁
  obtain ⟨hpt₂, hl₂, hk₂, n₂, hn₂⟩ := hs₂.next hv hl₁
  -- the PT
  have hpt := part_wp (p := [index v 39, index v 30]) hfree₂ (fun hgood =>
      mapPagePtWith_spec hst hpt₂ hw₂ hv hl₂ hflags (hk₂ _ _ hp₄ hn₃) hn₂ hgood fun hwp =>
        hpart₁.above_pt hv hpart₂ (habove hwp) (hk₂ _ _ hp₄ hn₃) hn₂)
    fun hnone => part_panics (readEntry (translate_pdeAddrOf hpt₂.selfMap hn₂))
      (absent_of_missing hl₂ .pd hn₂ hnone)
  refine Outcome.wp_bind (Outcome.wp_mono hpt fun _ s₃ hs => ?_)
  obtain ⟨-, -, hne₃⟩ := hs
  simp only [List.cons_append, List.nil_append] at hne₁ hne₂ hne₃
  refine absurd (fun a ha => ?_) hne
  rw [hs₂.taken, hs₁.taken, hs₂.missing_eq hp₂ hp₃ (by simp), hs₁.missing_eq hp₂ hp₄ (by simp),
    hs₁.missing_eq hp₃ hp₄ (by simp)] at hne₃
  rw [hs₁.taken, hs₁.missing_eq hp₃ hp₄ (by simp)] at hne₂
  rw [missingTables, takeFrames_add, takeFrames_add] at ha
  simp only [List.mem_append] at ha
  rcases ha with (ha | ha) | ha
  · exact hne₁ a ha
  · exact hne₂ a ha
  · exact hne₃ a ha

/-- `map_page` may give up, or the page table is there. -/
def MayMap (E : Stop → Prop) (s : Kernel) (v : Nat) : Prop :=
  (∀ e, IsPanic e → E e) ∨ ∃ n, ptAt s.mem s.cr3 v = some n

theorem missing_of_some {m : Mem} {cr3 n : Nat} {p : List (Fin 512)} (h : tableAt m cr3 p = some n) :
    missing m cr3 p = 0 := by
  rw [missing, if_neg (by rw [h]; simp)]

theorem missingTables_of_ptAt {m : Mem} {cr3 v n : Nat} (h : ptAt m cr3 v = some n) :
    missingTables m cr3 v = 0 := by
  have hup : ∀ p i, (∃ k, tableAt m cr3 (p ++ [i]) = some k) → ∃ k, tableAt m cr3 p = some k := by
    rintro p i ⟨k, hk⟩
    rw [tableAt_concat, Option.bind_eq_some_iff] at hk
    obtain ⟨j, hj, -⟩ := hk
    exact ⟨j, hj⟩
  obtain ⟨k, hpd⟩ := hup [index v 39, index v 30] (index v 21) ⟨n, h⟩
  obtain ⟨j, hpdpt⟩ := hup [index v 39] (index v 30) ⟨k, hpd⟩
  rw [missingTables, missing_of_some hpdpt, missing_of_some hpd, missing_of_some h]

section Calls

variable {store : Nat → Nat → KernelM Unit} {wp : Prop} {s : Kernel} {v p flags : Nat} {E : Stop → Prop}

/-- With frames for its missing tables `map_page` returns. -/
theorem mapPageWith_returns (hst : StoresWord store wp) (h : PageTables s.mem s.cr3)
    (hw : wp → readWrite (tables s.mem (frameOf s.cr3) 511) = true) (hfree : FreeFrames s)
    (hv : UserPage v) (hl : NoLargePage s.mem s.cr3 v) (hp : p < 2 ^ 64) (hflags : AttributeBits flags)
    (habove : wp → readWrite flags = true ∨ AboveWritable s.mem s.cr3 v)
    (hne : ∀ a ∈ (takeFrames (missingTables s.mem s.cr3 v) s.physMmap).1, a ≠ 0) :
    ∃ s', (mapPageWith store v p flags).Returns s () s' ∧
      s'.physMmap = (takeFrames (missingTables s.mem s.cr3 v) s.physMmap).2 ∧
      (∃ taken, Mapped s s' v (p ||| pagingFlagPresent ||| flags) taken) ∧
      LinkEdit (UpperOf v) (LeafOf v) s s' flags := by
  obtain ⟨s₁, hr, hedit, hmap, hlinks⟩ := mapPageWith_spec hst h hw hv hl hp hflags habove (hfree.fresh hne)
  obtain ⟨hwf, hperm⟩ := takeFrames_pages hfree.wf hne
  obtain ⟨hmax, hcount⟩ := takeFrames_counts (missingTables s.mem s.cr3 v) s.physMmap
  rw [← hmap] at hwf hperm hmax hcount
  exact ⟨s₁, hr, hmap, ⟨_, hedit.mapped hfree hwf hperm hmax hcount⟩, hlinks⟩

/-- **`map_page` with free frames.** The page is mapped and the entries above it have got the
flags, or a table finds no frame. -/
theorem mapPageWith_links (hst : StoresWord store wp) (h : PageTables s.mem s.cr3)
    (hw : wp → readWrite (tables s.mem (frameOf s.cr3) 511) = true) (hfree : FreeFrames s)
    (hv : UserPage v) (hl : NoLargePage s.mem s.cr3 v) (hp : p < 2 ^ 64) (hflags : AttributeBits flags)
    (habove : wp → readWrite flags = true ∨ AboveWritable s.mem s.cr3 v) (hE : MayMap E s v) :
    Outcome.wp E (mapPageWith store v p flags)
      (fun _ s' => (∃ taken, Mapped s s' v (p ||| pagingFlagPresent ||| flags) taken) ∧
        LinkEdit (UpperOf v) (LeafOf v) s s' flags) s := by
  by_cases hne : ∀ a ∈ (takeFrames (missingTables s.mem s.cr3 v) s.physMmap).1, a ≠ 0
  · obtain ⟨s₁, hr, -, hmapped⟩ := mapPageWith_returns (p := p) hst h hw hfree hv hl hp hflags habove hne
    exact Outcome.wp_of_returns hr hmapped
  · rcases hE with hE | ⟨n, hn⟩
    · have hpanic := mapPageWith_frames (p := p) hst h hw hfree hv hl hflags habove hne
      exact Outcome.wp_weaken (Outcome.wp_mono hpanic fun _ _ hf => hf.elim) hE
    · rw [missingTables_of_ptAt hn] at hne
      exact absurd (by simp [takeFrames]) hne

theorem mapPageWith_wp (hst : StoresWord store wp) (h : PageTables s.mem s.cr3)
    (hw : wp → readWrite (tables s.mem (frameOf s.cr3) 511) = true) (hfree : FreeFrames s)
    (hv : UserPage v) (hl : NoLargePage s.mem s.cr3 v) (hp : p < 2 ^ 64) (hflags : AttributeBits flags)
    (habove : wp → readWrite flags = true ∨ AboveWritable s.mem s.cr3 v) (hE : MayMap E s v) :
    Outcome.wp E (mapPageWith store v p flags)
      (fun _ s' => ∃ taken, Mapped s s' v (p ||| pagingFlagPresent ||| flags) taken) s :=
  Outcome.wp_mono (mapPageWith_links hst h hw hfree hv hl hp hflags habove hE) fun _ _ hs => hs.1

/-- The same for the kernel, which runs without write protection. -/
theorem mapPage_returns (h : PageTables s.mem s.cr3) (hfree : FreeFrames s) (hv : UserPage v)
    (hl : NoLargePage s.mem s.cr3 v) (hp : p < 2 ^ 64) (hflags : FlagsOk flags)
    (hne : ∀ a ∈ (takeFrames (missingTables s.mem s.cr3 v) s.physMmap).1, a ≠ 0) :
    ∃ s', (mapPage v p flags).Returns s () s' ∧
      s'.physMmap = (takeFrames (missingTables s.mem s.cr3 v) s.physMmap).2 ∧
      ∃ taken, Mapped s s' v (p ||| pagingFlagPresent ||| flags) taken := by
  obtain ⟨s', hret, hmap, htaken, -⟩ := mapPageWith_returns storesWord_writeWord h False.elim hfree hv hl hp
    hflags.attributeBits False.elim hne
  exact ⟨s', hret, hmap, htaken⟩

theorem mapPage_wp (h : PageTables s.mem s.cr3) (hfree : FreeFrames s) (hv : UserPage v)
    (hl : NoLargePage s.mem s.cr3 v) (hp : p < 2 ^ 64) (hflags : FlagsOk flags) (hE : MayMap E s v) :
    Outcome.wp E (mapPage v p flags)
      (fun _ s' => ∃ taken, Mapped s s' v (p ||| pagingFlagPresent ||| flags) taken) s :=
  mapPageWith_wp storesWord_writeWord h False.elim hfree hv hl hp hflags.attributeBits False.elim hE

end Calls

theorem freePages_windowOnly_length : windowOnly.physMmap.freePages.length = 10 := by
  have hranges : windowOnly.physMmap.ranges = [⟨0x10000, 10⟩] := by decide
  rw [MemoryMap.freePages, hranges, List.flatMap_singleton]
  rfl

theorem freePages_windowOnly {a : Nat} (ha : a ∈ windowOnly.physMmap.freePages) :
    a % 4096 = 0 ∧ 0x10000 ≤ a ∧ a < 0x1A000 := by
  have hranges : windowOnly.physMmap.ranges = [⟨0x10000, 10⟩] := by decide
  rw [MemoryMap.freePages, hranges, List.flatMap_singleton] at ha
  obtain ⟨i, hi, rfl⟩ := MemoryRange.mem_pageList.mp ha
  simp only at hi ⊢
  omega

theorem freeFrames_windowOnly : FreeFrames windowOnly := by
  have hranges : windowOnly.physMmap.ranges = [⟨0x10000, 10⟩] := by decide
  refine ⟨⟨?_, ?_, by decide, by decide⟩, fun a ha => ?_⟩
  · rw [hranges]
    intro r hr
    rw [List.mem_singleton.mp hr]
    exact ⟨by decide, by decide, by decide, by decide⟩
  · rw [hranges]
    exact List.pairwise_singleton _ _
  · obtain ⟨haligned, hlow, hlt⟩ := freePages_windowOnly ha
    refine ⟨⟨haligned, by omega⟩, by omega, fun ht => ?_⟩
    have hone := isTable_windowOnly ht
    omega

end KoalemOS.Paging
