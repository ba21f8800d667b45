import KoalemOS.Paging.Kept
import KoalemOS.Paging.FreeFrames

/-!
# The frames that `map_page` is given (`src/kernel/memory.c`)

`alloc_phys_pages(1)` gives the frame that `phys_mmap` lists first, and only the frames that a call
takes have to be fit to become tables (`FrameSupply`). Then each of them is no table when it is handed out,
also where the frames run out and the call panics (`mapPage_handsOut`).
-/

namespace KoalemOS.Paging

open KoalemOS.Library KoalemOS.Mmap

/-! ## The first frames of the map -/

/-- A map gives the frame that it lists first. -/
theorem takeFrame_first {m : MemoryMap} (hwf : m.Wf) :
    (m.freePages = [] ∧ mmapGetPages m 1 = (0, m)) ∨
      ∃ a rest, m.freePages = a :: rest ∧ (mmapGetPages m 1).1 = a ∧ a ≠ 0 ∧ (mmapGetPages m 1).2.Wf ∧
        (mmapGetPages m 1).2.freePages = rest := by
  have heq := mmapGetPages_eq m 1
  cases hranges : m.ranges with
  | nil =>
    rw [hranges] at heq
    exact .inl ⟨by rw [MemoryMap.freePages, hranges]; rfl, heq⟩
  | cons r rs =>
    obtain ⟨b, n⟩ := r
    have hr : MemoryRange.Wf ⟨b, n⟩ := hwf.ranges_wf _ (by rw [hranges]; exact List.mem_cons_self)
    obtain ⟨k, rfl⟩ := Nat.exists_eq_add_of_le hr.pos
    have hend := hr.noWrap
    simp only [MemoryRange.endAddr] at hend
    have hne : b ≠ 0 := Nat.pos_iff_ne_zero.mp hr.nonzero
    have hwf' := mmapGetPages_wf hwf Nat.one_pos
    have hpages : m.freePages = b :: (MemoryRange.pageList ⟨b + 4096 * 1, k⟩ ++ rs.flatMap MemoryRange.pageList) := by
      rw [MemoryMap.freePages, hranges, List.flatMap_cons, MemoryRange.pageList_split, pageList_one]
      rfl
    refine .inr ⟨b, _, hpages, ?_⟩
    rw [hranges] at heq
    by_cases hk : k = 0
    · subst hk
      obtain ⟨m', hm', hrs, -⟩ := heq
      rw [hm'] at hwf' ⊢
      refine ⟨rfl, hne, hwf', ?_⟩
      rw [MemoryMap.freePages, hrs]
      rfl
    · have hff : firstFit 1 (⟨b, 1 + k⟩ :: rs) = some (b, ⟨b + 4096 * 1, k⟩ :: rs) := by
        rw [firstFit, if_neg (by simp only; omega), if_pos (by simp only; omega)]
        show some (b, ⟨wrap (b + 4096 * 1), 1 + k - 1⟩ :: rs) = _
        rw [wrap_of_lt (by omega), Nat.add_sub_cancel_left]
      rw [hff] at heq
      obtain ⟨m', hm', hrs, -⟩ := heq
      rw [hm'] at hwf' ⊢
      refine ⟨rfl, hne, hwf', ?_⟩
      rw [MemoryMap.freePages, hrs, List.flatMap_cons]

/-- As long as there are enough, frames are taken in the order of the map. -/
theorem takeFrames_first {k : Nat} {m : MemoryMap} (hwf : m.Wf) (hk : k ≤ m.freePages.length) :
    (takeFrames k m).1 = m.freePages.take k ∧ (takeFrames k m).2.freePages = m.freePages.drop k ∧
      (takeFrames k m).2.Wf := by
  induction k generalizing m with
  | zero => exact ⟨rfl, rfl, hwf⟩
  | succ k ih =>
    rcases takeFrame_first hwf with ⟨hnil, -⟩ | ⟨a, rest, hpages, ha, -, hwf', hrest⟩
    · rw [hnil] at hk
      cases hk
    · rw [hpages, List.length_cons] at hk
      obtain ⟨h₁, h₂, h₃⟩ := ih hwf' (by rw [hrest]; omega)
      rw [takeFrames, hpages, List.take_succ_cons, List.drop_succ_cons, ← hrest, ha]
      exact ⟨by rw [h₁], h₂, h₃⟩

/-! ## Frames that are handed out -/

/-- The next `k` frames of `phys_mmap`, as far as there are frames, can become tables, and are in `P`. -/
structure FrameSupply (P : Nat → Prop) (s : Kernel) (k : Nat) : Prop where
  wf : s.physMmap.Wf
  good : ∀ a ∈ s.physMmap.freePages.take k, GoodFrame s.mem s.cr3 a ∧ P a

/-- From `s` to `s'` single frames have been handed out, each of them in `P` and no table at that
moment. -/
structure HandsOut (P : Nat → Prop) (s s' : Kernel) : Prop where
  cr3 : s'.cr3 = s.cr3
  log : ∃ events, s'.allocLog = s.allocLog ++ events ∧
    ∀ e ∈ events, e.pages = 1 ∧ ¬IsTable e.mem s.cr3 (e.base / 4096) ∧ P e.base

section Frames

variable {P : Nat → Prop} {s s₁ s' : Kernel} {j k : Nat}

theorem HandsOut.refl (P : Nat → Prop) (s : Kernel) : HandsOut P s s :=
  ⟨rfl, [], (List.append_nil _).symm, by simp⟩

theorem HandsOut.trans (h : HandsOut P s s₁) (h' : HandsOut P s₁ s') : HandsOut P s s' := by
  obtain ⟨hc, l, hl, hs⟩ := h
  obtain ⟨hc', l', hl', hs'⟩ := h'
  rw [hc] at hc' hs'
  refine ⟨hc', l ++ l', by rw [hl', hl, List.append_assoc], fun e he => ?_⟩
  rcases List.mem_append.mp he with he | he
  · exact hs e he
  · exact hs' e he

/-- The frames handed out before a computation, and in it. -/
theorem HandsOut.ends {α : Type} {m : KernelM α} {Q : α → Kernel → Prop} (h : HandsOut P s s₁)
    (hm : Outcome.ends (fun a t => HandsOut P s₁ t ∧ Q a t) (HandsOut P s₁) m s₁) :
    Outcome.ends (fun a t => HandsOut P s t ∧ Q a t) (HandsOut P s) m s₁ :=
  Outcome.ends_weaken (Outcome.ends_mono hm fun _ _ ht => ⟨h.trans ht.1, ht.2⟩) fun _ ht => h.trans ht

/-- The same where it is known why the computation does not return. -/
theorem HandsOut.ends_with {α : Type} {m : KernelM α} {Q : α → Kernel → Prop} {X : Prop} (h : HandsOut P s s₁)
    (hm : Outcome.ends (fun a t => HandsOut P s₁ t ∧ Q a t) (fun t => HandsOut P s₁ t ∧ X) m s₁) :
    Outcome.ends (fun a t => HandsOut P s t ∧ Q a t) (fun t => HandsOut P s t ∧ X) m s₁ :=
  Outcome.ends_weaken (Outcome.ends_mono hm fun _ _ ht => ⟨h.trans ht.1, ht.2⟩) fun _ ht => ⟨h.trans ht.1, ht.2⟩

theorem HandsOut.any (h : HandsOut P s s') : HandsOut (fun _ => True) s s' := by
  obtain ⟨hcr3, events, hlog, hevents⟩ := h
  exact ⟨hcr3, events, hlog, fun e he => ⟨(hevents e he).1, (hevents e he).2.1, trivial⟩⟩

theorem HandsOut.withMem (h : HandsOut P s s') (m : Mem) : HandsOut P s { s' with mem := m } := ⟨h.cr3, h.log⟩

theorem FrameSupply.of_le (h : FrameSupply P s k) (hj : j ≤ k) : FrameSupply P s j :=
  ⟨h.wf, fun a ha => h.good a (List.take_subset_take_left _ hj ha)⟩

/-- Frames that are there are fresh. -/
theorem FrameSupply.fresh (h : FrameSupply P s k) (hk : k ≤ s.physMmap.freePages.length) : FreshFrames s k := by
  obtain ⟨hwf, hgood⟩ := h
  obtain ⟨hfirst, -⟩ := takeFrames_first hwf hk
  refine ⟨?_, ?_⟩
  · rw [hfirst]
    exact fun a ha => (hgood a ha).1
  · rw [hfirst]
    exact hwf.freePages_nodup.sublist (List.take_sublist _ _)

/-- The first frame, when there is one. -/
theorem FrameSupply.allocated (h : FrameSupply P s k) (hk : 0 < k) : HandsOut P s (s.allocated 1) := by
  rcases takeFrame_first h.wf with ⟨-, hnone⟩ | ⟨a, rest, hpages, ha, hne, -⟩
  · have hsame : s.allocated 1 = s := by
      simp only [Kernel.allocated, hnone, if_true]
    rw [hsame]
    exact .refl P s
  · obtain ⟨l, rfl⟩ := Nat.exists_eq_add_of_le' hk
    have hgood := h.good a (by rw [hpages]; exact List.mem_cons_self)
    refine ⟨rfl, [⟨a, 1, s.mem⟩], ?_, fun e he => ?_⟩
    · simp only [Kernel.allocated, ha, if_neg hne]
    · rw [List.mem_singleton.mp he]
      exact ⟨rfl, hgood.1.notTable, hgood.2⟩

/-- The frames behind those that have become tables. -/
theorem FrameSupply.advance (h : FrameSupply P s (j + k)) (hj : j ≤ s.physMmap.freePages.length) (hcr3 : s'.cr3 = s.cr3)
    (hmap : s'.physMmap = (takeFrames j s.physMmap).2)
    (hreach : ∀ n, IsTable s'.mem s.cr3 n → IsTable s.mem s.cr3 n ∨ n ∈ (takeFrames j s.physMmap).1.map (· / 4096)) :
    FrameSupply P s' k ∧ s'.physMmap.freePages.length + j = s.physMmap.freePages.length := by
  obtain ⟨hwf, hgood⟩ := h
  obtain ⟨hfirst, hrest, hwf'⟩ := takeFrames_first hwf hj
  rw [← hmap] at hrest hwf'
  refine ⟨⟨hwf', fun a ha => ?_⟩, by rw [hrest, List.length_drop]; omega⟩
  rw [hrest] at ha
  have hall : s.physMmap.freePages.take (j + k) =
      s.physMmap.freePages.take j ++ (s.physMmap.freePages.drop j).take k := List.take_add
  rw [hall] at hgood
  have hnodup : (s.physMmap.freePages.take j ++ (s.physMmap.freePages.drop j).take k).Nodup := by
    rw [← hall]
    exact hwf.freePages_nodup.sublist (List.take_sublist _ _)
  obtain ⟨⟨haddr, hnz, hnot⟩, hP⟩ := hgood a (List.mem_append_right _ ha)
  refine ⟨⟨haddr, hnz, fun ht => ?_⟩, hP⟩
  rw [hcr3] at ht
  rcases hreach _ ht with ht | ht
  · exact hnot ht
  · -- two frame addresses with the same number are equal
    rw [hfirst] at ht
    obtain ⟨b, hb, hab⟩ := List.mem_map.mp ht
    have hb' := (hgood b (List.mem_append_left _ hb)).1.aligned
    have ha' := haddr.aligned
    exact (List.nodup_append.mp hnodup).2.2 b hb a ha (by omega)

end Frames

/-! ## `map_page` -/

section MapPage

variable {P : Nat → Prop} {s : Kernel} {v p flags k : Nat}

/-- A part of `map_page`: it hands out a frame for its table where that is missing. -/
theorem part_handsOut {q : List (Fin 512)} {i : Fin 512} {n addr : Nat} {m₁ : KernelM Unit} {m₂ : Nat → KernelM Unit}
    {message : String} (hsupply : FrameSupply P s (missing s.mem s.cr3 (q ++ [i]) + k))
    (hread : (readWord addr).Returns s (tables s.mem n i) s) (hl : NoLargePage s.mem s.cr3 v) (hu : UpperOf v q i)
    (hn : tableAt s.mem s.cr3 q = some n)
    (h₁ : Outcome.Keeps (HandsOut P s) m₁) (h₂ : ∀ t, Outcome.Keeps (HandsOut P s) (m₂ t))
    (hspec : (tableAt s.mem s.cr3 (q ++ [i]) = none → GoodFrame s.mem s.cr3 (mmapGetPages s.physMmap 1).1) →
      ∃ s', Outcome.Returns (readWord addr >>= fun e => if present e then m₁ else
        allocPhysPages 1 >>= fun t => if t ≠ 0 then m₂ t else kernelPanic message) s () s' ∧ PartStep s s' q i flags) :
    Outcome.ends (fun _ s' => HandsOut P s s' ∧ PartStep s s' q i flags ∧ FrameSupply P s' k ∧
        s'.physMmap.freePages.length + missing s.mem s.cr3 (q ++ [i]) = s.physMmap.freePages.length)
      (HandsOut P s) (readWord addr >>= fun e => if present e then m₁ else
        allocPhysPages 1 >>= fun t => if t ≠ 0 then m₂ t else kernelPanic message) s := by
  have habsent : present (tables s.mem n i) = false ↔ tableAt s.mem s.cr3 (q ++ [i]) = none :=
    ⟨tableAt_of_absent hn, absent_of_missing hl hu hn⟩
  refine Outcome.ends_and (ends_part hread (.refl P s) (fun habs => ?_) h₁ h₂) fun _ s' hret => ?_
  · refine hsupply.allocated ?_
    rw [missing, if_pos (habsent.mp habs)]
    omega
  · by_cases hnone : tableAt s.mem s.cr3 (q ++ [i]) = none
    · have hone : missing s.mem s.cr3 (q ++ [i]) = 1 := if_pos hnone
      rcases takeFrame_first hsupply.wf with ⟨-, hempty⟩ | ⟨a, rest, hpages, ha, -⟩
      · -- there is no frame
        have hpanic : Outcome.wp IsPanic (readWord addr >>= fun e => if present e then m₁ else
            allocPhysPages 1 >>= fun t => if t ≠ 0 then m₂ t else kernelPanic message) (fun _ _ => False) s :=
          part_panics hread (habsent.mpr hnone) (by rw [hempty])
        exact (hret.of_wp hpanic).elim
      · have hlen : missing s.mem s.cr3 (q ++ [i]) ≤ s.physMmap.freePages.length := by
          rw [hone, hpages, List.length_cons]
          omega
        have hgood := (hsupply.of_le (Nat.le_add_right _ k)).fresh hlen
        obtain ⟨t, ht, hstep⟩ := hspec fun _ => by
          rw [← Nat.add_zero (missing s.mem s.cr3 _)] at hgood
          exact hgood.of_missing hnone
        obtain ⟨-, rfl⟩ := hret.det ht
        have hts := hstep.toTableStep
        have hcr3 : s'.cr3 = s.cr3 := by rw [hts.same]
        exact ⟨hstep, hsupply.advance hlen hcr3 hts.taken hts.grown.reach⟩
    · obtain ⟨t, ht, hstep⟩ := hspec fun h => absurd h hnone
      obtain ⟨-, rfl⟩ := hret.det ht
      have hts := hstep.toTableStep
      have hcr3 : s'.cr3 = s.cr3 := by rw [hts.same]
      have hzero : missing s.mem s.cr3 (q ++ [i]) = 0 := if_neg hnone
      exact ⟨hstep, hsupply.advance (by omega) hcr3 hts.taken hts.grown.reach⟩

/-- **`map_page`.** Each frame that is handed out is one of the next ones, and no table at that moment; the
call returns only where there are enough. -/
theorem mapPage_handsOut (h : PageTables s.mem s.cr3) (hv : UserPage v) (hl : NoLargePage s.mem s.cr3 v)
    (hflags : FlagsOk flags) (hsupply : FrameSupply P s (missingTables s.mem s.cr3 v)) :
    Outcome.ends (fun _ s' => HandsOut P s s' ∧ missingTables s.mem s.cr3 v ≤ s.physMmap.freePages.length)
      (HandsOut P s) (mapPage v p flags) s := by
  have hp₂ : tablePaths.mem [index v 39, index v 30, index v 21] := (UpperOf.pd.mem hv.slot).2
  have hp₃ : tablePaths.mem [index v 39, index v 30] := (UpperOf.pdpt.mem hv.slot).2
  have hp₄ : tablePaths.mem [index v 39] := (UpperOf.pml4.mem hv.slot).2
  have hst := storesWord_writeWord
  have hkeep : ∀ (r t : Kernel) (m : Mem), HandsOut P r t → HandsOut P r { t with mem := m } :=
    fun _ _ m ht => ht.withMem m
  rw [missingTables, Nat.add_assoc] at hsupply
  -- the PDPT
  have hpdpt := part_handsOut (q := []) hsupply
    (readEntry (translate_pml4eAddrOf h.selfMap v)) hl .pml4 rfl (keeps_orWord (hkeep s) _ _)
    (fun _ => keeps_linkTable (hkeep s) _ _ _ _) (mapPagePdptWith_spec hst h False.elim hv hl hflags.attributeBits)
  refine Outcome.ends_bind (Outcome.ends_mono hpdpt fun _ s₁ hs₁ => ?_)
  obtain ⟨hout₁, hpart₁, hsupply₁, hlen₁⟩ := hs₁
  have ht₁ : TableStep s s₁ [index v 39] := hpart₁.toTableStep
  obtain ⟨hpt₁, hl₁, hk₁, n₃, hn₃⟩ := ht₁.next hv hl
  rw [← ht₁.missing_eq hp₃ hp₄ (by simp), ← ht₁.missing_eq hp₂ hp₄ (by simp)] at hsupply₁
  -- the PD
  have hpd := part_handsOut (q := [index v 39]) hsupply₁
    (readEntry (translate_pdpteAddrOf hpt₁.selfMap hn₃)) hl₁ .pdpt hn₃ (keeps_orWord (hkeep s₁) _ _)
    (fun _ => (keeps_readWord _).bind fun _ => (keeps_orWord (hkeep s₁) _ _).bind fun _ =>
      (keeps_linkTable (hkeep s₁) _ _ _ _).bind fun _ => keeps_writeWord (hkeep s₁) _ _)
    (fun hgood => mapPagePdWith_spec hst hpt₁ False.elim hv hl₁ hflags.attributeBits hn₃ hgood False.elim)
  refine Outcome.ends_bind (Outcome.ends_weaken (Outcome.ends_mono hpd fun _ s₂ hs₂ => ?_) fun _ ht => hout₁.trans ht)
  obtain ⟨hout₂, hpart₂, hsupply₂, hlen₂⟩ := hs₂
  have ht₂ : TableStep s₁ s₂ [index v 39, index v 30] := hpart₂.toTableStep
  obtain ⟨hpt₂, hl₂, hk₂, n₂, hn₂⟩ := ht₂.next hv hl₁
  rw [← ht₂.missing_eq hp₂ hp₃ (by simp), ← Nat.add_zero (missing s₂.mem s₂.cr3 _)] at hsupply₂
  -- the PT
  have hpt := part_handsOut (q := [index v 39, index v 30]) hsupply₂
    (readEntry (translate_pdeAddrOf hpt₂.selfMap hn₂)) hl₂ .pd hn₂ (keeps_orWord (hkeep s₂) _ _)
    (fun _ => (keeps_readWord _).bind fun _ => (keeps_orWord (hkeep s₂) _ _).bind fun _ =>
      (keeps_readWord _).bind fun _ => (keeps_orWord (hkeep s₂) _ _).bind fun _ =>
      (keeps_linkTable (hkeep s₂) _ _ _ _).bind fun _ => (keeps_writeWord (hkeep s₂) _ _).bind fun _ =>
      keeps_writeWord (hkeep s₂) _ _)
    (fun hgood => mapPagePtWith_spec hst hpt₂ False.elim hv hl₂ hflags.attributeBits (hk₂ _ _ hp₄ hn₃) hn₂ hgood
      False.elim)
  have hout := hout₁.trans hout₂
  refine Outcome.ends_bind (Outcome.ends_weaken (Outcome.ends_mono hpt fun _ s₃ hs₃ => ?_) fun _ ht => hout.trans ht)
  obtain ⟨hout₃, -, -, hlen₃⟩ := hs₃
  -- the leaf entry takes no frame
  refine Outcome.ends_mono (keeps_writePte (hkeep s) _ _ s₃ (hout.trans hout₃)) fun _ _ ht => ⟨ht, ?_⟩
  simp only [List.nil_append, List.cons_append] at hlen₁ hlen₂ hlen₃
  rw [ht₂.missing_eq hp₂ hp₃ (by simp), ht₁.missing_eq hp₂ hp₄ (by simp)] at hlen₃
  rw [ht₁.missing_eq hp₃ hp₄ (by simp)] at hlen₂
  unfold missingTables
  omega

end MapPage

end KoalemOS.Paging
