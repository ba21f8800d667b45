import KoalemOS.Paging.FreeFrames

/-!
# Write-protect faults of the page table editor

`map_page` makes the entries above the one it stores to writable for the moment, but not
where an entry is present and only gets the flags. There it faults under write protection
unless the entries above are writable (`mapPageWith_faults`); in every other state it does
not (`ProtectedRun.faults_iff`).
-/

namespace KoalemOS.Paging

open KoalemOS.Library KoalemOS.Mmap

/-! ## Calls that fault -/

section Faults

variable {s : Kernel} {v p flags : Nat}

/-- Flags for a present entry below one that is not writable. -/
theorem orWordWith_faults {addr n x : Nat} {q : List (Fin 512)} {i : Fin 512} (h : PageTables s.mem s.cr3)
    (ha : Shows addr q i) (hn : tableAt s.mem s.cr3 q = some n)
    (hx : x ∈ Tables.trail link (tables s.mem) (frameOf s.cr3) q) (hrw : readWrite x = false) :
    (orWordWith writeWordProtected addr flags).Stops s (.pageFault addr) s := by
  have hread : (readWord addr).Returns s (tables s.mem n i) s := readEntry (ha.translate h.selfMap hn)
  refine Outcome.stops_bind_iff.mpr (.inr ⟨_, _, hread, writeWordProtected_stops ?_⟩)
  rw [writableAt, ha.trail h.selfMap, List.all_eq_false]
  exact ⟨x, List.mem_append_right _ hx, by simp [hrw]⟩

/-- A part of `map_page` that finds its table. -/
theorem part_faults {addr e : Nat} {m : Nat → KernelM Unit} (hread : (readWord addr).Returns s e s)
    (hpres : present e = true)
    (hor : (orWordWith writeWordProtected addr flags).Stops s (.pageFault addr) s) :
    (readWord addr >>= fun e => if present e then orWordWith writeWordProtected addr flags else m e).Stops s
      (.pageFault addr) s := by
  refine Outcome.stops_bind_iff.mpr (.inr ⟨_, _, hread, ?_⟩)
  rw [if_pos hpres]
  exact hor

/-- The entries above a table are present links. -/
theorem present_above {m : Mem} {cr3 e : Nat} {q : List (Fin 512)} {i j : Fin 512}
    (h : entries m cr3 (q ++ [i]) j = some e) :
    ∃ u, entries m cr3 q i = some u ∧ present u = true := by
  obtain ⟨n, hn, -⟩ := table_of_entries h
  rw [tableAt_concat, Option.bind_eq_some_iff] at hn
  obtain ⟨k, hk, hl⟩ := hn
  exact ⟨_, entries_of_tableAt hk i, (link_eq_some.mp hl).1⟩

/-- The PML4 entry is not writable, and the PDPT entry is present. -/
theorem mapPageWith_faults_pdpte {e u : Nat} (h : PageTables s.mem s.cr3)
    (hw : readWrite (tables s.mem (frameOf s.cr3) 511) = true) (hv : UserPage v)
    (hl : NoLargePage s.mem s.cr3 v) (hflags : AttributeBits flags) (hrw : readWrite flags = false)
    (he : entries s.mem s.cr3 [index v 39] (index v 30) = some e) (hpres : present e = true)
    (hu : entries s.mem s.cr3 [] (index v 39) = some u) (hru : readWrite u = false) :
    ∃ s', (mapPageWith writeWordProtected v p flags).Stops s (.pageFault (pdpteAddrOf v)) s' := by
  have hp₄ : tablePaths.mem [index v 39] := (UpperOf.pml4.mem hv.slot).2
  obtain ⟨n₃, hn₃, he₃⟩ := table_of_entries he
  obtain ⟨s₁, hr₁, hs₁⟩ := mapPagePdptWith_spec storesWord_writeWordProtected h (fun _ => hw) hv hl hflags
    fun hnone => by rw [hn₃] at hnone; cases hnone
  have ht₁ : TableStep s s₁ [index v 39] := hs₁.toTableStep
  have hc₁ : s₁.cr3 = s.cr3 := by rw [ht₁.same]
  obtain ⟨hpt₁, -, hk₁, -⟩ := ht₁.next hv hl
  have hn₃₁ := hk₁ _ _ hp₄ hn₃
  -- after the first part neither entry is writable
  obtain ⟨b, hb, -, hb'⟩ := hs₁.links.old (q := []) ⟨rfl, rfl⟩ he
  obtain rfl : u = b := Option.some.inj (hu.symm.trans hb)
  have hentry₄ : tables s₁.mem (frameOf s₁.cr3) (index v 39) = u ||| flags := by
    rw [hc₁]
    exact Option.some.inj hb'
  have hentry₃ : tables s₁.mem n₃ (index v 30) = e := by
    rcases hs₁.links.off [index v 39] (index v 30) hp₄ (by simp) not_false with heq | ⟨⟨hnone, -⟩, -⟩
    · rw [he] at heq
      exact Option.some.inj ((entries_of_tableAt (hc₁ ▸ hn₃₁) _).symm.trans heq)
    · rw [he] at hnone
      cases hnone
  have htrail : u ||| flags ∈ Tables.trail link (tables s₁.mem) (frameOf s₁.cr3) [index v 39] := by
    rw [← hentry₄]
    exact List.mem_cons_self
  have hor : (orWordWith writeWordProtected (pdpteAddrOf v) flags).Stops s₁ (.pageFault (pdpteAddrOf v)) s₁ :=
    orWordWith_faults hpt₁ (shows_pdpte v) hn₃₁ htrail (by rw [readWrite_or, hru, hrw]; rfl)
  have hread : (readWord (pdpteAddrOf v)).Returns s₁ e s₁ := by
    rw [← hentry₃]
    exact readEntry ((shows_pdpte v).translate hpt₁.selfMap hn₃₁)
  refine ⟨s₁, Outcome.stops_bind_iff.mpr (.inr ⟨_, _, hr₁, Outcome.Stops.bind ?_⟩)⟩
  exact part_faults hread hpres hor

/-- The PDPT entry is not writable, and the PD entry is present. -/
theorem mapPageWith_faults_pde {e u u₄ : Nat} (h : PageTables s.mem s.cr3)
    (hw : readWrite (tables s.mem (frameOf s.cr3) 511) = true) (hv : UserPage v)
    (hl : NoLargePage s.mem s.cr3 v) (hflags : AttributeBits flags) (hrw : readWrite flags = false)
    (he : entries s.mem s.cr3 [index v 39, index v 30] (index v 21) = some e) (hpres : present e = true)
    (hu : entries s.mem s.cr3 [index v 39] (index v 30) = some u) (hru : readWrite u = false)
    (hu₄ : entries s.mem s.cr3 [] (index v 39) = some u₄) (hru₄ : readWrite u₄ = true) :
    ∃ s', (mapPageWith writeWordProtected v p flags).Stops s (.pageFault (pdeAddrOf v)) s' := by
  have hp₃ : tablePaths.mem [index v 39, index v 30] := (UpperOf.pdpt.mem hv.slot).2
  have hp₄ : tablePaths.mem [index v 39] := (UpperOf.pml4.mem hv.slot).2
  obtain ⟨n₃, hn₃, -⟩ := table_of_entries hu
  obtain ⟨n₂, hn₂, he₂⟩ := table_of_entries he
  obtain ⟨s₁, hr₁, hs₁⟩ := mapPagePdptWith_spec storesWord_writeWordProtected h (fun _ => hw) hv hl hflags
    fun hnone => by rw [hn₃] at hnone; cases hnone
  have ht₁ : TableStep s s₁ [index v 39] := hs₁.toTableStep
  have hc₁ : s₁.cr3 = s.cr3 := by rw [ht₁.same]
  obtain ⟨hpt₁, hl₁, hk₁, -⟩ := ht₁.next hv hl
  have hn₃₁ := hk₁ _ _ hp₄ hn₃
  have hn₂₁ := hk₁ _ _ hp₃ hn₂
  have hentry₄ : readWrite (tables s₁.mem (frameOf s₁.cr3) (index v 39)) = true := by
    obtain ⟨b, hb, -, hb'⟩ := hs₁.links.old (q := []) ⟨rfl, rfl⟩ hu
    obtain rfl : u₄ = b := Option.some.inj (hu₄.symm.trans hb)
    have hentry : tables s₁.mem (frameOf s.cr3) (index v 39) = u₄ ||| flags := Option.some.inj hb'
    rw [hc₁, hentry, readWrite_or, hru₄]
    rfl
  have hw₁ : True → readWrite (tables s₁.mem (frameOf s₁.cr3) 511) = true := ht₁.window_writable fun _ => hw
  obtain ⟨s₂, hr₂, hs₂⟩ := mapPagePdWith_spec storesWord_writeWordProtected hpt₁ hw₁ hv hl₁ hflags hn₃₁ (fun hnone => by rw [hn₂₁] at hnone; cases hnone) fun _ _ => hentry₄
  have ht₂ : TableStep s₁ s₂ [index v 39, index v 30] := hs₂.toTableStep
  have hc₂ : s₂.cr3 = s.cr3 := by rw [ht₂.same]; exact hc₁
  obtain ⟨hpt₂, -, hk₂, -⟩ := ht₂.next hv hl₁
  have hn₃₂ := hk₂ _ _ hp₄ hn₃₁
  have hn₂₂ := hk₂ _ _ hp₃ hn₂₁
  -- after two parts the PDPT entry is still not writable
  have hlinks := hs₁.links₂ hv hs₂
  obtain ⟨b, hb, -, hb'⟩ := hlinks.old (q := [index v 39]) (.inr ⟨rfl, rfl⟩) he
  obtain rfl : u = b := Option.some.inj (hu.symm.trans hb)
  have hentry₃ : tables s₂.mem n₃ (index v 30) = u ||| flags :=
    Option.some.inj ((entries_of_tableAt (hc₂ ▸ hn₃₂) _).symm.trans hb')
  have hentry₂ : tables s₂.mem n₂ (index v 21) = e := by
    rcases hlinks.off [index v 39, index v 30] (index v 21) hp₃ (by simp) not_false with heq | ⟨⟨hnone, -⟩, -⟩
    · rw [he] at heq
      exact Option.some.inj ((entries_of_tableAt (hc₂ ▸ hn₂₂) _).symm.trans heq)
    · rw [he] at hnone
      cases hnone
  have htrail : u ||| flags ∈ Tables.trail link (tables s₂.mem) (frameOf s₂.cr3)
      ([index v 39] ++ [index v 30]) := by
    rw [Tables.trail_concat hn₃₂, hentry₃]
    exact List.mem_append_right _ List.mem_cons_self
  have hor : (orWordWith writeWordProtected (pdeAddrOf v) flags).Stops s₂ (.pageFault (pdeAddrOf v)) s₂ :=
    orWordWith_faults hpt₂ (shows_pde v) hn₂₂ htrail (by rw [readWrite_or, hru, hrw]; rfl)
  have hread : (readWord (pdeAddrOf v)).Returns s₂ e s₂ := by
    rw [← hentry₂]
    exact readEntry ((shows_pde v).translate hpt₂.selfMap hn₂₂)
  refine ⟨s₂, Outcome.stops_bind_iff.mpr (.inr ⟨_, _, hr₁, Outcome.stops_bind_iff.mpr (.inr ⟨_, _, hr₂,
    Outcome.Stops.bind ?_⟩)⟩)⟩
  exact part_faults hread hpres hor

/-- `map_page` faults where a present entry gets flags below an entry that is not writable. -/
theorem mapPageWith_faults (h : PageTables s.mem s.cr3)
    (hw : readWrite (tables s.mem (frameOf s.cr3) 511) = true) (hv : UserPage v)
    (hl : NoLargePage s.mem s.cr3 v) (hflags : AttributeBits flags)
    (hnot : ¬(readWrite flags = true ∨ AboveWritable s.mem s.cr3 v)) :
    ∃ addr s', (mapPageWith writeWordProtected v p flags).Stops s (.pageFault addr) s' := by
  rw [not_or, Bool.not_eq_true] at hnot
  obtain ⟨hrw, hnot⟩ := hnot
  by_cases hpdpt : ∀ e u, entries s.mem s.cr3 [index v 39] (index v 30) = some e → present e = true →
      entries s.mem s.cr3 [] (index v 39) = some u → readWrite u = true
  · have hpd : ¬∀ e u, entries s.mem s.cr3 [index v 39, index v 30] (index v 21) = some e →
        present e = true → entries s.mem s.cr3 [index v 39] (index v 30) = some u → readWrite u = true :=
      fun hpd => hnot ⟨hpdpt, hpd⟩
    push Not at hpd
    obtain ⟨e, u, he, hpres, hu, hru⟩ := hpd
    obtain ⟨u', hu', hpres'⟩ := present_above (q := [index v 39]) he
    obtain rfl : u = u' := Option.some.inj (hu.symm.trans hu')
    obtain ⟨u₄, hu₄, -⟩ := present_above (q := []) hu
    exact ⟨_, mapPageWith_faults_pde h hw hv hl hflags hrw he hpres hu (by simpa using hru) hu₄
      (hpdpt u u₄ hu hpres' hu₄)⟩
  · push Not at hpdpt
    obtain ⟨e, u, he, hpres, hu, hru⟩ := hpdpt
    exact ⟨_, mapPageWith_faults_pdpte h hw hv hl hflags hrw he hpres hu (by simpa using hru)⟩

end Faults

/-! ## Runs -/

/-- The code of a call, with write protection. -/
def PageOp.runProtected : PageOp → KernelM Unit
  | .mapPage v p flags => mapPageWith writeWordProtected v p flags
  | .unmapPage v => unmapPageWith writeWordProtected v

/-- What a caller owes: flags that are attribute bits, for a page whose tables map small pages
only; a page table for a page to unmap. -/
def PageOp.Allowed (s : Kernel) : PageOp → Prop
  | .mapPage v p flags => UserPage v ∧ p < 2 ^ 64 ∧ AttributeBits flags ∧ NoLargePage s.mem s.cr3 v
  | .unmapPage v => UserPage v ∧ ∃ n, ptAt s.mem s.cr3 v = some n

/-- Flags that include `PAGING_FLAG_READ_WRITE`, or writable entries above the present ones. -/
def PageOp.Writes (s : Kernel) : PageOp → Prop
  | .mapPage v _ flags => readWrite flags = true ∨ AboveWritable s.mem s.cr3 v
  | .unmapPage _ => True

/-- The state between calls. -/
structure ProtectedInv (s : Kernel) : Prop where
  tables : PageTables s.mem s.cr3
  free : FreeFrames s
  window : readWrite (Paging.tables s.mem (frameOf s.cr3) 511) = true

/-- A call whose entries can be written returns or panics. -/
theorem PageOp.wp_runProtected {s : Kernel} (h : ProtectedInv s) (op : PageOp) (hop : op.Allowed s)
    (hwrites : op.Writes s) : Outcome.wp IsPanic op.runProtected (fun _ => ProtectedInv) s := by
  cases op with
  | mapPage v p flags =>
    obtain ⟨hv, hp, hflags, hl⟩ := hop
    refine Outcome.wp_mono (mapPageWith_wp storesWord_writeWordProtected h.tables (fun _ => h.window) h.free
      hv hl hp hflags (fun _ => hwrites) (.inl fun _ he => he)) fun _ s' hs => ?_
    obtain ⟨taken, hs⟩ := hs
    refine ⟨hs.pageTables, hs.free, ?_⟩
    rw [hs.window]
    exact h.window
  | unmapPage v =>
    obtain ⟨hv, n, hn⟩ := hop
    obtain ⟨s', hret, hedit, hmap, -⟩ := unmapPageWith_spec 0 storesWord_writeWordProtected h.tables
      (fun _ => h.window) hv hn
    have hmapped := hedit.mapped h.free (by rw [hmap]; exact h.free.wf) (by rw [hmap]; exact .refl _)
      (by rw [hmap]) (by rw [hmap])
    refine Outcome.wp_of_returns hret ⟨hedit.pageTables, hmapped.free, ?_⟩
    rw [hedit.window]
    exact h.window

/-- Sequences of calls whose entries can be written, between which `phys_mmap` may change. -/
inductive ProtectedRun (s₀ : Kernel) : Kernel → Prop where
  | start : ProtectedRun s₀ s₀
  | frames {s : Kernel} (m : MemoryMap) :
      ProtectedRun s₀ s → FreeFrames { s with physMmap := m } → ProtectedRun s₀ { s with physMmap := m }
  | call {s s' : Kernel} (op : PageOp) :
      ProtectedRun s₀ s → op.Allowed s → op.Writes s → op.runProtected.Returns s () s' → ProtectedRun s₀ s'

theorem ProtectedRun.inv {s₀ s : Kernel} (h : ProtectedInv s₀) (hrun : ProtectedRun s₀ s) : ProtectedInv s := by
  induction hrun with
  | start => exact h
  | frames m _ hfree ih => exact ⟨ih.tables, hfree, ih.window⟩
  | call op _ hop hwrites hret ih => exact hret.of_wp (op.wp_runProtected ih hop hwrites)

/-- **Write protection.** In every state that calls whose entries can be written lead to, a call
does not fault if and only if its entries can be written: it returns, or it panics for want of
a frame. -/
theorem ProtectedRun.faults_iff {s₀ s : Kernel} (h₀ : PageTables s₀.mem s₀.cr3) (hfree : FreeFrames s₀)
    (hwindow : readWrite (tables s₀.mem (frameOf s₀.cr3) 511) = true) (hrun : ProtectedRun s₀ s)
    (op : PageOp) (hop : op.Allowed s) :
    (∀ addr s', ¬op.runProtected.Stops s (.pageFault addr) s') ↔ op.Writes s := by
  have hinv := hrun.inv ⟨h₀, hfree, hwindow⟩
  constructor
  · intro hno
    cases op with
    | mapPage v p flags =>
      obtain ⟨hv, -, hflags, hl⟩ := hop
      by_contra hnot
      obtain ⟨addr, s', hstops⟩ := mapPageWith_faults (p := p) hinv.tables hinv.window hv hl hflags hnot
      exact hno addr s' hstops
    | unmapPage v => trivial
  · intro hwrites addr s' hstops
    obtain ⟨message, hmessage⟩ := hstops.of_wp (op.wp_runProtected hinv hop hwrites)
    cases hmessage

/-! ### Two pages without `PAGING_FLAG_READ_WRITE` -/

theorem entries_windowOnly {q : List (Fin 512)} {i : Fin 512} {e : Nat} (hq : tablePaths.mem (q ++ [i])) :
    entries windowOnly.mem windowOnly.cr3 q i = some e → e = 0 := by
  intro he
  obtain ⟨n, hn, he⟩ := table_of_entries he
  have hi : n ≠ 1 ∨ i ≠ 511 := by
    by_contra hc
    push Not at hc
    obtain ⟨rfl, rfl⟩ := hc
    have hnil := (tableAt_windowOnly (tablePaths.init_mem q 511 hq)).symm.trans hn
    split_ifs at hnil with hq'
    subst hq'
    exact hq.2 511 rfl rfl
  rw [tables_windowOnly, Tables.set_apply_of_ne hi] at he
  exact he.symm

theorem aboveWritable_windowOnly {v : Nat} (hv : UserPage v) :
    AboveWritable windowOnly.mem windowOnly.cr3 v where
  pdpt e u he hpres := by
    rw [entries_windowOnly (UpperOf.pdpt.mem hv.slot).2 he] at hpres
    cases hpres
  pd e u he hpres := by
    rw [entries_windowOnly (UpperOf.pd.mem hv.slot).2 he] at hpres
    cases hpres

/-- The first page of an address space can be mapped without the writable bit. -/
theorem ProtectedRun.faults_iff_windowOnly :
    ¬∃ addr s', (PageOp.mapPage 0x200000 0x5000 0).runProtected.Stops windowOnly (.pageFault addr) s' := by
  have hv : UserPage 0x200000 := ⟨by decide, by decide, by decide⟩
  have hwindow : readWrite (tables windowOnly.mem (frameOf windowOnly.cr3) 511) = true := by
    rw [tables_windowOnly]
    decide
  have hallowed : (PageOp.mapPage 0x200000 0x5000 0).Allowed windowOnly :=
    ⟨hv, by decide, ⟨by decide, by decide, by decide⟩, noLargePage_windowOnly _ hv.slot⟩
  have hwrites : (PageOp.mapPage 0x200000 0x5000 0).Writes windowOnly := .inr (aboveWritable_windowOnly hv)
  rintro ⟨addr, s', hstops⟩
  exact (ProtectedRun.faults_iff pageTables_windowOnly freeFrames_windowOnly hwindow .start _ hallowed).mpr
    hwrites addr s' hstops

/-- The second page of an address space that is mapped without the writable bit faults. -/
theorem mapPage_readOnly_faults :
    ∃ s₁ addr s₂, (PageOp.mapPage 0x200000 0x5000 0).Allowed windowOnly ∧
      (PageOp.mapPage 0x200000 0x5000 0).runProtected.Returns windowOnly () s₁ ∧
      (PageOp.mapPage 0x201000 0x6000 0).Allowed s₁ ∧
      (PageOp.mapPage 0x201000 0x6000 0).runProtected.Stops s₁ (.pageFault addr) s₂ ∧
      readWrite (tables windowOnly.mem (frameOf windowOnly.cr3) 511) = true ∧
      ∀ q i e, tablePaths.mem (q ++ [i]) → entries windowOnly.mem windowOnly.cr3 q i = some e →
        present e = false := by
  have hv : UserPage 0x200000 := ⟨by decide, by decide, by decide⟩
  have hv' : UserPage 0x201000 := ⟨by decide, by decide, by decide⟩
  have hflags : AttributeBits 0 := ⟨by decide, by decide, by decide⟩
  have hlarge := noLargePage_windowOnly 0x200000 hv.slot
  have hwindow : readWrite (tables windowOnly.mem (frameOf windowOnly.cr3) 511) = true := by
    rw [tables_windowOnly]
    decide
  obtain ⟨s₁, hret, -, ⟨taken, hmapped⟩, hlinks⟩ := mapPageWith_returns (p := 0x5000)
    storesWord_writeWordProtected pageTables_windowOnly (fun _ => hwindow) freeFrames_windowOnly hv hlarge
    (by decide) hflags (fun _ => .inr (aboveWritable_windowOnly hv))
    (by rw [missingTables_windowOnly hv.slot]; decide)
  have hc : s₁.cr3 = windowOnly.cr3 := hmapped.cr3
  have hl' := hmapped.noLarge 0x201000 hv'.slot (noLargePage_windowOnly _ hv'.slot)
  have hw' : readWrite (tables s₁.mem (frameOf s₁.cr3) 511) = true := by
    rw [hmapped.window]
    exact hwindow
  obtain ⟨b, he, hpres, -⟩ := hlinks.on _ _ .pdpt
  obtain ⟨u, hu, -, hnew⟩ := hlinks.on _ _ .pml4
  have hru : readWrite (u ||| 0) = false := by
    rcases hnew with hold | ⟨-, a, ha, rfl⟩
    · rw [entries_windowOnly (UpperOf.pml4.mem hv.slot).2 hold]
      rfl
    · -- the link to the new PDPT has no flags
      have haligned := ha.aligned
      have hra : readWrite a = false := by
        simp only [readWrite, decide_eq_false_iff_not]
        omega
      rw [readWrite_or, readWrite_or, hra]
      rfl
  obtain ⟨s₂, hstops⟩ := mapPageWith_faults_pdpte (p := 0x6000) hmapped.pageTables hw' hv' hl' hflags (by decide)
    (e := b ||| 0) (u := u ||| 0) (hc ▸ he) (by rwa [Nat.or_zero]) (hc ▸ hu) hru
  refine ⟨s₁, _, s₂, ⟨hv, by decide, hflags, hlarge⟩, hret, ⟨hv', by decide, hflags, hl'⟩, hstops, hwindow,
    fun q i e hq he => ?_⟩
  rw [entries_windowOnly hq he]
  rfl

end KoalemOS.Paging
