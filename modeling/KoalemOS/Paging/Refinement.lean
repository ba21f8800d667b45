import KoalemOS.Paging.MapPageSpec

/-!
# The page table editor refines a map of pages

Abstractly, the page tables are a map from addresses to leaf entries, the same for all
addresses of one page; `map_page` and `unmap_page` update it at one page
(`PageOp.apply`). `PageOp.refines` is the simulation of one call: it returns, keeps the
tables a tree with the window in slot 511, and updates the map. `edit_run_refines` is
the simulation of any sequence of calls, between which frames may be given to
`phys_mmap` and taken from it.
-/

namespace KoalemOS.Paging

open KoalemOS.Library KoalemOS.Mmap

/-! ## The abstract map -/

/-- The leaf entry of every address, with the number of address bits its page spans. -/
abbrev PageMap := Nat → Option (Nat × Nat)

/-- A call of the editor. -/
inductive PageOp where
  | mapPage (v p flags : Nat)
  | unmapPage (v : Nat)

/-- The page a call is about. -/
def PageOp.page : PageOp → Nat
  | .mapPage v _ _ => v
  | .unmapPage v => v

/-- The leaf entry a call leaves for its page. -/
def PageOp.leaf : PageOp → Option (Nat × Nat)
  | .mapPage _ p flags => some (p ||| pagingFlagPresent ||| flags, 12)
  | .unmapPage _ => none

/-- What a call means for the map. -/
def PageOp.apply (M : PageMap) (op : PageOp) : PageMap := fun w =>
  if w / 4096 = op.page / 4096 then op.leaf else M w

/-- The map the tables in memory stand for. -/
def Kernel.pageMap (s : Kernel) : PageMap := walk s.mem s.cr3

/-! ## Calls -/

/-- The code of a call. -/
def PageOp.run : PageOp → KernelM Unit
  | .mapPage v p flags => Paging.mapPage v p flags
  | .unmapPage v => Paging.unmapPage v

/-- What a caller owes. -/
def PageOp.Valid (s : Kernel) : PageOp → Prop
  | .mapPage v p flags => UserPage v ∧ FrameAddr p ∧ FlagsOk flags ∧ NoLargePage s.mem s.cr3 v ∧
      FreshFrames s (missingTables s.mem s.cr3 v)
  | .unmapPage v => UserPage v ∧ NoLargePage s.mem s.cr3 v ∧ ∃ n, ptAt s.mem s.cr3 v = some n

/-- What a call guarantees: it returns, the tables are a tree still, slot 511 is what it
was, and the map outside slot 511 has been updated at the page of the call. -/
structure PageOp.Post (op : PageOp) (s s' : Kernel) : Prop where
  returns : op.run.Returns s () s'
  pageTables : PageTables s'.mem s'.cr3
  cr3 : s'.cr3 = s.cr3
  window : tables s'.mem (frameOf s'.cr3) 511 = tables s.mem (frameOf s.cr3) 511
  pageMap : ∀ w, index w 39 ≠ 511 → s'.pageMap w = op.apply s.pageMap w

theorem Edited.post {s s' : Kernel} {op : PageOp} {pte : Nat} {taken : List Nat}
    (h : Edited s s' op.page pte taken) (hret : op.run.Returns s () s') (hv : UserPage op.page)
    (hleaf : (if present pte then some (pte, 12) else none) = op.leaf) : op.Post s s' where
  returns := hret
  pageTables := h.pageTables
  cr3 := h.cr3
  window := h.window
  pageMap w hw := by
    unfold PageOp.apply Kernel.pageMap
    split_ifs with hpage
    · rw [h.walk_self hv hpage, hleaf]
    · exact h.others w hw hpage

/-- One call simulates the update of the map. -/
theorem PageOp.refines {s : Kernel} (h : PageTables s.mem s.cr3) (op : PageOp)
    (hop : op.Valid s) : ∃ s', op.Post s s' := by
  cases op with
  | mapPage v p flags =>
    obtain ⟨hv, hp, hflags, hl, hfresh⟩ := hop
    have hlt : p < 2 ^ 64 := hp.lt.trans (by decide)
    obtain ⟨s', hret, hedit, -⟩ := mapPage_spec h hv hl hlt hflags hfresh
    have hpres : present (p ||| pagingFlagPresent ||| flags) = true :=
      (link_eq_some.mp (link_frame_flags hp hflags).1).1
    exact ⟨s', hedit.post hret hv (by rw [if_pos hpres]; rfl)⟩
  | unmapPage v =>
    obtain ⟨hv, -, n, hn⟩ := hop
    obtain ⟨s', hret, hedit, -⟩ := unmapPage_spec h hv hn
    exact ⟨s', hedit.post hret hv rfl⟩

/-- An entry of a mapped page is its frame address with the flags and the present bit. -/
theorem leaf_decode {p flags : Nat} (hp : FrameAddr p) (hflags : FlagsOk flags) :
    4096 * frameOf (p ||| pagingFlagPresent ||| flags) = p ∧
      (p ||| pagingFlagPresent ||| flags) % 4096 = flags ||| pagingFlagPresent := by
  have ha := hp.aligned
  obtain ⟨-, -, hframe⟩ := link_eq_some.mp (link_frame_flags hp hflags).1
  refine ⟨by rw [hframe]; omega, ?_⟩
  have hlow : pagingFlagPresent ||| flags < 2 ^ 12 :=
    Nat.or_lt_two_pow (by decide) (by have := hflags.low; omega)
  rw [Nat.or_assoc, lor_eq_add (i := 12) (by omega) hlow, Nat.or_comm flags]
  omega

/-! ## Runs -/

/-- Sequences of calls, between which `phys_mmap` may change. -/
inductive EditRun (s₀ : Kernel) : List PageOp → Kernel → Prop where
  | start : EditRun s₀ [] s₀
  | frames {ops : List PageOp} {s : Kernel} (m : MemoryMap) :
      EditRun s₀ ops s → EditRun s₀ ops { s with physMmap := m }
  | call {ops : List PageOp} {s s' : Kernel} (op : PageOp) :
      EditRun s₀ ops s → op.Valid s → op.run.Returns s () s' → EditRun s₀ (ops ++ [op]) s'

/-- The tables stay a tree and the map is the updates applied in order. -/
theorem EditRun.refines {s₀ s : Kernel} {ops : List PageOp} (h₀ : PageTables s₀.mem s₀.cr3)
    (hrun : EditRun s₀ ops s) :
    PageTables s.mem s.cr3 ∧ s.cr3 = s₀.cr3 ∧
      tables s.mem (frameOf s.cr3) 511 = tables s₀.mem (frameOf s₀.cr3) 511 ∧
      ∀ w, index w 39 ≠ 511 → s.pageMap w = ops.foldl PageOp.apply s₀.pageMap w := by
  induction hrun with
  | start => exact ⟨h₀, rfl, rfl, fun _ _ => rfl⟩
  | frames m _ ih => exact ih
  | @call ops s s' op _ hop hret ih =>
    obtain ⟨hpt, hcr3, hwindow, hmap⟩ := ih
    obtain ⟨s'', hpost⟩ := op.refines hpt hop
    obtain ⟨-, rfl⟩ := hret.det hpost.returns
    refine ⟨hpost.pageTables, hpost.cr3.trans hcr3, hpost.window.trans hwindow, fun w hw => ?_⟩
    rw [hpost.pageMap w hw, List.foldl_append]
    simp only [List.foldl_cons, List.foldl_nil, PageOp.apply, hmap w hw]

/-- **The page table editor refines a finite map.** Start from tables that form a tree
with slot 511 of the PML4 linked to the PML4. After any sequence of calls: the tables
form such a tree, with the same slot 511; the walk of every address outside slot 511
finds what the updates, applied in order, say; and every further valid call returns
and updates the map at its page only, `map_page(v, p, flags)` to an entry with exactly
the frame `p` and the flags with the present bit, `unmap_page(v)` to not present. -/
theorem edit_run_refines {s₀ s : Kernel} {ops : List PageOp} (h₀ : PageTables s₀.mem s₀.cr3)
    (hrun : EditRun s₀ ops s) :
    PageTables s.mem s.cr3 ∧ tables s.mem (frameOf s.cr3) 511 = tables s₀.mem (frameOf s₀.cr3) 511 ∧
      (∀ w, index w 39 ≠ 511 → s.pageMap w = ops.foldl PageOp.apply s₀.pageMap w) ∧
      (∀ op : PageOp, op.Valid s → ∃ s', op.Post s s') ∧
      ∀ v p flags s', (PageOp.mapPage v p flags).Valid s →
        (Paging.mapPage v p flags).Returns s () s' →
          ∃ e, walk s'.mem s'.cr3 v = some (e, 12) ∧ 4096 * frameOf e = p ∧
            e % 4096 = flags ||| pagingFlagPresent := by
  obtain ⟨hpt, -, hwindow, hmap⟩ := hrun.refines h₀
  refine ⟨hpt, hwindow, hmap, fun op hop => op.refines hpt hop, fun v p flags s' hop hret => ?_⟩
  obtain ⟨s'', hpost⟩ := PageOp.refines hpt _ hop
  obtain ⟨-, rfl⟩ := hret.det hpost.returns
  obtain ⟨hv, hp, hflags, -, -⟩ := hop
  refine ⟨p ||| pagingFlagPresent ||| flags, ?_, leaf_decode hp hflags⟩
  have hwalk := hpost.pageMap v hv.slot
  exact hwalk.trans (if_pos rfl)

/-- Tables with nothing but the window, the PML4 being frame 1, and frames 16 to 25 free. -/
def windowOnly : Kernel where
  mem := Mem.store64 (fun _ => 0) (4096 * 1 + 8 * (511 : Fin 512)) 0x1003
  cr3 := 0x1000
  physMmap := ⟨fun _ => ⟨0x10000, 10⟩, 1, 256⟩
  virtMmap := ⟨fun _ => ⟨0, 0⟩, 0, 0⟩
  virtRanges := 0
  kernelHeapEnd := 0
  firstHeapEntry := 0
  lastHeapEntry := 0
  apBootPaddrUnset := true
  apBootPaddr := 0
  allocLog := []

theorem tables_windowOnly :
    tables windowOnly.mem = Tables.set (fun _ _ => 0) 1 511 0x1003 := by
  have hzero : tables (fun _ => 0) = fun _ _ => 0 := by
    funext n i
    exact (Mem.loadLE_of_digits (v := 0) fun j _ => by rw [Nat.zero_div]; rfl).trans (by decide)
  rw [← hzero]
  exact tables_store64 _ 1 511 (by decide)

/-- The PML4 is the only table. -/
theorem tableAt_windowOnly {p : List (Fin 512)} (hp : tablePaths.mem p) :
    tableAt windowOnly.mem windowOnly.cr3 p = if p = [] then some 1 else none := by
  cases p with
  | nil => decide
  | cons i p =>
    have hi : i ≠ 511 := fun h => hp.2 i rfl h
    rw [if_neg (List.cons_ne_nil i p), tableAt, Tables.descend, tables_windowOnly,
      Tables.set_apply_of_ne (.inr hi), link_zero, Option.bind_none]

theorem isTable_windowOnly {n : Nat} (h : IsTable windowOnly.mem windowOnly.cr3 n) : n = 1 := by
  obtain ⟨p, hp, hn⟩ := h
  rw [tableAt_windowOnly hp] at hn
  split_ifs at hn
  exact (Option.some.inj hn).symm

theorem pageTables_windowOnly : PageTables windowOnly.mem windowOnly.cr3 := by
  constructor
  · rw [tables_windowOnly]
    decide
  · intro p q n hp hq hn hn'
    have hp' := (tableAt_windowOnly hp).symm.trans hn
    have hq' := (tableAt_windowOnly hq).symm.trans hn'
    split_ifs at hp' hq' with h h'
    rw [h, h']

theorem missing_windowOnly {p : List (Fin 512)} (hp : tablePaths.mem p) (hne : p ≠ []) :
    missing windowOnly.mem windowOnly.cr3 p = 1 := by
  rw [missing, tableAt_windowOnly hp, if_neg hne, if_pos rfl]

theorem missingTables_windowOnly {v : Nat} (hslot : index v 39 ≠ 511) :
    missingTables windowOnly.mem windowOnly.cr3 v = 3 := by
  have hpdpt := missing_windowOnly (UpperOf.pml4.mem (S := (· ≠ 511)) hslot).2 (by simp)
  have hpd := missing_windowOnly (UpperOf.pdpt.mem (S := (· ≠ 511)) hslot).2 (by simp)
  have hpt := missing_windowOnly (UpperOf.pd.mem (S := (· ≠ 511)) hslot).2 (by simp)
  simp only [List.nil_append, List.cons_append] at hpdpt hpd hpt
  rw [missingTables, hpdpt, hpd, hpt]

theorem noLargePage_windowOnly (v : Nat) (hv : index v 39 ≠ 511) :
    NoLargePage windowOnly.mem windowOnly.cr3 v := by
  intro p i hu e he hpres
  have hpaths : tablePaths.mem p ∧ tablePaths.mem (p ++ [i]) := hu.mem hv
  have hp := hpaths.1
  have hmap : Option.map (fun n => tables windowOnly.mem n i)
      (tableAt windowOnly.mem windowOnly.cr3 p) = some e := he
  rw [tableAt_windowOnly hp, tables_windowOnly] at hmap
  split_ifs at hmap with hnil
  · subst hnil
    have hi : i ≠ 511 := hpaths.2.2 i rfl
    rw [Option.map_some, Tables.set_apply_of_ne (.inr hi)] at hmap
    rw [← Option.some.inj hmap]
    rfl
  · cases hmap

/-- Three tables are allocated for the first page mapped in an empty address space. -/
theorem edit_run_refines_windowOnly :
    ∃ s', (Paging.mapPage 0x200000 0x5000 2).Returns windowOnly () s' ∧
      walk s'.mem s'.cr3 0x200000 = some (0x5003, 12) := by
  have hrefines := edit_run_refines pageTables_windowOnly EditRun.start
  have hvalid : (PageOp.mapPage 0x200000 0x5000 2).Valid windowOnly := by
    refine ⟨⟨by decide, by decide, by decide⟩, ⟨by decide, by decide⟩, ⟨by decide, by decide⟩,
      noLargePage_windowOnly _ (by decide), ?_⟩
    rw [missingTables_windowOnly (by decide)]
    have hframes : (takeFrames 3 windowOnly.physMmap).1 = [0x10000, 0x11000, 0x12000] := by decide
    refine ⟨?_, by rw [hframes]; decide⟩
    rw [hframes]
    intro a ha
    have hbounds : a % 4096 = 0 ∧ 0x10000 ≤ a ∧ a < 2 ^ 48 := by
      simp only [List.mem_cons, List.not_mem_nil, or_false] at ha
      omega
    obtain ⟨haligned, hlow, hlt⟩ := hbounds
    refine ⟨⟨haligned, hlt⟩, by omega, fun h => ?_⟩
    have := isTable_windowOnly h
    omega
  obtain ⟨-, -, -, hcall, -⟩ := hrefines
  obtain ⟨s', hpost⟩ := hcall _ hvalid
  exact ⟨s', hpost.returns, hpost.pageMap 0x200000 (by decide)⟩

end KoalemOS.Paging
