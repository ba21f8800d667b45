import KoalemOS.Paging.SplitPage

/-!
# Mapping and unmapping ranges of pages

From `s` to `s'` the tables may grow and pages be mapped and unmapped, and `Spares P s s'` says
that the addresses in `P` do not notice: their walks stay, and the entries above them lose no
right. `map_page` and `unmap_page` spare all pages but theirs (`mapPage_spares`,
`unmapPage_spares`), so the loops over a range of pages spare all addresses outside the range
(`mapRange_wp`, `unmapRange_returns`). A page that has been mapped with flags has the attributes
of the flags, whatever else is mapped below the entries above it (`LeafWith.view`).
-/

namespace KoalemOS.Paging

open KoalemOS.Library KoalemOS.Mmap

variable {P Q : Nat → Prop} {s s' s'' : Kernel} {v w b p e flags n : Nat} {E : Stop → Prop}

/-! ## What an address does not notice -/

/-- The addresses in `P` do not notice what happens from `s` to `s'`. -/
structure Spares (P : Nat → Prop) (s s' : Kernel) : Prop where
  tables : PageTables s'.mem s'.cr3
  free : FreeFrames s'
  keep : ∀ q n, tablePaths.mem q → tableAt s.mem s.cr3 q = some n → tableAt s'.mem s'.cr3 q = some n
  noLarge : ∀ w, index w 39 ≠ 511 → NoLargePage s.mem s.cr3 w → NoLargePage s'.mem s'.cr3 w
  walks : ∀ w, P w → walk s'.mem s'.cr3 w = walk s.mem s.cr3 w
  rights : ∀ q i x, tablePaths.mem (q ++ [i]) → entries s.mem s.cr3 q i = some x → present x = true →
    ∃ y, entries s'.mem s'.cr3 q i = some (x ||| y)
  executable : ∀ q i x, tablePaths.mem (q ++ [i]) → entries s'.mem s'.cr3 q i = some x → present x = true →
    executeDisable x = true →
    ∃ y, entries s.mem s.cr3 q i = some y ∧ present y = true ∧ executeDisable y = true

theorem Spares.refl (P : Nat → Prop) (h : PageTables s.mem s.cr3) (hfree : FreeFrames s) : Spares P s s where
  tables := h
  free := hfree
  keep _ _ _ hn := hn
  noLarge _ _ hl := hl
  walks _ _ := rfl
  rights _ _ x _ hx _ := ⟨0, by rw [hx, Nat.or_zero]⟩
  executable _ _ x _ hx hpres hxd := ⟨x, hx, hpres, hxd⟩

theorem Spares.trans (h : Spares P s s') (h' : Spares Q s' s'') (hPQ : ∀ w, P w → Q w) : Spares P s s'' where
  tables := h'.tables
  free := h'.free
  keep q n hq hn := h'.keep q n hq (h.keep q n hq hn)
  noLarge w hw hl := h'.noLarge w hw (h.noLarge w hw hl)
  walks w hw := (h'.walks w (hPQ w hw)).trans (h.walks w hw)
  rights q i x hq hx hpres := by
    obtain ⟨y, hy⟩ := h.rights q i x hq hx hpres
    obtain ⟨z, hz⟩ := h'.rights q i _ hq hy (by rw [present_or, hpres, Bool.true_or])
    exact ⟨y ||| z, by rw [hz, Nat.or_assoc]⟩
  executable q i x hq hx hpres hxd := by
    obtain ⟨y, hy, hypres, hyxd⟩ := h'.executable q i x hq hx hpres hxd
    exact h.executable q i y hq hy hypres hyxd

theorem Spares.mono (h : Spares Q s s') (hPQ : ∀ w, P w → Q w) : Spares P s s' :=
  { h with walks := fun w hw => h.walks w (hPQ w hw) }

/-- The page table of an address is there still. -/
theorem Spares.ptAt (h : Spares P s s') (hv : index v 39 ≠ 511) (hn : ptAt s.mem s.cr3 v = some n) :
    ptAt s'.mem s'.cr3 v = some n := h.keep _ n (UpperOf.pd.mem hv).2 hn

/-! ## Mapped pages -/

/-- The entries above the leaf entry of an address allow what the flags allow. -/
def Rights (s : Kernel) (w flags : Nat) : Prop := ∀ q i, UpperOf w q i →
  ∃ x, entries s.mem s.cr3 q i = some x ∧ present x = true ∧ (readWrite flags = true → readWrite x = true) ∧
    (userSupervisor flags = true → userSupervisor x = true)

/-- No entry above the leaf entry of an address disables execution. -/
def Executable (s : Kernel) (w : Nat) : Prop := ∀ q i, UpperOf w q i → ∀ x,
  entries s.mem s.cr3 q i = some x → present x = true → executeDisable x = false

/-- The small page of `w` has the leaf entry `e`, below entries that allow what the flags allow. -/
structure LeafWith (s : Kernel) (w e flags : Nat) : Prop where
  walk : walk s.mem s.cr3 w = some (e, 12)
  rights : Rights s w flags

theorem Rights.spared (h : Rights s w flags) (hs : Spares P s s') (hw : index w 39 ≠ 511) : Rights s' w flags := by
  intro q i hu
  obtain ⟨x, hx, hpres, hrw, hus⟩ := h q i hu
  obtain ⟨y, hy⟩ := hs.rights q i x (hu.mem hw).2 hx hpres
  refine ⟨x ||| y, hy, ?_, fun hf => ?_, fun hf => ?_⟩
  · rw [present_or, hpres, Bool.true_or]
  · rw [readWrite_or, hrw hf, Bool.true_or]
  · rw [userSupervisor_or, hus hf, Bool.true_or]

theorem LeafWith.spared (h : LeafWith s w e flags) (hs : Spares P s s') (hw : index w 39 ≠ 511) (hP : P w) :
    LeafWith s' w e flags :=
  ⟨(hs.walks w hP).trans h.walk, h.rights.spared hs hw⟩

theorem Executable.spared (h : Executable s w) (hs : Spares P s s') (hw : index w 39 ≠ 511) : Executable s' w := by
  intro q i hu x hx hpres
  by_contra hxd
  obtain ⟨y, hy, hypres, hyxd⟩ := hs.executable q i x (hu.mem hw).2 hx hpres (by simpa using hxd)
  rw [h q i hu y hy hypres] at hyxd
  cases hyxd

theorem writeThrough_or (a b : Nat) : writeThrough (a ||| b) = (writeThrough a || writeThrough b) := by
  have hbit : ∀ e, writeThrough e = e.testBit 3 := fun e =>
    (Nat.testBit_eq_decide_div_mod_eq (x := e) (i := 3)).symm
  rw [hbit, hbit, hbit, Nat.testBit_or]

theorem cacheDisable_or (a b : Nat) : cacheDisable (a ||| b) = (cacheDisable a || cacheDisable b) := by
  have hbit : ∀ e, cacheDisable e = e.testBit 4 := fun e =>
    (Nat.testBit_eq_decide_div_mod_eq (x := e) (i := 4)).symm
  rw [hbit, hbit, hbit, Nat.testBit_or]

theorem frameOf_lor (a b : Nat) : frameOf (a ||| b) = frameOf a ||| frameOf b := by
  have hframe : ∀ e, frameOf e = (e >>> 12) &&& (2 ^ 40 - 1) := fun e => by
    rw [Nat.and_two_pow_sub_one_eq_mod, Nat.shiftRight_eq_div_pow]
    rfl
  rw [hframe, hframe, hframe, Nat.shiftRight_or_distrib, Nat.and_or_distrib_right]

/-- What an entry with a frame address and flags says. -/
theorem leaf_bits (hp : p % 4096 = 0) (hlt : p < 2 ^ 52) (hflags : AttributeBits flags) :
    frameOf (p ||| pagingFlagPresent ||| flags) = p / 4096 ∧
      readWrite (p ||| pagingFlagPresent ||| flags) = readWrite flags ∧
      userSupervisor (p ||| pagingFlagPresent ||| flags) = userSupervisor flags ∧
      writeThrough (p ||| pagingFlagPresent ||| flags) = writeThrough flags ∧
      cacheDisable (p ||| pagingFlagPresent ||| flags) = cacheDisable flags ∧
      executeDisable (p ||| pagingFlagPresent ||| flags) = executeDisable flags := by
  have hzero : frameOf p = p / 4096 ∧ readWrite p = false ∧ userSupervisor p = false ∧ writeThrough p = false ∧
      cacheDisable p = false ∧ executeDisable p = false := by
    simp only [frameOf, readWrite, userSupervisor, writeThrough, cacheDisable, executeDisable, decide_eq_false_iff_not]
    omega
  obtain ⟨hframe, hrw, hus, hwt, hcd, hxd⟩ := hzero
  refine ⟨?_, ?_, ?_, ?_, ?_, ?_⟩
  · rw [frameOf_lor, frameOf_lor, hframe, hflags.frame, Nat.or_zero]
    exact Nat.or_zero _
  · rw [readWrite_or, readWrite_or, hrw]
    rfl
  · rw [userSupervisor_or, userSupervisor_or, hus]
    rfl
  · rw [writeThrough_or, writeThrough_or, hwt]
    rfl
  · rw [cacheDisable_or, cacheDisable_or, hcd]
    rfl
  · rw [executeDisable_or, executeDisable_or, hxd]
    rfl

/-- What the hardware makes of a page with these flags. -/
def flagAttributes (flags : Nat) : Attributes := attributes [flags] flags

/-- A mapped page is what its leaf entry says. -/
theorem LeafWith.view (h : LeafWith s w (p ||| pagingFlagPresent ||| flags) flags) (hexec : Executable s w)
    (hp : p % 4096 = 0) (hlt : p < 2 ^ 52) (hflags : AttributeBits flags) (hxd : executeDisable flags = false) :
    view s.mem s.cr3 w = some (p + w % 4096, flagAttributes flags) := by
  obtain ⟨hframe, hrw, hus, hwt, hcd, hxd'⟩ := leaf_bits hp hlt hflags
  obtain ⟨hleaf, honly⟩ := trail_of_small h.walk
  obtain ⟨m, hm, -⟩ := ptAt_of_walk h.walk
  -- an entry on the way is the leaf entry or one above it
  have htrail : ∀ x ∈ trail s.mem s.cr3 w, x = p ||| pagingFlagPresent ||| flags ∨
      ∃ q i, UpperOf w q i ∧ entries s.mem s.cr3 q i = some x ∧ present x = true := by
    intro x hx
    obtain ⟨q, i, hq, he⟩ := mem_trail_iff.mp hx
    exact (honly q i hq x he).imp id fun hx => ⟨q, i, upperOf_iff_isPrefix.mpr ⟨hq, hx.1⟩, he, hx.2⟩
  have hall : ∀ f : Nat → Bool, f (p ||| pagingFlagPresent ||| flags) = f flags →
      (f flags = true → ∀ q i x, UpperOf w q i → entries s.mem s.cr3 q i = some x → f x = true) →
      (trail s.mem s.cr3 w).all f = f flags := by
    intro f hf hupper
    rw [Bool.eq_iff_iff, List.all_eq_true]
    refine ⟨fun hevery => hf ▸ hevery _ hleaf, fun hset x hx => ?_⟩
    rcases htrail x hx with rfl | ⟨q, i, hu, he, -⟩
    · rw [hf, hset]
    · exact hupper hset q i x hu he
  have hentry : ∀ q i x, UpperOf w q i → entries s.mem s.cr3 q i = some x →
      (readWrite flags = true → readWrite x = true) ∧ (userSupervisor flags = true → userSupervisor x = true) := by
    intro q i x hu he
    obtain ⟨y, hy, -, hrights⟩ := h.rights q i hu
    obtain rfl : x = y := Option.some.inj (he.symm.trans hy)
    exact hrights
  have hany : (trail s.mem s.cr3 w).any executeDisable = false := by
    rw [List.any_eq_false]
    intro x hx
    rcases htrail x hx with rfl | ⟨q, i, hu, he, hpres⟩
    · rw [hxd', hxd]
      decide
    · rw [hexec q i hu x he hpres]
      decide
  rw [Paging.view, h.walk, Option.map_some, leafAddr_small, hframe, attributes,
    hall readWrite hrw fun hset q i x hu he => (hentry q i x hu he).1 hset,
    hall userSupervisor hus fun hset q i x hu he => (hentry q i x hu he).2 hset, hany, hwt, hcd]
  have haddr : 4096 * (p / 4096) = p := Nat.mul_div_cancel' (Nat.dvd_of_mod_eq_zero hp)
  simp [flagAttributes, attributes, haddr, hxd]

/-! ## One page -/

/-- The addresses outside the window slot and off the page of `v`. -/
def OffPage (v w : Nat) : Prop := index w 39 ≠ 511 ∧ w / 4096 ≠ v / 4096

/-- An edit of the leaf entry of a page that adds flags to entries above it spares the other pages. -/
theorem Mapped.spares {R : List (Fin 512) → Fin 512 → Prop} {taken : List Nat} (h : Mapped s s' v e taken)
    (hl : LinkEdit R (LeafOf v) s s' flags) (hR : ∀ q i, R q i → UpperOf v q i ∧ NoLargePage s.mem s.cr3 v)
    (hxd : executeDisable flags = false) : Spares (OffPage v) s s' := by
  have hcr3 : s'.cr3 = s.cr3 := h.cr3
  have hoff : ∀ q i, tablePaths.mem (q ++ [i]) → ¬LeafOf v q i := by
    rintro q i hq ⟨rfl, -⟩
    have hlen := hq.1
    simp at hlen
  refine ⟨h.pageTables, h.free, h.keep, h.noLarge, fun w hw => h.others w hw.1 hw.2, fun q i x hq hx hpres => ?_,
    fun q i x hq hx hpres hx' => ?_⟩
  · by_cases hupper : R q i
    · obtain ⟨b, hb, -, hold⟩ := hl.on q i hupper
      rw [hcr3]
      rcases hold with hold | ⟨hnone, -⟩
      · obtain rfl : b = x := Option.some.inj (hold.symm.trans hx)
        exact ⟨flags, hb⟩
      · -- a present entry links to a table that was there
        obtain ⟨n, hn, rfl⟩ := table_of_entries hx
        obtain ⟨hu, hlarge⟩ := hR q i hupper
        rw [tableAt_concat, hn, Option.bind_some] at hnone
        exact absurd hnone (hlarge.link_ne_none hu hn hpres)
    · rcases hl.off q i (tablePaths.init_mem q i hq) hupper (hoff q i hq) with heq | ⟨⟨hnone, -⟩, -⟩
      · exact ⟨0, by rw [hcr3, heq, hx, Nat.or_zero]⟩
      · rw [hx] at hnone
        cases hnone
  · rw [hcr3] at hx
    by_cases hupper : R q i
    · obtain ⟨b, hb, hbpres, hold⟩ := hl.on q i hupper
      obtain rfl : x = b ||| flags := Option.some.inj (hx.symm.trans hb)
      rw [executeDisable_or, hxd, Bool.or_false] at hx'
      rcases hold with hold | ⟨-, a, ha, rfl⟩
      · exact ⟨b, hold, hbpres, hx'⟩
      · -- a link to a new table
        have hlt := ha.lt
        have hno : executeDisable (a ||| pagingFlagPresent) = false := by
          rw [executeDisable_or, show executeDisable pagingFlagPresent = false from rfl, Bool.or_false]
          simp only [executeDisable, decide_eq_false_iff_not]
          omega
        rw [hno] at hx'
        cases hx'
    · rcases hl.off q i (tablePaths.init_mem q i hq) hupper (hoff q i hq) with heq | ⟨⟨-, hzero⟩, -⟩
      · exact ⟨x, heq.symm.trans hx, hpres, hx'⟩
      · rw [hx] at hzero
        rw [Option.some.inj hzero] at hpres
        cases hpres

/-- **`map_page`** maps its page and spares the others, or finds no frame for a table. -/
theorem mapPage_spares (h : PageTables s.mem s.cr3) (hfree : FreeFrames s) (hv : UserPage v)
    (hl : NoLargePage s.mem s.cr3 v) (hp : p < 2 ^ 64) (hflags : AttributeBits flags)
    (hxd : executeDisable flags = false) (hE : MayMap E s v) :
    Outcome.wp E (mapPage v p flags) (fun _ s' => Spares (OffPage v) s s' ∧
      ∀ w, w / 4096 = v / 4096 → LeafWith s' w (p ||| pagingFlagPresent ||| flags) flags) s := by
  refine Outcome.wp_mono (mapPageWith_links (p := p) storesWord_writeWord h False.elim hfree hv hl hp hflags
    False.elim hE) fun _ s' hs => ?_
  obtain ⟨⟨taken, hm⟩, hlinks⟩ := hs
  refine ⟨hm.spares hlinks (fun q i hu => ⟨hu, hl⟩) hxd, fun w hw => ⟨?_, fun q i hu => ?_⟩⟩
  · rw [hm.walk_self hv hw, if_pos]
    rw [present_or, present_or]
    simp [present]
  · have hidx : ∀ k, 12 ≤ k → index w k = index v k := fun k hk => index_of_same_page hw hk
    have hu' : UpperOf v q i := by
      rw [upperOf_iff] at hu ⊢
      rwa [hidx 39 (by decide), hidx 30 (by decide), hidx 21 (by decide)] at hu
    obtain ⟨b, hb, hpres, -⟩ := hlinks.on q i hu'
    rw [← hm.cr3] at hb
    refine ⟨b ||| flags, hb, ?_, fun hf => ?_, fun hf => ?_⟩
    · rw [present_or, hpres, Bool.true_or]
    · rw [readWrite_or, hf, Bool.or_true]
    · rw [userSupervisor_or, hf, Bool.or_true]

/-- **`unmap_page`** unmaps its page and spares the others. -/
theorem unmapPage_spares (h : PageTables s.mem s.cr3) (hfree : FreeFrames s) (hv : UserPage v)
    (hn : ptAt s.mem s.cr3 v = some n) : ∃ s', (unmapPage v).Returns s () s' ∧ Spares (OffPage v) s s' ∧
      ∀ w, w / 4096 = v / 4096 → walk s'.mem s'.cr3 w = none := by
  obtain ⟨s', hret, hedit, hmap, hlinks⟩ := unmapPageWith_spec 0 storesWord_writeWord h False.elim hv hn
  have hm := hedit.mapped hfree (by rw [hmap]; exact hfree.wf) (by rw [hmap]; exact .refl _) (by rw [hmap])
    (by rw [hmap])
  exact ⟨s', hret, hm.spares hlinks (fun _ _ hno => hno.elim) rfl, fun w hw => hedit.walk_self hv hw⟩

/-! ## Ranges of pages -/

/-- The addresses of the `n` pages from `b` on. -/
def InPages (b n w : Nat) : Prop := b ≤ w ∧ w < b + 4096 * n

/-- The `n` pages from `b` on can be mapped one by one. -/
structure UserPages (b n : Nat) : Prop where
  aligned : b % 4096 = 0
  lower : 2 ^ 64 - 2 ^ 47 ≤ b
  upper : b + 4096 * n ≤ 2 ^ 64 - 2 ^ 39

theorem UserPages.page {i : Nat} (h : UserPages b n) (hi : i < n) : UserPage (b + 4096 * i) := by
  obtain ⟨haligned, hlower, hupper⟩ := h
  refine ⟨?_, by omega, fun h511 => ?_⟩
  · simp only [canonical, Bool.or_eq_true, Bool.and_eq_true, decide_eq_true_eq]
    omega
  · have hval := congrArg Fin.val h511
    simp only [index] at hval
    omega

theorem UserPages.slot (h : UserPages b n) (hw : InPages b n w) : index w 39 ≠ 511 := by
  obtain ⟨-, hlower, hupper⟩ := h
  obtain ⟨hle, hlt⟩ := hw
  intro h511
  have hval := congrArg Fin.val h511
  simp only [index] at hval
  omega

/-- The addresses outside the window slot and off a range of pages. -/
def OffPages (b n w : Nat) : Prop := index w 39 ≠ 511 ∧ ¬InPages b n w

theorem OffPages.offPage {i : Nat} (hb : b % 4096 = 0) (h : OffPages b (i + 1) w) :
    OffPages b i w ∧ OffPage (b + 4096 * i) w := by
  obtain ⟨hw, hoff⟩ := h
  unfold InPages at hoff
  refine ⟨⟨hw, ?_⟩, hw, ?_⟩
  · unfold InPages
    omega
  · omega

/-- The next page, or one of those before it. -/
theorem InPages.last {i : Nat} (hb : b % 4096 = 0) (h : InPages b (i + 1) w) :
    InPages b i w ∧ w / 4096 ≠ (b + 4096 * i) / 4096 ∨ w / 4096 = (b + 4096 * i) / 4096 := by
  unfold InPages at h ⊢
  omega

/-- What the page tables say of the pages that have been mapped to the frames from `p` on. -/
def MapsPages (s : Kernel) (b p flags n : Nat) : Prop := ∀ w, InPages b n w →
  LeafWith s w (p + (w - b) / 4096 * 4096 ||| pagingFlagPresent ||| flags) flags

/-- **A loop of `map_page`** maps a range of pages to a range of frames. -/
theorem mapRange_wp (h : PageTables s.mem s.cr3) (hfree : FreeFrames s) (hb : UserPages b n)
    (hl : ∀ i < n, NoLargePage s.mem s.cr3 (b + 4096 * i)) (hp : p + 4096 * n ≤ 2 ^ 64)
    (hflags : AttributeBits flags) (hxd : executeDisable flags = false) (hE : ∀ i < n, MayMap E s (b + 4096 * i)) :
    Outcome.wp E (Outcome.loop 0 n fun i => mapPage (wrap (b + 0x1000 * i)) (wrap (p + 0x1000 * i)) flags)
      (fun _ s' => Spares (OffPages b n) s s' ∧ MapsPages s' b p flags n) s := by
  have haligned := hb.aligned
  have hupper := hb.upper
  refine Outcome.wp_mono (Outcome.wp_loop (fun i t => Spares (OffPages b i) s t ∧ MapsPages t b p flags i) 0 n ?_ ?_)
    fun _ t ht => by rwa [Nat.zero_add] at ht
  · intro i t _ hi ht
    rw [Nat.zero_add] at hi
    obtain ⟨hs, hmaps⟩ := ht
    have hpage := hb.page hi
    have hmay : MayMap E t (b + 4096 * i) := by
      refine (hE i hi).imp id ?_
      rintro ⟨m, hm⟩
      exact ⟨m, hs.ptAt hpage.slot hm⟩
    rw [wrap_of_lt (by omega), wrap_of_lt (by omega)]
    refine Outcome.wp_mono (mapPage_spares hs.tables hs.free hpage (hs.noLarge _ hpage.slot (hl i hi)) (by omega)
      hflags hxd hmay) fun _ t' ht' => ?_
    obtain ⟨hspares, hself⟩ := ht'
    refine ⟨(hs.mono fun w hw => (hw.offPage haligned).1).trans hspares fun w hw => (hw.offPage haligned).2,
      fun w hw => ?_⟩
    rcases hw.last haligned with ⟨hw', hne⟩ | heq
    · have hslot : index w 39 ≠ 511 := hb.slot ⟨hw'.1, by have := hw'.2; omega⟩
      exact (hmaps w hw').spared hspares hslot ⟨hslot, hne⟩
    · have hframe : p + (w - b) / 4096 * 4096 = p + 4096 * i := by
        unfold InPages at hw
        omega
      rw [hframe]
      exact hself w heq
  · refine ⟨Spares.refl _ h hfree, fun w hw => ?_⟩
    unfold InPages at hw
    omega

/-- **A loop of `unmap_page`** unmaps a range of pages that have page tables. -/
theorem unmapRange_returns (h : PageTables s.mem s.cr3) (hfree : FreeFrames s) (hb : UserPages b n)
    (hpt : ∀ i < n, ∃ m, ptAt s.mem s.cr3 (b + 4096 * i) = some m) :
    ∃ s', (Outcome.loop 0 n fun i => unmapPage (wrap (b + 0x1000 * i))).Returns s () s' ∧
      Spares (OffPages b n) s s' ∧ ∀ w, InPages b n w → walk s'.mem s'.cr3 w = none := by
  have haligned := hb.aligned
  have hupper := hb.upper
  have hwp : Outcome.wp (fun _ => False) (Outcome.loop 0 n fun i => unmapPage (wrap (b + 0x1000 * i)))
      (fun _ s' => Spares (OffPages b n) s s' ∧ ∀ w, InPages b n w → walk s'.mem s'.cr3 w = none) s := by
    refine Outcome.wp_mono (Outcome.wp_loop (fun i t => Spares (OffPages b i) s t ∧
      ∀ w, InPages b i w → walk t.mem t.cr3 w = none) 0 n ?_ ?_) fun _ t ht => by rwa [Nat.zero_add] at ht
    · intro i t _ hi ht
      rw [Nat.zero_add] at hi
      obtain ⟨hs, hnone⟩ := ht
      have hpage := hb.page hi
      obtain ⟨m, hm⟩ := hpt i hi
      obtain ⟨t', hret, hspares, hself⟩ := unmapPage_spares hs.tables hs.free hpage (hs.ptAt hpage.slot hm)
      rw [wrap_of_lt (by omega)]
      refine Outcome.wp_of_returns hret ⟨(hs.mono fun w hw => (hw.offPage haligned).1).trans hspares
        fun w hw => (hw.offPage haligned).2, fun w hw => ?_⟩
      rcases hw.last haligned with ⟨hw', hne⟩ | heq
      · have hslot : index w 39 ≠ 511 := hb.slot ⟨hw'.1, by have := hw'.2; omega⟩
        exact (hspares.walks w ⟨hslot, hne⟩).trans (hnone w hw')
      · exact hself w heq
    · refine ⟨Spares.refl _ h hfree, fun w hw => ?_⟩
      unfold InPages at hw
      omega
  obtain ⟨_, s', hret, hpost⟩ := Outcome.returns_of_wp hwp fun _ _ _ hf => hf
  exact ⟨s', hret, hpost⟩

end KoalemOS.Paging
