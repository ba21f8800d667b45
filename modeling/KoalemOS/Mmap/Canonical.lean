import KoalemOS.Mmap.GetRange
import KoalemOS.Mmap.Runs

/-!
# Free ranges that touch

In a canonical map no range ends where another begins. `mmap_get_pages` keeps a map canonical;
`mmap_add_range_merge` merges a range with the one above it and not with the one below, so it
keeps a map canonical exactly when no range ends where the new one begins
(`canonical_addRangeMerge_iff`).
-/

namespace KoalemOS.Mmap

open KoalemOS.Library

variable {m m₀ : MemoryMap} {b n : Nat} {r q R : MemoryRange} {rs pre post : List MemoryRange}
  {tr : List (MmapCall × Nat)}

/-- No range ends where another begins. -/
def Canonical (rs : List MemoryRange) : Prop := ∀ r ∈ rs, ∀ q ∈ rs, r.endAddr ≠ q.baseAddr

instance (rs : List MemoryRange) : Decidable (Canonical rs) :=
  inferInstanceAs (Decidable (∀ r ∈ rs, ∀ q ∈ rs, r.endAddr ≠ q.baseAddr))

/-- The ranges lie in the address space, and address 0 is in none of them. -/
def InSpace (rs : List MemoryRange) : Prop := ∀ r ∈ rs, 0 < r.baseAddr ∧ r.endAddr ≤ 2 ^ 64

theorem MemoryMap.Wf.apart (h : m.Wf) : m.Apart := ⟨fun r hr => (h.ranges_wf r hr).pos, h.disjoint⟩

theorem MemoryMap.Wf.inSpace (h : m.Wf) : InSpace m.ranges :=
  fun r hr => ⟨(h.ranges_wf r hr).nonzero, (h.ranges_wf r hr).noWrap⟩

/-! ## One call -/

theorem mergeFirst_none {a : Nat} (h : mergeFirst b n a rs = none) : ∀ r ∈ rs, r.baseAddr ≠ a := by
  induction rs with
  | nil => simp
  | cons r rs ih =>
    simp only [mergeFirst] at h
    split_ifs at h with heq
    exact List.forall_mem_cons.mpr ⟨heq, ih (Option.map_eq_none_iff.mp h)⟩

/-- A range put into the place of another one with the same end. -/
theorem canonical_replace {t : MemoryRange} (hc : Canonical (pre ++ r :: post)) (hend : t.endAddr = r.endAddr)
    (hne : t.endAddr ≠ t.baseAddr) : Canonical (pre ++ t :: post) ↔ ∀ q ∈ pre ++ post, q.endAddr ≠ t.baseAddr := by
  constructor
  · intro h q hq
    refine h q ?_ t (by simp)
    simp only [List.mem_append, List.mem_cons] at hq ⊢
    tauto
  · intro h x hx y hy
    have hmem : ∀ z ∈ pre ++ t :: post, z = t ∨ z ∈ pre ++ post := fun z hz => by
      simp only [List.mem_append, List.mem_cons] at hz ⊢
      tauto
    have hold : ∀ z ∈ pre ++ post, z ∈ pre ++ r :: post := fun z hz => by
      simp only [List.mem_append, List.mem_cons] at hz ⊢
      tauto
    rcases hmem x hx with rfl | hx' <;> rcases hmem y hy with rfl | hy'
    · exact hne
    · rw [hend]
      exact hc r (by simp) y (hold y hy')
    · exact h x hx'
    · exact hc x (hold x hx') y (hold y hy')

/-- A merge keeps a map canonical exactly when no range ends where the new one begins. -/
theorem canonical_addRangeMerge (hm : m.Apart) (hspace : InSpace m.ranges) (hc : Canonical m.ranges)
    (hn : 0 < n) (hlt : b + 4096 * n ≤ 2 ^ 64)
    (hok : (mmapAddRangeMerge m b n).1 = true) :
    Canonical (mmapAddRangeMerge m b n).2.ranges ↔ ∀ r ∈ m.ranges, r.endAddr ≠ b := by
  have heq := mmapAddRangeMerge_eq m b (Nat.pos_iff_ne_zero.mp hn)
  cases hmf : mergeFirst b n (wrap (b + 4096 * n)) m.ranges with
  | none =>
    -- the range is put behind the others
    rw [hmf] at heq
    simp only at heq
    rw [heq] at hok ⊢
    have hadd := mmapAddRange_eq m b (Nat.pos_iff_ne_zero.mp hn)
    split_ifs at hadd with hroom
    · obtain ⟨m', hm', hranges, -⟩ := hadd
      rw [hm', hranges]
      constructor
      · exact fun h r hr => h r (by simp [hr]) ⟨b, n⟩ (by simp)
      · intro h x hx y hy
        rcases List.mem_append.mp hx with hx | hx <;> rcases List.mem_append.mp hy with hy | hy
        · exact hc x hx y hy
        · rw [List.mem_singleton.mp hy]
          exact h x hx
        · rw [List.mem_singleton.mp hx]
          have hnone := mergeFirst_none hmf y hy
          have hpos := hm.pos y hy
          have hend := (hspace y hy).2
          simp only [MemoryRange.endAddr, wrap] at hend hnone ⊢
          omega
        · rw [List.mem_singleton.mp hx, List.mem_singleton.mp hy]
          simp only [MemoryRange.endAddr]
          omega
    · rw [hadd] at hok
      cases hok
  | some rs =>
    rw [hmf] at heq
    obtain ⟨m', hm', hranges, -⟩ := heq
    obtain ⟨pre, ⟨c, k⟩, post, hl, hbase, rfl⟩ := mergeFirst_some hmf
    have hr : (⟨c, k⟩ : MemoryRange) ∈ m.ranges := by simp [hl]
    have hpos := hm.pos _ hr
    obtain ⟨hnz, hend⟩ := hspace _ hr
    simp only [MemoryRange.endAddr] at hpos hnz hend hbase
    -- address 0 is in no range, so the merge address has not wrapped
    have hc' : c = b + 4096 * n := by
      unfold wrap at hbase
      omega
    have hsum : wrap (k + n) = k + n := wrap_of_lt (by omega)
    rw [hm', hranges, hsum]
    rw [hl] at hc ⊢
    have hreplace := canonical_replace (t := ⟨b, k + n⟩) hc ?_ ?_
    · rw [hreplace]
      constructor
      · intro h q hq
        simp only [List.mem_append, List.mem_cons] at hq
        rcases hq with hq | rfl | hq
        · exact h q (by simp [hq])
        · simp only [MemoryRange.endAddr]
          omega
        · exact h q (by simp [hq])
      · exact fun h q hq => h q (by simp only [List.mem_append, List.mem_cons] at hq ⊢; tauto)
    · simp only [MemoryRange.endAddr]
      omega
    · simp only [MemoryRange.endAddr]
      omega

/-- Taking pages from the front of a range keeps a map canonical. -/
theorem canonical_getPages (hwf : m.Wf) (hc : Canonical m.ranges) (hn : 0 < n) :
    Canonical (mmapGetPages m n).2.ranges := by
  have heq := mmapGetPages_eq m n
  cases hff : firstFit n m.ranges with
  | none =>
    rw [hff] at heq
    simp only at heq
    rw [heq]
    exact hc
  | some p =>
    obtain ⟨a, rs⟩ := p
    rw [hff] at heq
    obtain ⟨m', hm', hranges, -⟩ := heq
    obtain ⟨pre, ⟨c, k⟩, post, hl, hbase, hle, rfl⟩ := firstFit_some hff
    simp only at hbase hle
    subst hbase
    rw [hm', hranges]
    by_cases hfit : k = n
    · rw [if_pos hfit, List.append_nil]
      have hsub : ∀ z ∈ pre ++ post, z ∈ m.ranges := fun z hz => by
        rw [hl]
        simp only [List.mem_append, List.mem_cons] at hz ⊢
        tauto
      exact fun x hx y hy => hc x (hsub x hx) y (hsub y hy)
    · have hr : (⟨c, k⟩ : MemoryRange) ∈ m.ranges := by simp [hl]
      have hend := (hwf.inSpace _ hr).2
      simp only [MemoryRange.endAddr] at hend
      rw [if_neg hfit, wrap_of_lt (by omega), List.append_assoc, List.singleton_append]
      have hpair := hwf.disjoint
      rw [hl] at hc hpair
      refine (canonical_replace hc ?_ ?_).mpr fun q hq => ?_
      · simp only [MemoryRange.endAddr]
        omega
      · simp only [MemoryRange.endAddr]
        omega
      · -- a range that does not overlap the old one ends before its first page
        have hqr : q.Disjoint ⟨c, k⟩ := by
          rw [List.pairwise_append, List.pairwise_cons] at hpair
          obtain ⟨-, ⟨hpost, -⟩, hcross⟩ := hpair
          rcases List.mem_append.mp hq with hq | hq
          · exact hcross q hq _ List.mem_cons_self
          · exact (hpost q hq).symm
        have hqpos := hwf.apart.pos q (by
          rw [hl]
          simp only [List.mem_append, List.mem_cons] at hq ⊢
          tauto)
        simp only [MemoryRange.Disjoint, MemoryRange.endAddr] at hqr ⊢
        omega

/-! ## Runs -/

/-- The call takes pages, or it gives back a range that touches no free range below it. -/
def MmapCall.TouchesNothingBelow (m : MemoryMap) : MmapCall → Prop
  | .getPages _ => True
  | .addRange _ _ => False
  | .addRangeMerge b _ => ∀ r ∈ m.ranges, r.endAddr ≠ b

/-- The runs of `mmap_get_pages` and `mmap_add_range_merge` in which no range is given back right
behind a free one. -/
inductive MergeRun (m₀ : MemoryMap) : List (MmapCall × Nat) → MemoryMap → Prop where
  | start : MergeRun m₀ [] m₀
  | call {tr : List (MmapCall × Nat)} {m : MemoryMap} (c : MmapCall) : MergeRun m₀ tr m → c.Valid m →
      c.TouchesNothingBelow m → MergeRun m₀ (tr ++ [(c, (c.run m).1)]) (c.run m).2

theorem MergeRun.mmapRun (h : MergeRun m₀ tr m) : MmapRun m₀ tr m := by
  induction h with
  | start => exact .start
  | call c _ hvalid _ ih => exact ih.call c hvalid

/-- A map stays canonical. -/
theorem MergeRun.canonical (hwf : m₀.Wf) (hc : Canonical m₀.ranges) (h : MergeRun m₀ tr m) :
    Canonical m.ranges := by
  induction h with
  | start => exact hc
  | @call tr m c hrun hvalid hbelow ih =>
    have hm := (mmap_run_accounts hwf hrun.mmapRun).1
    cases c with
    | getPages k => exact canonical_getPages hm ih hvalid
    | addRange _ _ => exact hbelow.elim
    | addRangeMerge b n =>
      obtain ⟨hr, hd⟩ := hvalid
      by_cases hok : (mmapAddRangeMerge m b n).1 = true
      · exact (canonical_addRangeMerge hm.apart hm.inSpace ih hr.pos hr.noWrap hok).mpr hbelow
      · have hsame := (mmapAddRangeMerge_pages hm ⟨hr, hd⟩).2.2 (by simpa using hok)
        show Canonical (mmapAddRangeMerge m b n).2.ranges
        rw [hsame]
        exact ih

/-- A range whose pages are pages of another one lies in it. -/
theorem pageList_subset (hpos : 0 < q.pages) (h : ∀ p ∈ q.pageList, p ∈ R.pageList) :
    R.baseAddr ≤ q.baseAddr ∧ q.endAddr ≤ R.endAddr := by
  have hfirst := MemoryRange.mem_pageList_bounds
    (h q.baseAddr (MemoryRange.mem_pageList.mpr ⟨0, hpos, rfl⟩))
  have hlast := MemoryRange.mem_pageList_bounds
    (h _ (MemoryRange.mem_pageList.mpr ⟨q.pages - 1, by omega, rfl⟩))
  unfold MemoryRange.endAddr at hlast ⊢
  omega

/-- A canonical map with the pages of one range has that range only. -/
theorem ranges_eq_singleton (hm : m.Wf) (hc : Canonical m.ranges) (hR : R.Wf)
    (hpages : m.freePages.Perm R.pageList) : m.ranges = [R] := by
  have hin : ∀ q ∈ m.ranges, R.baseAddr ≤ q.baseAddr ∧ q.endAddr ≤ R.endAddr := fun q hq =>
    pageList_subset (hm.apart.pos q hq) fun p hp =>
      hpages.mem_iff.mp (List.mem_flatMap.mpr ⟨q, hq, hp⟩)
  have hcover : ∀ p ∈ R.pageList, ∃ q ∈ m.ranges, q.baseAddr ≤ p ∧ p + 4096 ≤ q.endAddr := fun p hp => by
    obtain ⟨q, hq, hpq⟩ := List.mem_flatMap.mp (hpages.mem_iff.mpr hp)
    exact ⟨q, hq, MemoryRange.mem_pageList_bounds hpq⟩
  -- the range of the first page
  obtain ⟨q, hq, hle, -⟩ := hcover R.baseAddr (MemoryRange.mem_pageList.mpr ⟨0, hR.pos, rfl⟩)
  obtain ⟨hge, hend⟩ := hin q hq
  have hbase : q.baseAddr = R.baseAddr := Nat.le_antisymm hle hge
  have hqpos := hm.apart.pos q hq
  have hpagecount : q.pages = R.pages := by
    by_contra hne
    have hlt : q.pages < R.pages := by
      unfold MemoryRange.endAddr at hend
      omega
    -- the page behind it is in another range, which begins there
    obtain ⟨t, ht, hle', hend'⟩ := hcover q.endAddr (MemoryRange.mem_pageList.mpr ⟨q.pages, hlt, by
      unfold MemoryRange.endAddr
      omega⟩)
    have htq : t ≠ q := by
      rintro rfl
      omega
    have hd := hm.disjoint.forall ht hq htq
    have htpos := hm.apart.pos t ht
    refine hc q hq t ht (Nat.le_antisymm ?_ hle')
    unfold MemoryRange.Disjoint at hd
    unfold MemoryRange.endAddr at hend' hle' hd ⊢
    omega
  have hqR : q = R := by
    obtain ⟨qb, qp⟩ := q
    obtain ⟨Rb, Rp⟩ := R
    simp only at hbase hpagecount
    rw [hbase, hpagecount]
  subst hqR
  -- and there is no other range
  have honly : ∀ t ∈ m.ranges, t = q := by
    intro t ht
    by_contra hne
    have hd := hm.disjoint.forall ht hq hne
    obtain ⟨h₁, h₂⟩ := hin t ht
    have htpos := hm.apart.pos t ht
    unfold MemoryRange.Disjoint at hd
    unfold MemoryRange.endAddr at hd h₂
    omega
  obtain ⟨l₁, l₂, hl⟩ := List.append_of_mem hq
  have hnodup := hm.apart.nodup
  rw [hl, List.nodup_middle] at hnodup
  have hrest : l₁ ++ l₂ = [] := List.eq_nil_iff_forall_not_mem.mpr fun t ht => by
    have htq := honly t (by
      rw [hl]
      simp only [List.mem_append, List.mem_cons] at ht ⊢
      tauto)
    exact (List.nodup_cons.mp hnodup).1 (htq ▸ ht)
  obtain ⟨rfl, rfl⟩ := List.append_eq_nil_iff.mp hrest
  exact hl

/-- The whole of a single range is taken. -/
theorem mmapGetPages_singleton (h : m.ranges = [R]) :
    (mmapGetPages m R.pages).1 = R.baseAddr ∧ (mmapGetPages m R.pages).2.ranges = [] := by
  have heq := mmapGetPages_eq m R.pages
  have hff : firstFit R.pages m.ranges = some (R.baseAddr, []) := by
    rw [h]
    simp [firstFit]
  rw [hff] at heq
  obtain ⟨m', hm', hranges, -⟩ := heq
  rw [hm']
  exact ⟨rfl, hranges⟩

/-- When everything has been given back, the whole of an initially single range is there. -/
theorem MergeRun.whole (hwf : m₀.Wf) (hR : m₀.ranges = [R]) (h : MergeRun m₀ tr m)
    (hback : (handedOut tr).Perm (putIn tr)) :
    (mmapGetPages m R.pages).1 = R.baseAddr ∧ (mmapGetPages m R.pages).2.ranges = [] := by
  have hRwf : R.Wf := hwf.ranges_wf R (by simp [hR])
  have hRpos := hRwf.pos
  obtain ⟨hm, hperm⟩ := mmap_run_accounts hwf h.mmapRun
  have hcanon := h.canonical hwf (by
    rw [hR]
    intro x hx y hy
    rw [List.mem_singleton.mp hx, List.mem_singleton.mp hy]
    unfold MemoryRange.endAddr
    omega)
  refine mmapGetPages_singleton (ranges_eq_singleton hm hcanon hRwf ?_)
  have hfree : m₀.freePages = R.pageList := by
    rw [MemoryMap.freePages, hR, List.flatMap_singleton]
  rw [hfree] at hperm
  refine (List.perm_append_left_iff (handedOut tr)).mp (hperm.trans ?_)
  exact List.perm_append_comm.trans (hback.symm.append_right _)

/-! ## Merging -/

/-- **Merging.** A range that is added to a canonical map leaves a canonical map exactly when no
range of the map ends where it begins; and a run in which this holds of every range that is given
back, until nothing is taken any more, leaves the whole of an initially single range. -/
theorem canonical_addRangeMerge_iff (m : MemoryMap) (b n : Nat) (m₀ : MemoryMap) (R : MemoryRange) :
    (m.Apart → InSpace m.ranges → Canonical m.ranges → 0 < n → b + 4096 * n ≤ 2 ^ 64 →
      (mmapAddRangeMerge m b n).1 = true →
      (Canonical (mmapAddRangeMerge m b n).2.ranges ↔ ∀ r ∈ m.ranges, r.endAddr ≠ b)) ∧
    (m₀.Wf → m₀.ranges = [R] → ∀ (tr : List (MmapCall × Nat)) (m' : MemoryMap), MergeRun m₀ tr m' →
      (handedOut tr).Perm (putIn tr) →
      (mmapGetPages m' R.pages).1 = R.baseAddr ∧ (mmapGetPages m' R.pages).2.ranges = []) :=
  ⟨fun hm hspace hc hn hlt hok => canonical_addRangeMerge hm hspace hc hn hlt hok,
    fun hwf hR _ _ hrun hback => hrun.whole hwf hR hback⟩

/-- Three of four pages are taken and given back. -/
theorem canonical_addRangeMerge_iff_fourPages : ∃ m, (mmapGetPages m 4).1 = 0x1000 ∧
    Canonical (mmapAddRangeMerge (mmapGetPages fourPages 3).2 0x1000 3).2.ranges := by
  have h₁ : MergeRun fourPages [(.getPages 3, 0x1000)] (mmapGetPages fourPages 3).2 :=
    MergeRun.start.call (.getPages 3) (show 1 ≤ 3 by decide) trivial
  have hranges : (mmapGetPages fourPages 3).2.ranges = [⟨0x4000, 1⟩] := by decide
  have hwf := (mmap_run_accounts fourPages_wf h₁.mmapRun).1
  have hd : ∀ q ∈ (mmapGetPages fourPages 3).2.ranges, q.Disjoint ⟨0x1000, 3⟩ := by
    rw [hranges]
    intro q hq
    rw [List.mem_singleton.mp hq]
    exact .inr (by decide)
  have hbelow : ∀ r ∈ (mmapGetPages fourPages 3).2.ranges, r.endAddr ≠ 0x1000 := by
    rw [hranges]
    decide
  have h₂ := h₁.call (.addRangeMerge 0x1000 3) ⟨⟨by decide, by decide, by decide, by decide⟩, hd⟩ hbelow
  obtain ⟨hmerge, hrun⟩ := canonical_addRangeMerge_iff (mmapGetPages fourPages 3).2 0x1000 3 fourPages ⟨0x1000, 4⟩
  have hwhole := hrun fourPages_wf rfl _ _ h₂ (by decide)
  have hcanon : Canonical (mmapGetPages fourPages 3).2.ranges := by
    rw [hranges]
    decide
  exact ⟨_, hwhole.1, (hmerge hwf.apart hwf.inSpace hcanon (by decide) (by decide) (by decide)).mpr hbelow⟩

/-- Two pages, with a buffer of two slots. -/
def twoPages : MemoryMap := ⟨fun _ => ⟨0x1000, 2⟩, 1, 2⟩

/-- The two pages are taken one by one and given back in the same order. -/
def twoPagesRun : List MmapCall := [.getPages 1, .getPages 1, .addRangeMerge 0x1000 1, .addRangeMerge 0x2000 1]

/-- The two pages touch, and they are not merged: there are no two pages in a row any more. -/
theorem canonical_addRangeMerge_fragments :
    ∃ m tr, MmapRun twoPages tr m ∧ tr.map Prod.fst = twoPagesRun ∧ (∀ x ∈ tr, x.2 ≠ 0) ∧
      (handedOut tr).Perm (putIn tr) ∧ ¬Canonical m.ranges ∧ (mmapGetPages m 2).1 = 0 := by
  have h₀ : MmapRun twoPages [] twoPages := .start
  have h₁ := h₀.call (.getPages 1) (show 1 ≤ 1 by decide)
  have h₂ := h₁.call (.getPages 1) (show 1 ≤ 1 by decide)
  have h₃ := h₂.call (.addRangeMerge 0x1000 1) ⟨⟨by decide, by decide, by decide, by decide⟩, by
    have hranges : (mmapGetPages (mmapGetPages twoPages 1).2 1).2.ranges = [] := by decide
    intro q hq
    exact absurd (hranges ▸ hq) List.not_mem_nil⟩
  have h₄ := h₃.call (.addRangeMerge 0x2000 1) ⟨⟨by decide, by decide, by decide, by decide⟩, by
    have hranges : (mmapAddRangeMerge (mmapGetPages (mmapGetPages twoPages 1).2 1).2 0x1000 1).2.ranges =
        [⟨0x1000, 1⟩] := by decide
    intro q hq
    rw [show q = ⟨0x1000, 1⟩ from List.mem_singleton.mp (hranges ▸ hq)]
    exact .inl (by decide)⟩
  exact ⟨_, _, h₄, rfl, by decide, by decide, by decide, by decide⟩

end KoalemOS.Mmap
